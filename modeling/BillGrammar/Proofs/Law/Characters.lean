import BillGrammar.Proofs.Law.Expansion

namespace BillGrammar

open Template Sampler

def IsNumberChar (c : Char) : Prop := c.isAlphanum ∨ c = '.' ∨ c = '-'

def WrittenIn (P : Char → Prop) (text : String) : Prop := ∀ c ∈ text.toList, P c

variable {P : Char → Prop} {L : Lexicon} {U : Binary64 → Prop}

theorem writtenIn_append {a b : String} :
    WrittenIn P (a ++ b) ↔ WrittenIn P a ∧ WrittenIn P b := by
  simp only [WrittenIn, String.toList_append, List.forall_mem_append]

theorem Binary64.writtenIn_renderPlaces (places : Nat) (x : Binary64) :
    WrittenIn IsNumberChar (x.renderPlaces places) := by
  cases x with
  | nan =>
    intro c hc
    have hc : c = 'N' ∨ c = 'a' ∨ c = 'N' := by simpa [renderPlaces] using hc
    rcases hc with rfl | rfl | rfl <;> exact .inl rfl
  | infinite s =>
    intro c hc
    have hc : c = '-' ∨ c = 'i' ∨ c = 'n' ∨ c = 'f' := by
      cases s <;> simp [renderPlaces] at hc <;> tauto
    rcases hc with rfl | rfl | rfl | rfl
    · exact .inr (.inr rfl)
    all_goals exact .inl rfl
  | finite s k =>
    intro c hc
    refine ((toPlaces places s k).mem_render hc).imp_left fun hd => ?_
    simp [Char.isAlphanum, hd]

namespace Lexicon

def WrittenIn (L : Lexicon) (P : Char → Prop) : Prop :=
  ∀ t, ∀ x ∈ L.texts t, BillGrammar.WrittenIn P x

variable (hP : ∀ c, IsNumberChar c → P c) (hL : L.WrittenIn P)

include hP hL

theorem writtenIn_of_fragment (h : (L.fragment token).run.Yields U (.ok f)) :
    BillGrammar.WrittenIn P f := by
  obtain ⟨a, -, h⟩ := yields_fragment.mp h
  cases h with
  | entry _ _ he => exact hL _ _ (inflect_mem_texts he _)
  | number => exact fun c hc => hP c (Binary64.writtenIn_renderPlaces _ _ c hc)

theorem writtenIn_of_pass {segments : List Segment}
    (hs : BillGrammar.WrittenIn P (render segments))
    (h : (L.pass segments).run.Yields U (.ok x)) : BillGrammar.WrittenIn P x := by
  induction segments generalizing x with
  | nil =>
    rw [yields_pass_nil.mp h]
    exact nofun
  | cons s segments ih =>
    rw [render_cons, writtenIn_append] at hs
    cases s with
    | literal y =>
      obtain ⟨r, rfl, hr⟩ := yields_pass_literal.mp h
      exact writtenIn_append.mpr ⟨hs.1, ih hs.2 hr⟩
    | placeholder token =>
      obtain ⟨f, r, rfl, hf, hr⟩ := yields_pass_placeholder.mp h
      exact writtenIn_append.mpr ⟨writtenIn_of_fragment hP hL hf, ih hs.2 hr⟩

theorem writtenIn_of_expandWith (ht : BillGrammar.WrittenIn P text)
    (h : (L.expandWith passes left text).run.Yields U (.ok x)) : BillGrammar.WrittenIn P x := by
  induction left generalizing text with
  | zero =>
    by_cases hp : Plain text
    · rw [expandWith_of_plain hp] at h
      cases yields_pure.mp h
      exact ht
    · cases hs : scan text with
      | error e => simp [expandWith_of_unreadable hs] at h
      | ok segments => simp [expandWith_zero hp ⟨_, hs⟩] at h
  | succ left ih =>
    cases hs : scan text with
    | error e => simp [expandWith_of_unreadable hs] at h
    | ok segments =>
      rw [expandWith_succ_of_scan hs, yields_run_bind] at h
      rcases h with ⟨y, hy, h⟩ | ⟨_, -, ⟨⟩⟩
      exact ih (writtenIn_of_pass hP hL ((wellFormed_of_scan hs).2 ▸ ht) hy) h

theorem writtenIn_of_law (h : (L.law passes).run.Yields U (.ok x)) :
    BillGrammar.WrittenIn P x := by
  rcases yields_law.mp h with ⟨t, ht, h⟩ | ⟨-, ⟨⟩⟩
  exact writtenIn_of_expandWith hP hL (hL .skeletons t (inflect_mem_texts ht .default)) h

end Lexicon

namespace Generator

variable {σ : Type} [RandomSource σ] {g : Generator σ}

theorem writtenIn_of_one (hP : ∀ c, IsNumberChar c → P c) (hL : g.lexicon.WrittenIn P)
    (h : g.one.1 = .ok law) : WrittenIn P law :=
  Lexicon.writtenIn_of_law hP hL (h ▸ g.yields_one)

theorem writtenIn_of_many (hP : ∀ c, IsNumberChar c → P c) (hL : g.lexicon.WrittenIn P)
    (h : (g.many count).1 = .ok laws) : ∀ law ∈ laws, WrittenIn P law := by
  have hyields : (g.lexicon.laws g.passes count).run.Yields (fun _ => True) (.ok laws) :=
    h ▸ g.yields_perform _
  intro law hlaw
  obtain ⟨_, -, hyields⟩ := exists_of_mem_of_yields_mapM hyields hlaw
  exact Lexicon.writtenIn_of_law hP hL hyields

end Generator

end BillGrammar
