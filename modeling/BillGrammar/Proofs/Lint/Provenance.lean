import BillGrammar.Proofs.Law.Expansion
import BillGrammar.Proofs.Lint.Reference

/-!
Where the tokens of a text under expansion come from.  A pass replaces a token that a table mentions
by a text whose tokens are mentioned by tables that it refers to.
-/

namespace BillGrammar

open Template Sampler

namespace Lexicon

variable {L : Lexicon} {U : Binary64 → Prop} {S S' : Table → Prop}

def Covers (L : Lexicon) (S : Table → Prop) (text : String) : Prop :=
  ∀ token, Template.Mentions text token → ∃ t, S t ∧ L.Mentions t token

theorem covers_of_mem_texts {t : Table} (hx : x ∈ L.texts t) (ht : S t) : L.Covers S x :=
  fun _ hm => ⟨t, ht, x, hx, hm⟩

theorem covers_of_plain (h : Plain x) : L.Covers S x :=
  fun token hm => absurd hm (h.scans.plain_iff.mp h token)

theorem Covers.append {a b : String} (ha : Template.Scans a) (hb : Template.Scans b)
    (hca : L.Covers S a) (hcb : L.Covers S b) : L.Covers S (a ++ b) := by
  intro token hm
  rcases (mentions_append ha hb).mp hm with hm | hm
  · exact hca token hm
  · exact hcb token hm

theorem exists_of_covers_render {segments : List Segment} (hw : WellFormed segments)
    (hc : L.Covers S (render segments)) (ht : .placeholder token ∈ segments) :
    ∃ t, S t ∧ L.Mentions t token :=
  hc token ((mentions_render hw).mpr ht)

theorem covers_of_fragment {t : Table} (hS : ∀ u ∈ L.references t, S' u)
    (ht : L.Mentions t token) (hf : (L.fragment token).run.Yields U (.ok f)) : L.Covers S' f := by
  obtain ⟨a, ha, hf⟩ := yields_fragment.mp hf
  cases hf with
  | entry hr hu he =>
    exact covers_of_mem_texts (inflect_mem_texts he _)
      (hS _ (mem_references.mpr ⟨token, ht, a, ha, _, hr, hu⟩))
  | number => exact covers_of_plain (NumberRange.plain_render _ _)

theorem covers_of_pass (hL : L.Scans) (hS : ∀ t u, S t → u ∈ L.references t → S' u)
    {segments : List Segment} (hw : WellFormed segments)
    (hc : ∀ token, .placeholder token ∈ segments → ∃ t, S t ∧ L.Mentions t token)
    (h : (L.pass segments).run.Yields U (.ok x)) : L.Covers S' x := by
  induction segments generalizing x with
  | nil =>
    rw [yields_pass_nil.mp h]
    exact covers_of_plain nofun
  | cons s segments ih =>
    rw [wellFormed_cons] at hw
    have ih {r} := ih (x := r) hw.2 fun token ht => hc token (List.mem_cons_of_mem _ ht)
    cases s with
    | literal y =>
      obtain ⟨r, rfl, hr⟩ := yields_pass_literal.mp h
      exact (covers_of_plain hw.1).append (Plain.scans hw.1) (scans_of_yields_pass hL hw.2 hr)
        (ih hr)
    | placeholder token =>
      obtain ⟨f, r, rfl, hf, hr⟩ := yields_pass_placeholder.mp h
      obtain ⟨t, hSt, ht⟩ := hc token List.mem_cons_self
      exact (covers_of_fragment (hS t · hSt) ht hf).append (scans_of_fragment hL hf)
        (scans_of_yields_pass hL hw.2 hr) (ih hr)

/-- Expansion within as many passes as `S` has levels.  References lead from each level to the one
below, so that the text is covered by the level of the passes left. -/
theorem exists_of_expandWith_error {S : Nat → Table → Prop} (hL : L.Scans)
    (hS : ∀ m t u, S (m + 1) t → u ∈ L.references t → S m u) (hx : Template.Scans x)
    (hc : L.Covers (S m) x) (h : (L.expandWith passes m x).run.Yields U (.error e)) :
    (∃ t, S 0 t) ∧ e = .depthExceeded passes ∨
      ∃ k t token d, S k t ∧ L.Mentions t token ∧ e = .placeholder d ∧
        (L.fragment token).run.Yields U (.error d) := by
  induction m generalizing x with
  | zero =>
    -- What has not settled by now mentions a token, so that a table is left on the lowest level.
    by_cases hp : Plain x
    · simp [expandWith_of_plain hp] at h
    · rw [expandWith_zero hp hx] at h
      rw [hx.plain_iff] at hp
      push Not at hp
      obtain ⟨token, hm⟩ := hp
      obtain ⟨t, ht, -⟩ := hc token hm
      exact .inl ⟨⟨t, ht⟩, by simpa using h⟩
  | succ m ih =>
    obtain ⟨segments, hw, rfl⟩ := scans_iff.mp hx
    have hc (token : String) (ht : .placeholder token ∈ segments) :=
      exists_of_covers_render hw hc ht
    rw [expandWith_succ hw, yields_run_bind] at h
    rcases h with ⟨y, hy, h⟩ | ⟨e, h, he⟩
    · exact ih (scans_of_yields_pass hL hw hy) (covers_of_pass hL (hS m) hw hc hy) h
    · cases he
      obtain ⟨token, d, hmem, rfl, hd⟩ := exists_of_yields_pass_error h
      obtain ⟨t, ht, hm⟩ := hc token hmem
      exact .inr ⟨m + 1, t, token, d, ht, hm, rfl, hd⟩

theorem exists_of_law_error {S : Nat → Table → Prop} (hL : L.Scans)
    (hS : ∀ m t u, S (m + 1) t → u ∈ L.references t → S m u) (hs : S m .skeletons)
    (h : (L.law m).run.Yields U (.error e)) :
    (∃ t, S 0 t) ∧ e = .depthExceeded m ∨
      L.entries .skeletons = [] ∧ e = .placeholder (.emptyTable .skeletons) ∨
      ∃ k t token d, S k t ∧ L.Mentions t token ∧ e = .placeholder d ∧
        (L.fragment token).run.Yields U (.error d) := by
  rcases yields_law.mp h with ⟨x, hx, h⟩ | ⟨he, hd⟩
  · have hc : L.Covers (S m) x := covers_of_mem_texts (inflect_mem_texts hx .default) hs
    rcases exists_of_expandWith_error hL hS (hL.skeleton hx) hc h with h | h
    · exact .inl h
    · exact .inr (.inr h)
  · cases hd
    exact .inr (.inl ⟨he, rfl⟩)

end Lexicon

end BillGrammar
