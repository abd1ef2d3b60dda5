import BillGrammar.Law.Generator
import BillGrammar.Proofs.Placeholder.Fragment

namespace BillGrammar

open Template Sampler

variable {U : Binary64 → Prop} {L : Lexicon}

theorem Sampler.adapt_bind {f : ε → δ} (p : ExceptT ε Sampler α) (g : α → ExceptT ε Sampler β) :
    (p >>= g).adapt f = p.adapt f >>= fun a => (g a).adapt f := by
  apply ExceptT.ext
  change Except.mapError f <$> (p >>= g).run = _
  have hp : (p.adapt f).run = Except.mapError f <$> p.run := rfl
  simp only [ExceptT.run_bind, hp, map_bind, bind_map_left]
  congr 1
  funext r
  cases r <;> rfl

namespace Lexicon

theorem pass_nil : L.pass [] = pure "" := by
  rfl

theorem pass_cons (s : Segment) (segments : List Segment) :
    L.pass (s :: segments) =
      (L.replace s).adapt .placeholder >>= fun f => (f ++ ·) <$> L.pass segments := by
  simp only [pass, List.mapM_cons, adapt_bind, map_bind]
  congr 1
  funext f
  have hpure (fs : List String) :
      (pure (f :: fs) : ExceptT PlaceholderError Sampler _).adapt GenerationError.placeholder =
        pure (f :: fs) := rfl
  simp [hpure]

theorem pass_literal (text : String) (segments : List Segment) :
    L.pass (.literal text :: segments) = (text ++ ·) <$> L.pass segments := by
  rw [pass_cons]
  rfl

theorem pass_placeholder (token : String) (segments : List Segment) :
    L.pass (.placeholder token :: segments) =
      (L.fragment token).adapt .placeholder >>= fun f => (f ++ ·) <$> L.pass segments :=
  pass_cons _ segments

theorem pass_append (a b : List Segment) :
    L.pass (a ++ b) = L.pass a >>= fun x => (x ++ ·) <$> L.pass b := by
  induction a with
  | nil => simp [pass_nil]
  | cons s a ih => simp [pass_cons, ih, String.append_assoc]

theorem pass_literal_chars (pending : List Char) :
    L.pass (literal pending) = pure (String.ofList pending.reverse) := by
  unfold literal
  split
  · simp_all [pass_nil]
  · simp [pass_literal, pass_nil]

theorem pass_joinLiterals (pending : List Char) (segments : List Segment) :
    L.pass (joinLiterals pending segments) =
      (String.ofList pending.reverse ++ ·) <$> L.pass segments := by
  induction segments generalizing pending with
  | nil => simp [joinLiterals, pass_literal_chars, pass_nil]
  | cons s segments ih =>
    cases s with
    | literal text => simp [joinLiterals, ih, pass_literal, String.append_assoc]
    | placeholder token =>
      simp [joinLiterals, ih, pass_append, pass_literal_chars, pass_placeholder]

theorem expandWith_of_plain (h : Plain text) : L.expandWith passes left text = pure text := by
  unfold expandWith
  rw [hasPlaceholders_eq_false_iff.mpr h]
  rfl

theorem expandWith_of_unreadable (h : scan text = .error e) :
    L.expandWith passes left text = throw (.template e) := by
  have hp : ¬ Plain text := by
    intro hp
    obtain ⟨segments, hs⟩ := hp.scans
    rw [h] at hs
    cases hs
  rw [← hasPlaceholders_eq_false_iff, Bool.not_eq_false] at hp
  rw [expandWith, hp, h]
  rfl

theorem expandWith_zero (h : ¬ Plain text) (hs : Template.Scans text) :
    L.expandWith passes 0 text = throw (.depthExceeded passes) := by
  obtain ⟨segments, hs⟩ := hs
  rw [← hasPlaceholders_eq_false_iff, Bool.not_eq_false] at h
  rw [expandWith, h, hs]
  rfl

theorem pass_of_plain {segments : List Segment} (hw : WellFormed segments)
    (h : Plain (render segments)) : L.pass segments = pure (render segments) := by
  rw [plain_render_iff hw] at h
  induction segments with
  | nil => exact pass_nil
  | cons s segments ih =>
    cases s with
    | literal text =>
      rw [wellFormed_cons] at hw
      rw [pass_literal, ih hw.2 fun token ht => h token (List.mem_cons_of_mem _ ht)]
      simp [Segment.render]
    | placeholder token => exact absurd List.mem_cons_self (h token)

theorem expandWith_succ {segments : List Segment} (hw : WellFormed segments) :
    L.expandWith passes (left + 1) (render segments) =
      L.pass segments >>= L.expandWith passes left := by
  by_cases h : Plain (render segments)
  · rw [expandWith_of_plain h, pass_of_plain hw h, pure_bind, expandWith_of_plain h]
  · rw [← hasPlaceholders_eq_false_iff, Bool.not_eq_false] at h
    have hp : L.pass (joinLiterals [] segments) = L.pass segments := by
      simp [pass_joinLiterals]
    rw [expandWith, h, scan_render hw, ← hp]
    rfl

theorem expandWith_succ_of_scan (h : scan text = .ok segments) :
    L.expandWith passes (left + 1) text = L.pass segments >>= L.expandWith passes left := by
  obtain ⟨hw, rfl⟩ := wellFormed_of_scan h
  exact expandWith_succ hw

/-! What a pass can give. -/

theorem yields_pass_nil : (L.pass []).run.Yields U (.ok t) ↔ t = "" := by
  simp [pass_nil]

theorem yields_pass_literal :
    (L.pass (.literal x :: segments)).run.Yields U (.ok t) ↔
      ∃ r, t = x ++ r ∧ (L.pass segments).run.Yields U (.ok r) := by
  simp only [pass_literal, yields_run_map_ok, and_comm]

theorem yields_pass_placeholder :
    (L.pass (.placeholder token :: segments)).run.Yields U (.ok t) ↔
      ∃ f r, t = f ++ r ∧ (L.fragment token).run.Yields U (.ok f) ∧
        (L.pass segments).run.Yields U (.ok r) := by
  simp only [pass_placeholder, yields_run_bind, yields_run_adapt_ok, yields_run_map_ok,
    reduceCtorEq, and_false, exists_false, or_false]
  constructor
  · rintro ⟨f, hf, r, hr, rfl⟩
    exact ⟨f, r, rfl, hf, hr⟩
  · rintro ⟨f, r, rfl, hf, hr⟩
    exact ⟨f, hf, r, hr, rfl⟩

theorem exists_of_yields_pass_error {segments : List Segment}
    (h : (L.pass segments).run.Yields U (.error e)) :
    ∃ token d, .placeholder token ∈ segments ∧ e = .placeholder d ∧
      (L.fragment token).run.Yields U (.error d) := by
  induction segments with
  | nil => simp [pass_nil] at h
  | cons s segments ih =>
    cases s with
    | literal x =>
      rw [pass_literal, yields_run_map_error] at h
      obtain ⟨token, d, ht, hd⟩ := ih h
      exact ⟨token, d, List.mem_cons_of_mem _ ht, hd⟩
    | placeholder token =>
      rw [pass_placeholder, yields_run_bind] at h
      rcases h with ⟨f, -, h⟩ | ⟨e, h, he⟩
      · rw [yields_run_map_error] at h
        obtain ⟨token, d, ht, hd⟩ := ih h
        exact ⟨token, d, List.mem_cons_of_mem _ ht, hd⟩
      · cases he
        obtain ⟨d, hd, rfl⟩ := yields_run_adapt_error.mp h
        exact ⟨token, d, List.mem_cons_self, rfl, hd⟩

theorem scans_of_yields_pass (hL : L.Scans) {segments : List Segment} (hw : WellFormed segments)
    (h : (L.pass segments).run.Yields U (.ok t)) : Template.Scans t := by
  induction segments generalizing t with
  | nil =>
    rw [yields_pass_nil.mp h]
    exact ⟨_, rfl⟩
  | cons s segments ih =>
    rw [wellFormed_cons] at hw
    cases s with
    | literal x =>
      obtain ⟨r, rfl, hr⟩ := yields_pass_literal.mp h
      exact (Plain.scans hw.1).append (ih hw.2 hr)
    | placeholder token =>
      obtain ⟨f, r, rfl, hf, hr⟩ := yields_pass_placeholder.mp h
      exact (scans_of_fragment hL hf).append (ih hw.2 hr)

theorem plain_of_yields_expandWith (h : (L.expandWith passes left text).run.Yields U (.ok s)) :
    Plain s := by
  induction left generalizing text with
  | zero =>
    by_cases hp : Plain text
    · rw [expandWith_of_plain hp] at h
      simp_all
    · rw [← hasPlaceholders_eq_false_iff, Bool.not_eq_false] at hp
      rw [expandWith, hp, if_pos rfl, yields_run_bind] at h
      simp at h
  | succ left ih =>
    by_cases hp : Plain text
    · rw [expandWith_of_plain hp] at h
      simp_all
    · rw [← hasPlaceholders_eq_false_iff, Bool.not_eq_false] at hp
      rw [expandWith, hp] at h
      simp only [↓reduceIte, yields_run_bind, reduceCtorEq, and_false, exists_false, or_false] at h
      obtain ⟨_, -, t, -, h⟩ := h
      exact ih h

theorem yields_law :
    (L.law m).run.Yields U r ↔
      (∃ t ∈ L.entries .skeletons, (L.expandWith m m t).run.Yields U r) ∨
        L.entries .skeletons = [] ∧ r = .error (.placeholder (.emptyTable .skeletons)) := by
  rw [law, yields_run_bind]
  simp only [yields_run_adapt_ok, yields_run_adapt_error, Table.yields_pick_ok,
    Table.yields_pick_error]
  constructor
  · rintro (h | ⟨-, ⟨-, ⟨he, rfl⟩, rfl⟩, rfl⟩)
    · exact .inl h
    · exact .inr ⟨he, rfl⟩
  · rintro (h | ⟨he, rfl⟩)
    · exact .inl h
    · exact .inr ⟨_, ⟨_, ⟨he, rfl⟩, rfl⟩, rfl⟩

theorem plain_of_yields_law (h : (L.law m).run.Yields U (.ok s)) : Plain s := by
  rcases yields_law.mp h with ⟨t, -, h⟩ | ⟨-, h⟩
  · exact plain_of_yields_expandWith h
  · cases h

end Lexicon

namespace Generator

variable {σ : Type} [RandomSource σ]

theorem yields_perform (g : Generator σ) (p : Generation α) :
    p.run.Yields (fun _ => True) (g.perform p).1 :=
  yields_run (fun _ => trivial) p.run g.source

theorem yields_one (g : Generator σ) :
    (g.lexicon.law g.passes).run.Yields (fun _ => True) g.one.1 :=
  g.yields_perform _

end Generator

end BillGrammar
