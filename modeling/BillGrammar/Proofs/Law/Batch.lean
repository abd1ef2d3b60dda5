import BillGrammar.Law.Generator
import BillGrammar.Proofs.Sampler.Failure

namespace BillGrammar

namespace Lexicon

theorem laws_succ (L : Lexicon) (passes count : Nat) : L.laws passes (count + 1) = do
    let law ← L.law passes
    let laws ← L.laws passes count
    return law :: laws := by
  simp only [laws, List.replicate_succ, List.mapM_cons]

theorem laws_add (L : Lexicon) (passes n m : Nat) : L.laws passes (n + m) = do
    let laws ← L.laws passes n
    let more ← L.laws passes m
    return laws ++ more := by
  simp only [laws, ← List.replicate_append_replicate, List.mapM_append]

end Lexicon

namespace Generator

open Sampler

variable {σ : Type} [RandomSource σ]

/-- `g.Gives laws g'`: successive calls for one law give these laws, and leave `g'`. -/
inductive Gives : Generator σ → List String → Generator σ → Prop
  | nil : Gives g [] g
  | cons : g.one = (.ok law, g₁) → Gives g₁ laws g' → Gives g (law :: laws) g'

/-- A batch behind another.  A failure in either ends both, and no law is given out. -/
def manyThen (g : Generator σ) (n m : Nat) : Except GenerationError (List String) × Generator σ :=
  match g.many n with
  | (.error e, g) => (.error e, g)
  | (.ok laws, g) =>
    let (more, g) := g.many m
    (more.map (laws ++ ·), g)

variable {g g' : Generator σ} {p : Generation α}

theorem perform_bind_of_ok {f : α → Generation β} (h : g.perform p = (.ok a, g')) :
    g.perform (p >>= f) = g'.perform (f a) := by
  obtain ⟨hr, rfl⟩ := Prod.mk.inj h
  simp only [perform, run_bind_of_ok (f := f) (Prod.ext hr rfl)]

theorem perform_bind_of_error {f : α → Generation β} (h : g.perform p = (.error e, g')) :
    g.perform (p >>= f) = (.error e, g') := by
  obtain ⟨hr, rfl⟩ := Prod.mk.inj h
  simp only [perform, run_bind_of_error (f := f) (Prod.ext hr rfl)]

theorem perform_map (g : Generator σ) (f : α → β) (p : Generation α) :
    g.perform (f <$> p) = ((g.perform p).1.map f, (g.perform p).2) := by
  rw [← bind_pure_comp]
  cases h : g.perform p with
  | mk r g' =>
    cases r with
    | ok a => exact perform_bind_of_ok h
    | error e => exact perform_bind_of_error h

theorem eq_of_perform (h : g.perform p = (r, g')) : g' = ⟨g.lexicon, g.passes, g'.source⟩ := by
  obtain ⟨-, rfl⟩ := Prod.mk.inj h
  rfl

theorem many_zero (g : Generator σ) : g.many 0 = (.ok [], g) := rfl

theorem many_add (g : Generator σ) (n m : Nat) : g.many (n + m) = g.manyThen n m := by
  rw [many, Lexicon.laws_add, manyThen]
  cases h : g.many n with
  | mk r g' =>
    have hg := eq_of_perform h
    cases r with
    | error e => exact perform_bind_of_error h
    | ok laws =>
      rw [perform_bind_of_ok h, bind_pure_comp, perform_map, hg]
      rfl

theorem many_succ_of_ok (h : g.one = (.ok law, g')) (n : Nat) :
    g.many (n + 1) = ((g'.many n).1.map (law :: ·), (g'.many n).2) := by
  have hg := eq_of_perform h
  rw [many, Lexicon.laws_succ, perform_bind_of_ok h, bind_pure_comp, perform_map, hg]
  rfl

theorem many_succ_of_error (h : g.one = (.error e, g')) (n : Nat) :
    g.many (n + 1) = (.error e, g') := by
  rw [many, Lexicon.laws_succ]
  exact perform_bind_of_error h

theorem gives_cons_iff (h : g.one = (.ok law, g₁)) :
    g.Gives laws g' ↔ laws = [] ∧ g' = g ∨ ∃ rest, laws = law :: rest ∧ g₁.Gives rest g' := by
  constructor
  · rintro (- | ⟨h', hrest⟩)
    · exact .inl ⟨rfl, rfl⟩
    · obtain ⟨⟨⟩, rfl⟩ := Prod.mk.inj (h.symm.trans h')
      exact .inr ⟨_, rfl, hrest⟩
  · rintro (⟨rfl, rfl⟩ | ⟨rest, rfl, hrest⟩)
    · exact .nil
    · exact .cons h hrest

theorem gives_iff_of_error (h : g.one = (.error e, g₁)) : g.Gives laws g' ↔ laws = [] ∧ g' = g := by
  constructor
  · rintro (- | ⟨h', -⟩)
    · exact ⟨rfl, rfl⟩
    · cases h.symm.trans h'
  · rintro ⟨rfl, rfl⟩
    exact .nil

theorem many_eq_ok_iff : g.many n = (.ok laws, g') ↔ laws.length = n ∧ g.Gives laws g' := by
  induction n generalizing g laws with
  | zero =>
    rw [many_zero, List.length_eq_zero_iff]
    constructor
    · rintro ⟨⟩
      exact ⟨rfl, .nil⟩
    · rintro ⟨rfl, ⟨⟩⟩
      rfl
  | succ n ih =>
    cases h : g.one with
    | mk r g₁ =>
      cases r with
      | error e =>
        rw [many_succ_of_error h, gives_iff_of_error h]
        constructor
        · rintro ⟨⟩
        · rintro ⟨hlen, rfl, -⟩
          cases hlen
      | ok law =>
        rw [many_succ_of_ok h, gives_cons_iff h]
        constructor
        · cases hmany : g₁.many n with
          | mk r g₂ =>
            cases r with
            | error e => rintro ⟨⟩
            | ok rest =>
              rintro ⟨⟩
              obtain ⟨hlen, hrest⟩ := ih.mp hmany
              exact ⟨congrArg Nat.succ hlen, .inr ⟨rest, rfl, hrest⟩⟩
        · rintro ⟨hlen, ⟨rfl, -⟩ | ⟨rest, rfl, hrest⟩⟩
          · cases hlen
          · rw [ih.mpr ⟨Nat.succ.inj hlen, hrest⟩]
            rfl

theorem many_eq_error_iff : g.many n = (.error e, g') ↔
    ∃ laws g₁, laws.length < n ∧ g.Gives laws g₁ ∧ g₁.one = (.error e, g') := by
  induction n generalizing g with
  | zero => simp [many_zero]
  | succ n ih =>
    cases h : g.one with
    | mk r g₁ =>
      cases r with
      | error d =>
        simp only [many_succ_of_error h, gives_iff_of_error h]
        constructor
        · rintro ⟨⟩
          exact ⟨[], g, n.succ_pos, ⟨rfl, rfl⟩, h⟩
        · rintro ⟨laws, g₂, -, ⟨rfl, rfl⟩, he⟩
          cases h.symm.trans he
          rfl
      | ok law =>
        have hmany : g.many (n + 1) = (.error e, g') ↔ g₁.many n = (.error e, g') := by
          rw [many_succ_of_ok h]
          cases g₁.many n with
          | mk r g₂ => cases r <;> simp [Except.map]
        simp only [hmany, ih, gives_cons_iff h]
        constructor
        · rintro ⟨rest, g₂, hlen, hrest, he⟩
          exact ⟨law :: rest, g₂, Nat.succ_lt_succ hlen, .inr ⟨rest, rfl, hrest⟩, he⟩
        · rintro ⟨laws, g₂, hlen, ⟨rfl, rfl⟩ | ⟨rest, rfl, hrest⟩, he⟩
          · cases h.symm.trans he
          · exact ⟨rest, g₂, Nat.lt_of_succ_lt_succ hlen, hrest, he⟩

/-- A batch can be cut at any place.  It gives the laws of successive calls, or ends with the first
error of one; either way the source is left as by these calls, with the same draws where it keeps a
record.  After each call, also one that fails, the generator is a new one over what is left. -/
theorem many_splits (g : Generator σ) :
    (∀ n m, g.many (n + m) = g.manyThen n m) ∧
      (∀ n laws g', g.many n = (.ok laws, g') ↔ laws.length = n ∧ g.Gives laws g') ∧
      (∀ n e g', g.many n = (.error e, g') ↔
        ∃ laws g₁, laws.length < n ∧ g.Gives laws g₁ ∧ g₁.one = (.error e, g')) ∧
      (∀ n, (g.many n).2 = ⟨g.lexicon, g.passes, (g.many n).2.source⟩) ∧
      g.one.2 = ⟨g.lexicon, g.passes, g.one.2.source⟩ ∧
      ∀ text, (g.expand text).2 = ⟨g.lexicon, g.passes, (g.expand text).2.source⟩ :=
  ⟨g.many_add, fun _ _ _ => many_eq_ok_iff, fun _ _ _ => many_eq_error_iff,
    fun n => eq_of_perform (g := g) (p := g.lexicon.laws g.passes n) rfl,
    eq_of_perform (g := g) (p := g.lexicon.law g.passes) rfl,
    fun text => eq_of_perform (g := g) (p := g.lexicon.expand g.passes text) rfl⟩

end Generator

end BillGrammar
