import BillGrammar.Sampler

/-!
The results that a random computation can have.  Every source leads to one of them, and each of
them is brought about by some source.
-/

namespace BillGrammar

variable {U : Binary64 → Prop}

/-- `p.Yields U a`: some answers to the draws lead to `a`, with fractions that satisfy `U`. -/
inductive Sampler.Yields {α : Type} (U : Binary64 → Prop) : Sampler α → α → Prop
  | done : Yields U (.done a) a
  | choose {next : Fin n → Sampler α} : Yields U (next i) a → Yields U (.choose n pos next) a
  | unit {next : Binary64 → Sampler α} : U u → Yields U (next u) a → Yields U (.unit next) a

def RandomSource.UnitsIn (U : Binary64 → Prop) (σ : Type) [RandomSource σ] : Prop :=
  ∀ s : σ, U (RandomSource.unit s).1

namespace Sampler

theorem yields_done : (done a).Yields U b ↔ b = a := by
  constructor
  · intro h
    cases h
    rfl
  · rintro rfl
    exact .done

theorem yields_choose : (choose n pos next).Yields U a ↔ ∃ i, (next i).Yields U a := by
  constructor
  · intro h
    cases h with
    | choose h => exact ⟨_, h⟩
  · rintro ⟨i, h⟩
    exact .choose h

theorem yields_unit : (unit next).Yields U a ↔ ∃ u, U u ∧ (next u).Yields U a := by
  constructor
  · intro h
    cases h with
    | unit hu h => exact ⟨_, hu, h⟩
  · rintro ⟨u, hu, h⟩
    exact .unit hu h

@[simp] theorem yields_pure : (pure a : Sampler α).Yields U b ↔ b = a := yields_done

@[simp] theorem yields_bind {p : Sampler α} {f : α → Sampler β} :
    (p >>= f).Yields U b ↔ ∃ a, p.Yields U a ∧ (f a).Yields U b := by
  change (p.bind f).Yields U b ↔ _
  induction p with
  | done a => simp [bind, yields_done]
  | choose n pos next ih =>
    simp only [bind, yields_choose, ih]
    constructor
    · rintro ⟨i, a, h, hb⟩
      exact ⟨a, ⟨i, h⟩, hb⟩
    · rintro ⟨a, ⟨i, h⟩, hb⟩
      exact ⟨i, a, h, hb⟩
  | unit next ih =>
    simp only [bind, yields_unit, ih]
    constructor
    · rintro ⟨u, hu, a, h, hb⟩
      exact ⟨a, ⟨u, hu, h⟩, hb⟩
    · rintro ⟨a, ⟨u, hu, h⟩, hb⟩
      exact ⟨u, hu, a, h, hb⟩

@[simp] theorem yields_map {p : Sampler α} {f : α → β} :
    (f <$> p).Yields U b ↔ ∃ a, p.Yields U a ∧ b = f a := by
  simp only [map_eq_pure_bind, yields_bind, yields_pure]

@[simp] theorem yields_fraction : fraction.Yields U u ↔ U u := by
  simp [fraction, yields_unit, yields_done]

@[simp] theorem yields_pick {xs : List α} {ne : xs ≠ []} : (pick xs ne).Yields U a ↔ a ∈ xs := by
  simp only [pick, index, yields_bind, yields_choose, yields_done, yields_pure]
  constructor
  · rintro ⟨i, -, rfl⟩
    exact List.getElem_mem i.isLt
  · intro h
    obtain ⟨i, hi, rfl⟩ := List.getElem_of_mem h
    exact ⟨⟨i, hi⟩, ⟨_, rfl⟩, rfl⟩

theorem bind_congr_of_yields {p : Sampler α} {f g : α → Sampler β}
    (h : ∀ a, p.Yields (fun _ => True) a → f a = g a) : p >>= f = p >>= g := by
  change p.bind f = p.bind g
  induction p with
  | done a => exact h a .done
  | choose n pos next ih =>
    simp only [bind]
    congr 1
    funext i
    exact ih i fun a ha => h a (.choose ha)
  | unit next ih =>
    simp only [bind]
    congr 1
    funext u
    exact ih u fun a ha => h a (.unit trivial ha)

theorem yields_run [RandomSource σ] (hU : RandomSource.UnitsIn U σ) (p : Sampler α) (s : σ) :
    p.Yields U (p.run s).1 := by
  induction p generalizing s with
  | done a => exact .done
  | choose n pos next ih => exact .choose (ih _ _)
  | unit next ih => exact .unit (hU s) (ih _ _)

/-- A source of answers written down in advance: first indices and `fallback` follow the last. -/
structure Answers (U : Binary64 → Prop) where
  indices : List Nat
  fractions : List { u // U u }
  fallback : { u // U u }

namespace Answers

instance : RandomSource (Answers U) where
  choose n pos s :=
    (⟨s.indices.headD 0 % n, Nat.mod_lt _ pos⟩, { s with indices := s.indices.tail })
  unit s := ((s.fractions.headD s.fallback).val, { s with fractions := s.fractions.tail })

theorem unitsIn : RandomSource.UnitsIn U (Answers U) :=
  fun s => (s.fractions.headD s.fallback).property

end Answers

theorem Yields.exists_run (u : { u // U u }) {p : Sampler α} (h : p.Yields U a) :
    ∃ s : Answers U, (p.run s).1 = a := by
  induction h with
  | done => exact ⟨⟨[], [], u⟩, rfl⟩
  | @choose n i _ pos _ _ ih =>
    obtain ⟨s, hs⟩ := ih
    refine ⟨{ s with indices := i :: s.indices }, ?_⟩
    have hi : (RandomSource.choose n pos { s with indices := i :: s.indices }).1 = i :=
      Fin.ext (Nat.mod_eq_of_lt i.isLt)
    simp only [run, hi]
    exact hs
  | @unit v _ _ hv _ ih =>
    obtain ⟨s, hs⟩ := ih
    exact ⟨{ s with fractions := ⟨v, hv⟩ :: s.fractions }, hs⟩

/-- The possible results are those of the sources whose fractions satisfy `U`. -/
theorem exists_run_eq_iff (u : { u // U u }) {p : Sampler α} :
    (∃ (σ : Type) (_ : RandomSource σ) (s : σ), RandomSource.UnitsIn U σ ∧ (p.run s).1 = a) ↔
      p.Yields U a := by
  constructor
  · rintro ⟨σ, _, s, hU, rfl⟩
    exact yields_run hU p s
  · intro h
    obtain ⟨s, hs⟩ := h.exists_run u
    exact ⟨_, _, s, Answers.unitsIn, hs⟩

end Sampler

end BillGrammar
