import BillGrammar.Proofs.Sampler.Failure
import BillGrammar.Source.Logged

namespace BillGrammar

namespace Logged

variable {σ : Type} [RandomSource σ]

theorem draws_choose (x : Logged σ) (pos : 0 < n) :
    (RandomSource.choose n pos x).2.draws =
      x.draws ++ [.choice n (RandomSource.choose n pos x).1] :=
  List.reverse_cons

theorem draws_unit (x : Logged σ) :
    (RandomSource.unit x).2.draws = x.draws ++ [.unit (RandomSource.unit x).1] :=
  List.reverse_cons

end Logged

namespace Sampler

/-- `p.Draws ds a`: the draws `ds` are made one after the other, and their answers lead to `a`. -/
inductive Draws {α : Type} : Sampler α → List Draw → α → Prop
  | done : Draws (.done a) [] a
  | choose {next : Fin n → Sampler α} : Draws (next i) ds a →
      Draws (.choose n pos next) (.choice n i :: ds) a
  | unit {next : Binary64 → Sampler α} : Draws (next u) ds a →
      Draws (.unit next) (.unit u :: ds) a

theorem exists_draws_run [RandomSource σ] (p : Sampler α) (x : Logged σ) :
    ∃ ds, (p.run x).2.draws = x.draws ++ ds ∧ p.Draws ds (p.run x).1 := by
  induction p generalizing x with
  | done a => exact ⟨[], (List.append_nil _).symm, .done⟩
  | choose n pos next ih =>
    obtain ⟨ds, hlog, hds⟩ := ih _ (RandomSource.choose n pos x).2
    rw [x.draws_choose pos, List.append_assoc] at hlog
    exact ⟨_, hlog, .choose hds⟩
  | unit next ih =>
    obtain ⟨ds, hlog, hds⟩ := ih _ (RandomSource.unit x).2
    rw [x.draws_unit, List.append_assoc] at hlog
    exact ⟨_, hlog, .unit hds⟩

theorem draws_done : (done a).Draws ds b ↔ ds = [] ∧ b = a := by
  constructor
  · intro h
    cases h
    exact ⟨rfl, rfl⟩
  · rintro ⟨rfl, rfl⟩
    exact .done

theorem draws_choose :
    (choose n pos next).Draws ds a ↔ ∃ i es, ds = .choice n i :: es ∧ (next i).Draws es a := by
  constructor
  · intro h
    cases h with
    | choose h => exact ⟨_, _, rfl, h⟩
  · rintro ⟨i, es, rfl, h⟩
    exact .choose h

theorem draws_unit :
    (unit next).Draws ds a ↔ ∃ u es, ds = .unit u :: es ∧ (next u).Draws es a := by
  constructor
  · intro h
    cases h with
    | unit h => exact ⟨_, _, rfl, h⟩
  · rintro ⟨u, es, rfl, h⟩
    exact .unit h

theorem draws_pure : (pure a : Sampler α).Draws ds b ↔ ds = [] ∧ b = a := draws_done

theorem draws_bind {p : Sampler α} {f : α → Sampler β} :
    (p >>= f).Draws ds b ↔
      ∃ before a after, ds = before ++ after ∧ p.Draws before a ∧ (f a).Draws after b := by
  change (p.bind f).Draws ds b ↔ _
  induction p generalizing ds with
  | done a =>
    simp only [bind, draws_done]
    constructor
    · exact fun h => ⟨[], a, ds, rfl, ⟨rfl, rfl⟩, h⟩
    · rintro ⟨before, c, after, rfl, ⟨rfl, rfl⟩, h⟩
      exact h
  | choose n pos next ih =>
    simp only [bind, draws_choose, ih]
    constructor
    · rintro ⟨i, es, rfl, before, a, after, rfl, h, hb⟩
      exact ⟨_, a, after, rfl, ⟨i, before, rfl, h⟩, hb⟩
    · rintro ⟨-, a, after, rfl, ⟨i, before, rfl, h⟩, hb⟩
      exact ⟨i, before ++ after, rfl, before, a, after, rfl, h, hb⟩
  | unit next ih =>
    simp only [bind, draws_unit, ih]
    constructor
    · rintro ⟨u, es, rfl, before, a, after, rfl, h, hb⟩
      exact ⟨_, a, after, rfl, ⟨u, before, rfl, h⟩, hb⟩
    · rintro ⟨-, a, after, rfl, ⟨u, before, rfl, h⟩, hb⟩
      exact ⟨u, before ++ after, rfl, before, a, after, rfl, h, hb⟩

theorem draws_map {p : Sampler α} {f : α → β} :
    (f <$> p).Draws ds b ↔ ∃ a, p.Draws ds a ∧ b = f a := by
  rw [map_eq_pure_bind, draws_bind]
  constructor
  · rintro ⟨before, a, after, rfl, h, hb⟩
    obtain ⟨rfl, rfl⟩ := draws_pure.mp hb
    exact ⟨a, by rwa [List.append_nil], rfl⟩
  · rintro ⟨a, h, rfl⟩
    exact ⟨ds, a, [], (List.append_nil ds).symm, h, draws_pure.mpr ⟨rfl, rfl⟩⟩

theorem draws_fraction : fraction.Draws ds u ↔ ds = [.unit u] := by
  simp only [fraction, draws_unit, draws_done]
  constructor
  · rintro ⟨-, -, rfl, rfl, rfl⟩
    rfl
  · rintro rfl
    exact ⟨u, [], rfl, rfl, rfl⟩

theorem draws_index : (index n pos).Draws ds i ↔ ds = [.choice n i] := by
  simp only [index, draws_choose, draws_done]
  constructor
  · rintro ⟨-, -, rfl, rfl, rfl⟩
    rfl
  · rintro rfl
    exact ⟨i, [], rfl, rfl, rfl⟩

theorem draws_pick {xs : List α} {ne : xs ≠ []} :
    (pick xs ne).Draws ds a ↔ ∃ i, ds = [.choice xs.length i] ∧ a = xs.get i := by
  change ((fun i => xs.get i) <$> index xs.length _).Draws ds a ↔ _
  simp only [draws_map, draws_index]

/-! Draws of computations that can fail. -/

variable {p : ExceptT ε Sampler α}

theorem draws_run_pure : (pure a : ExceptT ε Sampler α).run.Draws ds r ↔ ds = [] ∧ r = .ok a :=
  draws_pure

theorem draws_run_throw :
    (throw e : ExceptT ε Sampler α).run.Draws ds r ↔ ds = [] ∧ r = .error e :=
  draws_pure

theorem draws_run_bind {f : α → ExceptT ε Sampler β} :
    (p >>= f).run.Draws ds r ↔
      (∃ before a after, ds = before ++ after ∧ p.run.Draws before (.ok a) ∧
        (f a).run.Draws after r) ∨
      ∃ e, p.run.Draws ds (.error e) ∧ r = .error e := by
  simp only [ExceptT.run_bind, draws_bind]
  constructor
  · rintro ⟨before, a | a, after, rfl, h, hr⟩
    · obtain ⟨rfl, rfl⟩ := draws_pure.mp hr
      exact .inr ⟨a, by rwa [List.append_nil], rfl⟩
    · exact .inl ⟨before, a, after, rfl, h, hr⟩
  · rintro (⟨before, a, after, rfl, h, hr⟩ | ⟨e, h, rfl⟩)
    · exact ⟨before, .ok a, after, rfl, h, hr⟩
    · exact ⟨ds, .error e, [], (List.append_nil ds).symm, h, draws_pure.mpr ⟨rfl, rfl⟩⟩

theorem draws_run_map {f : α → β} :
    (f <$> p).run.Draws ds r ↔ ∃ q, p.run.Draws ds q ∧ r = q.map f := by
  rw [ExceptT.run_map, draws_map]

theorem draws_run_adapt {f : ε → δ} :
    (p.adapt f).run.Draws ds r ↔ ∃ q, p.run.Draws ds q ∧ r = q.mapError f :=
  draws_map

theorem draws_run_lift {q : Sampler α} :
    (liftM q : ExceptT ε Sampler α).run.Draws ds r ↔ ∃ a, q.Draws ds a ∧ r = .ok a :=
  draws_map

theorem draws_run_liftExcept_bind {x : Except ε α} {f : α → ExceptT ε Sampler β} :
    ((liftM x : ExceptT ε Sampler α) >>= f).run.Draws ds r ↔
      (∃ a, x = .ok a ∧ (f a).run.Draws ds r) ∨ ∃ e, x = .error e ∧ ds = [] ∧ r = .error e := by
  cases x with
  | ok a =>
    change (f a).run.Draws ds r ↔ _
    simp
  | error e =>
    change (pure (.error e) : Sampler (Except ε β)).Draws ds r ↔ _
    simp [draws_pure]

end Sampler

end BillGrammar
