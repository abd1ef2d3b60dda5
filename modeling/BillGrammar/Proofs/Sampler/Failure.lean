import BillGrammar.Proofs.Sampler.Yields

namespace BillGrammar

instance decidableEqExcept [DecidableEq ε] [DecidableEq α] : DecidableEq (Except ε α)
  | .ok a, .ok b => decidable_of_iff (a = b) (by simp)
  | .error d, .error e => decidable_of_iff (d = e) (by simp)
  | .ok _, .error _ | .error _, .ok _ => .isFalse nofun

theorem mapError_eq_ok {x : Except ε α} {f : ε → δ} : x.mapError f = .ok a ↔ x = .ok a := by
  cases x with
  | ok b =>
    constructor
    · rintro ⟨⟩
      rfl
    · rintro ⟨⟩
      rfl
  | error e => constructor <;> exact nofun

namespace Sampler

variable {U : Binary64 → Prop} {p : ExceptT ε Sampler α}

theorem yields_run_bind {f : α → ExceptT ε Sampler β} :
    (p >>= f).run.Yields U r ↔
      (∃ a, p.run.Yields U (.ok a) ∧ (f a).run.Yields U r) ∨
        ∃ e, p.run.Yields U (.error e) ∧ r = .error e := by
  simp only [ExceptT.run_bind, yields_bind]
  constructor
  · rintro ⟨a | a, h, hr⟩
    · exact .inr ⟨a, h, yields_pure.mp hr⟩
    · exact .inl ⟨a, h, hr⟩
  · rintro (⟨a, h, hr⟩ | ⟨e, h, rfl⟩)
    · exact ⟨.ok a, h, hr⟩
    · exact ⟨.error e, h, yields_pure.mpr rfl⟩

theorem yields_run_map_ok {f : α → β} :
    (f <$> p).run.Yields U (.ok b) ↔ ∃ a, p.run.Yields U (.ok a) ∧ b = f a := by
  rw [← bind_pure_comp, yields_run_bind]
  simp

theorem yields_run_map_error {f : α → β} :
    (f <$> p).run.Yields U (.error e) ↔ p.run.Yields U (.error e) := by
  rw [← bind_pure_comp, yields_run_bind]
  simp

theorem yields_run_adapt_ok {f : ε → δ} :
    (p.adapt f).run.Yields U (.ok a) ↔ p.run.Yields U (.ok a) := by
  change (Except.mapError f <$> p.run).Yields U (.ok a) ↔ _
  rw [yields_map]
  constructor
  · rintro ⟨r | r, h, hr⟩ <;> cases hr
    exact h
  · exact fun h => ⟨_, h, rfl⟩

theorem yields_run_adapt_error {f : ε → δ} :
    (p.adapt f).run.Yields U (.error d) ↔ ∃ e, p.run.Yields U (.error e) ∧ d = f e := by
  change (Except.mapError f <$> p.run).Yields U (.error d) ↔ _
  rw [yields_map]
  constructor
  · rintro ⟨r | r, h, hr⟩ <;> cases hr
    exact ⟨r, h, rfl⟩
  · rintro ⟨e, h, rfl⟩
    exact ⟨_, h, rfl⟩

theorem yields_run_lift {q : Sampler α} :
    (liftM q : ExceptT ε Sampler α).run.Yields U r ↔ ∃ a, q.Yields U a ∧ r = .ok a :=
  yields_map

theorem yields_run_liftExcept {x : Except ε α} :
    (liftM x : ExceptT ε Sampler α).run.Yields U r ↔ r = x :=
  yields_pure

theorem bind_congr_of_yields_ok {f g : α → ExceptT ε Sampler β}
    (h : ∀ a, p.run.Yields (fun _ => True) (.ok a) → f a = g a) : p >>= f = p >>= g := by
  apply ExceptT.ext
  simp only [ExceptT.run_bind]
  refine bind_congr_of_yields fun r hr => ?_
  cases r with
  | error e => rfl
  | ok a => simp only [h a hr]

theorem yields_run_mapM_error {f : α → ExceptT ε Sampler β} {xs : List α}
    (h : (xs.mapM f).run.Yields U (.error e)) : ∃ x ∈ xs, (f x).run.Yields U (.error e) := by
  induction xs with
  | nil => simp at h
  | cons x xs ih =>
    simp only [List.mapM_cons, yields_run_bind] at h
    rcases h with ⟨a, -, ⟨as, -, h⟩ | ⟨d, h, hd⟩⟩ | ⟨d, h, hd⟩
    · simp at h
    · cases hd
      obtain ⟨y, hy, h⟩ := ih h
      exact ⟨y, List.mem_cons_of_mem x hy, h⟩
    · cases hd
      exact ⟨x, List.mem_cons_self, h⟩

theorem length_of_yields_mapM {f : α → ExceptT ε Sampler β} {xs : List α} {ys : List β}
    (h : (xs.mapM f).run.Yields U (.ok ys)) : ys.length = xs.length := by
  induction xs generalizing ys with
  | nil =>
    cases yields_pure.mp h
    rfl
  | cons x xs ih =>
    simp only [List.mapM_cons, yields_run_bind] at h
    rcases h with ⟨y, -, ⟨zs, h, hr⟩ | ⟨e, -, ⟨⟩⟩⟩ | ⟨e, -, ⟨⟩⟩
    cases yields_pure.mp hr
    simp only [List.length_cons, ih h]

theorem exists_of_mem_of_yields_mapM {f : α → ExceptT ε Sampler β} {xs : List α} {ys : List β}
    (h : (xs.mapM f).run.Yields U (.ok ys)) (hy : y ∈ ys) :
    ∃ x ∈ xs, (f x).run.Yields U (.ok y) := by
  induction xs generalizing ys with
  | nil =>
    cases yields_pure.mp h
    simp at hy
  | cons x xs ih =>
    simp only [List.mapM_cons, yields_run_bind] at h
    rcases h with ⟨z, hz, ⟨zs, h, hr⟩ | ⟨e, -, ⟨⟩⟩⟩ | ⟨e, -, ⟨⟩⟩
    cases yields_pure.mp hr
    rcases List.mem_cons.mp hy with rfl | hy
    · exact ⟨x, List.mem_cons_self, hz⟩
    · obtain ⟨x', hx', h⟩ := ih h hy
      exact ⟨x', List.mem_cons_of_mem x hx', h⟩

theorem adapt_lift (q : Sampler α) (f : ε → δ) :
    (liftM q : ExceptT ε Sampler α).adapt f = liftM q := by
  apply ExceptT.ext
  change Except.mapError f <$> Except.ok <$> q = Except.ok <$> q
  rw [Functor.map_map]
  rfl

theorem adapt_map (f : ε → δ) (g : α → β) : (g <$> p).adapt f = g <$> p.adapt f := by
  apply ExceptT.ext
  have hp : (p.adapt f).run = Except.mapError f <$> p.run := rfl
  change Except.mapError f <$> (g <$> p).run = _
  rw [ExceptT.run_map, ExceptT.run_map, hp, Functor.map_map, Functor.map_map]
  congr 1
  funext r
  cases r <;> rfl

theorem ok_bind (a : α) (f : α → ExceptT ε Sampler β) :
    (liftM (Except.ok a : Except ε α) : ExceptT ε Sampler α) >>= f = f a := rfl

/-! A run goes on from a result and stops at an error. -/

section Run

variable {σ : Type} [RandomSource σ] {s s' : σ} {f : α → ExceptT ε Sampler β}

theorem run_bind_of_ok (h : p.run.run s = (.ok a, s')) :
    (p >>= f).run.run s = (f a).run.run s' := by
  change (p.run.bind _).run s = _
  rw [run_bind, h]
  rfl

theorem run_bind_of_error (h : p.run.run s = (.error e, s')) :
    (p >>= f).run.run s = (.error e, s') := by
  change (p.run.bind _).run s = _
  rw [run_bind, h]
  rfl

theorem run_lift (q : Sampler α) (s : σ) :
    (liftM q : ExceptT ε Sampler α).run.run s = (.ok (q.run s).1, (q.run s).2) := by
  change (Except.ok <$> q).run s = _
  rw [map_eq_pure_bind]
  exact run_bind q _ s

theorem run_adapt (f : ε → δ) (s : σ) :
    (p.adapt f).run.run s = ((p.run.run s).1.mapError f, (p.run.run s).2) := by
  change (Except.mapError f <$> p.run).run s = _
  rw [map_eq_pure_bind]
  exact run_bind p.run _ s

end Run

end Sampler

end BillGrammar
