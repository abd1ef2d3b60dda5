import BillGrammar.Proofs.Sampler.Failure
import BillGrammar.Source.Fixed

namespace BillGrammar

open Sampler

namespace FixedSource

variable {s : FixedSource}

theorem run_snd (p : Sampler α) (s : FixedSource) : (p.run s).2 = s := by
  induction p with
  | done a => rfl
  | choose n pos next ih => exact ih _
  | unit next ih => exact ih _

def result (s : FixedSource) (p : ExceptT ε Sampler α) : Except ε α := (p.run.run s).1

theorem run_eq_result (p : ExceptT ε Sampler α) : p.run.run s = (s.result p, s) :=
  Prod.ext rfl (run_snd p.run s)

@[simp] theorem result_pure (a : α) : s.result (pure a : ExceptT ε Sampler α) = .ok a := rfl

@[simp] theorem result_throw (e : ε) : s.result (throw e : ExceptT ε Sampler α) = .error e := rfl

theorem result_bind (p : ExceptT ε Sampler α) (f : α → ExceptT ε Sampler β) :
    s.result (p >>= f) = (s.result p).bind fun a => s.result (f a) := by
  have hp := run_eq_result (s := s) p
  cases h : s.result p with
  | error e =>
    rw [h] at hp
    rw [result, run_bind_of_error hp]
    rfl
  | ok a =>
    rw [h] at hp
    rw [result, run_bind_of_ok hp]
    rfl

theorem result_bind_eq_ok {p : ExceptT ε Sampler α} {f : α → ExceptT ε Sampler β} :
    s.result (p >>= f) = .ok b ↔ ∃ a, s.result p = .ok a ∧ s.result (f a) = .ok b := by
  rw [result_bind]
  cases s.result p <;> simp [Except.bind]

theorem result_map_eq_ok {p : ExceptT ε Sampler α} {f : α → β} :
    s.result (f <$> p) = .ok b ↔ ∃ a, s.result p = .ok a ∧ b = f a := by
  rw [← bind_pure_comp, result_bind_eq_ok]
  simp [eq_comm]

theorem result_adapt_eq_ok {p : ExceptT ε Sampler α} {f : ε → δ} :
    s.result (p.adapt f) = .ok a ↔ s.result p = .ok a := by
  have h : s.result (p.adapt f) = (s.result p).mapError f := by
    change ((p.run.bind _).run s).1 = _
    rw [run_bind]
    rfl
  rw [h, mapError_eq_ok]

theorem getElem?_place_toList (x : Option α) : x.toList[s.place x.toList.length]? = x := by
  cases x with
  | none => rfl
  | some a =>
    have h : s.place 1 = 0 := Nat.lt_one_iff.mp (s.place_lt Nat.one_pos)
    simp [h]

theorem yields_of_result (h : s.result p = r) : p.run.Yields (fun _ => True) r :=
  h ▸ yields_run (fun _ => trivial) p.run s

end FixedSource

end BillGrammar
