import BillGrammar.Binary64.Basic

/-!
Random computations as trees of draws.  A tree says which draws are asked for and what follows each
answer; a source of randomness answers them.
-/

namespace BillGrammar

inductive Sampler (α : Type) : Type
  | done (a : α)
  | choose (n : Nat) (pos : 0 < n) (next : Fin n → Sampler α)
  | unit (next : Binary64 → Sampler α)

namespace Sampler

def bind (p : Sampler α) (f : α → Sampler β) : Sampler β :=
  match p with
  | .done a => f a
  | .choose n pos next => .choose n pos fun i => (next i).bind f
  | .unit next => .unit fun u => (next u).bind f

instance : Monad Sampler where
  pure := .done
  bind := .bind

@[simp] theorem bind_done (p : Sampler α) : p.bind .done = p := by
  induction p with
  | done a => rfl
  | choose n pos next ih => simp only [bind, ih]
  | unit next ih => simp only [bind, ih]

theorem bind_assoc (p : Sampler α) (f : α → Sampler β) (g : β → Sampler γ) :
    (p.bind f).bind g = p.bind fun a => (f a).bind g := by
  induction p with
  | done a => rfl
  | choose n pos next ih => simp only [bind, ih]
  | unit next ih => simp only [bind, ih]

instance : LawfulMonad Sampler := LawfulMonad.mk' Sampler bind_done (fun _ _ => rfl) bind_assoc

def index (n : Nat) (pos : 0 < n) : Sampler (Fin n) := .choose n pos .done

def indexOrZero (n : Nat) : Sampler Nat :=
  if h : 0 < n then Fin.val <$> index n h else pure 0

def fraction : Sampler Binary64 := .unit .done

def pick (xs : List α) (ne : xs ≠ []) : Sampler α := do
  let i ← index xs.length (List.length_pos_iff.mpr ne)
  return xs[i]

end Sampler

class RandomSource (σ : Type) where
  choose (n : Nat) (pos : 0 < n) : σ → Fin n × σ
  unit : σ → Binary64 × σ

def Sampler.run [RandomSource σ] : Sampler α → σ → α × σ
  | .done a, s => (a, s)
  | .choose n pos next, s =>
    let (i, s) := RandomSource.choose n pos s
    (next i).run s
  | .unit next, s =>
    let (u, s) := RandomSource.unit s
    (next u).run s

@[simp] theorem Sampler.run_bind [RandomSource σ] (p : Sampler α) (f : α → Sampler β) (s : σ) :
    (p.bind f).run s = (f (p.run s).1).run (p.run s).2 := by
  induction p generalizing s with
  | done a => rfl
  | choose n pos next ih => simp only [bind, run, ih]
  | unit next ih => simp only [bind, run, ih]

end BillGrammar
