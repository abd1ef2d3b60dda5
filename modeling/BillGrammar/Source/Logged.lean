import BillGrammar.Sampler

namespace BillGrammar

inductive Draw
  | choice (n : Nat) (got : Fin n)
  | unit (got : Binary64)
  deriving DecidableEq

/-- The record has the latest draw in front. -/
structure Logged (σ : Type) where
  source : σ
  log : List Draw := []

namespace Logged

instance [RandomSource σ] : RandomSource (Logged σ) where
  choose n pos s :=
    let (i, source) := RandomSource.choose n pos s.source
    (i, ⟨source, .choice n i :: s.log⟩)
  unit s :=
    let (u, source) := RandomSource.unit s.source
    (u, ⟨source, .unit u :: s.log⟩)

def draws (s : Logged σ) : List Draw := s.log.reverse

end Logged

end BillGrammar
