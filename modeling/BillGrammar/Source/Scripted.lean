import BillGrammar.Sampler

namespace BillGrammar

/-- Choices are reduced to the range asked for, fractions are given out as they are.  The counters
say how many of each were given. -/
structure ScriptedSource where
  choices : List Nat
  units : List Binary64
  chosen : Nat := 0
  drawn : Nat := 0

namespace ScriptedSource

def cyclic (xs : List α) (i : Nat) (default : α) : α := xs.getD (i % xs.length) default

instance : RandomSource ScriptedSource where
  choose n pos s :=
    (⟨cyclic s.choices s.chosen 0 % n, Nat.mod_lt _ pos⟩, { s with chosen := s.chosen + 1 })
  unit s := (cyclic s.units s.drawn 0, { s with drawn := s.drawn + 1 })

end ScriptedSource

end BillGrammar
