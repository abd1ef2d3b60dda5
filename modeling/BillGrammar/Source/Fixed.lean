import BillGrammar.Sampler

namespace BillGrammar

inductive Pick
  | first
  | last
  deriving DecidableEq

structure FixedSource where
  pick : Pick
  unit : Binary64
  deriving DecidableEq

namespace FixedSource

def half : Binary64 := .ofUnits false Binary64.one 2

/-- The largest fraction that is given out, one less `2 ^ -52`. -/
def greatest : Binary64 := .ofUnits false (Binary64.one - Nat.pow 2 1022) 1

def ofPick (pick : Pick) : FixedSource := ⟨pick, half⟩

def withUnit (s : FixedSource) (u : Binary64) : FixedSource :=
  { s with unit := if u < 0 then 0 else if greatest < u then greatest else u }

def place (s : FixedSource) (n : Nat) : Nat :=
  match s.pick with
  | .first => 0
  | .last => n - 1

theorem place_lt (s : FixedSource) (pos : 0 < n) : s.place n < n := by
  unfold place; split <;> omega

instance : RandomSource FixedSource where
  choose _ pos s := (⟨s.place _, s.place_lt pos⟩, s)
  unit s := (s.unit, s)

end FixedSource

end BillGrammar
