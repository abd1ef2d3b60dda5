import BillGrammar.Binary64.Arithmetic
import BillGrammar.Placeholder.Error
import BillGrammar.Sampler
import BillGrammar.Text.Blank

namespace BillGrammar

structure NumberRange where
  min : Binary64
  max : Binary64
  precision : Nat
  deriving DecidableEq

namespace NumberRange

def readBound (b : Bound) (raw : Option String) : Except NumberFault Binary64 :=
  match raw.map Text.trim with
  | none | some "" => .error (.missing b)
  | some s => match Binary64.read? s with
    | some x => .ok x
    | none => .error (.notANumber b s)

def readPrecision (raw : Option String) : Except NumberFault Nat :=
  match raw.map Text.trim with
  | none | some "" => .ok 0
  | some s => match (Text.word64? s).filter (· ≤ maxPrecision) with
    | some p => .ok p
    | none => .error (.precision s)

def ofParameters (ps : List String) : Except NumberFault NumberRange := do
  let min ← readBound .min ps[0]?
  let max ← readBound .max ps[1]?
  if max < min then throw (.inverted min max)
  return ⟨min, max, ← readPrecision ps[2]?⟩

def value (r : NumberRange) (u : Binary64) : Binary64 := r.min + u * (r.max - r.min)

/-- One step of the precision below `max`, or the number just below it where a step is finer than
the numbers there. -/
def below (r : NumberRange) : Binary64 :=
  let x := r.max - 1 / Binary64.powNat 10 r.precision
  if x < r.max then x else r.max.pred

def above (r : NumberRange) : Binary64 :=
  let scale := Binary64.powNat 10 r.precision
  (r.min * scale).ceil / scale

/-- The number written for `x`: rounding must not lead up to `max`, nor below `min` if there is a
step in the range. -/
def settle (r : NumberRange) (x : Binary64) : Binary64 :=
  if r.max ≤ r.min then x
  else
    let shown := x.snap r.precision
    if r.max ≤ shown then r.below.max r.min
    else if shown < r.min ∧ r.above < r.max then r.above
    else x

def render (r : NumberRange) (u : Binary64) : String :=
  (r.settle (r.value u)).renderPlaces r.precision

def sample (r : NumberRange) : Sampler String := r.render <$> Sampler.fraction

end NumberRange

end BillGrammar
