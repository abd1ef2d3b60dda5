import BillGrammar.Binary64.Decimal
import BillGrammar.Lexicon.Table

namespace BillGrammar

inductive Bound
  | min
  | max
  deriving DecidableEq

def Bound.name : Bound → String
  | .min => "min"
  | .max => "max"

def maxPrecision : Nat := 20

inductive NumberFault
  | missing (bound : Bound)
  | notANumber (bound : Bound) (raw : String)
  | inverted (min max : Binary64)
  | precision (raw : String)
  deriving DecidableEq

def NumberFault.message : NumberFault → String
  | .missing b => s!"missing {b.name}"
  | .notANumber b raw => s!"{b.name} '{raw}' is not a number"
  | .inverted min max => s!"min {min.render} is greater than max {max.render}"
  | .precision raw => s!"precision '{raw}' is not in 0..={maxPrecision}"

inductive PlaceholderError
  | unrecognizedCategory (name : String)
  | emptyTable (table : Table)
  | malformedNumber (token : String) (fault : NumberFault)
  deriving DecidableEq

def PlaceholderError.message : PlaceholderError → String
  | .unrecognizedCategory name => s!"unrecognized placeholder category '{name}'"
  | .emptyTable t => s!"lexicon table '{t.name}' is empty"
  | .malformedNumber token fault =>
    s!"malformed number placeholder '{token}': {fault.message}"

end BillGrammar
