import BillGrammar.Ron.Reader

namespace BillGrammar.Ron

abbrev Decoder (α : Type) := Value → Option α

def Decoder.string : Decoder String
  | .string s => some s
  | _ => none

def Decoder.word64 : Decoder Nat
  | .number text => unsigned? text
  | _ => none

def Decoder.list (item : Decoder α) : Decoder (List α)
  | .list vs => vs.mapM item
  | _ => none

/-- A name that starts with `Some` is the number behind it: where an option is asked for, the word
needs no end. -/
def Value.afterSome : Value → Value
  | .name false s =>
    match s.toList with
    | 'S' :: 'o' :: 'm' :: 'e' :: text => .number text
    | _ => .name false s
  | v => v

/-- How many levels there are for the value of a field in the outermost record, which takes one and
has the field one below. -/
def maxFieldDepth : Nat := maxDepth - 2

/-- An option in a field of the outermost record.  With implicit options a value that is no option
stands for itself, one level below the option that it is taken for. -/
def Decoder.option (implicit : Bool) (item : Decoder α) : Decoder (Option α)
  | .option none => some none
  | .option (some v) => some <$> item v
  | v => do
    guard (implicit ∧ v.depth < maxFieldDepth)
    some <$> item v.afterSome

def Value.fields? (typeName : String) : Value → Option (List (String × Value))
  | .unit => some []
  | .record n fs => if n.all (· == typeName) then some fs else none
  | .tuple n [] => if n.all (· == typeName) then some [] else none
  | _ => none

/-- A field by its name, if it is there.  It must not be there twice; fields that are never asked
for do not count. -/
def optionalField (fields : List (String × Value)) (name : String) (item : Decoder α) :
    Option (Option α) :=
  match fields.filter (·.1 == name) with
  | [] => some none
  | [(_, v)] => some <$> item v
  | _ => none

def requiredField (fields : List (String × Value)) (name : String) (item : Decoder α) :
    Option α := do
  let v ← optionalField fields name item
  v

end BillGrammar.Ron
