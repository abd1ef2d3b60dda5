namespace BillGrammar.Ron

/-- Parentheses hold a record if a name and a colon come first, else a tuple; both may have a type
name in front.  Empty ones are a tuple too, but for `()` itself, the unit.  A number is kept as it is
written, and a name with whether it was written raw. -/
inductive Value
  | unit
  | bool (b : Bool)
  | number (text : List Char)
  | char (c : Char)
  | string (s : String)
  | option (v : Option Value)
  | list (vs : List Value)
  | map (entries : List (Value × Value))
  | tuple (typeName : Option String) (vs : List Value)
  | record (typeName : Option String) (fields : List (String × Value))
  | name (raw : Bool) (s : String)

mutual

/-- How many levels a value takes: one for each bracket, each item in one, and each option that
holds something, counted along the deepest way in. -/
def Value.depth : Value → Nat
  | .option (some v) => v.depth + 1
  | .list vs | .tuple _ vs => depthOfItems vs + 1
  | .map entries => depthOfEntries entries + 1
  | .record _ fields => depthOfFields fields + 1
  | _ => 0

def depthOfItems : List Value → Nat
  | [] => 0
  | v :: vs => max (v.depth + 1) (depthOfItems vs)

def depthOfEntries : List (Value × Value) → Nat
  | [] => 0
  | (k, v) :: entries => max (max k.depth v.depth + 1) (depthOfEntries entries)

def depthOfFields : List (String × Value) → Nat
  | [] => 0
  | (_, v) :: fields => max (v.depth + 1) (depthOfFields fields)

end

inductive Extension
  | implicitSome
  | unwrapNewtypes
  | unwrapVariantNewtypes
  deriving DecidableEq

def Extension.ofName? : String → Option Extension
  | "implicit_some" => some .implicitSome
  | "unwrap_newtypes" => some .unwrapNewtypes
  | "unwrap_variant_newtypes" => some .unwrapVariantNewtypes
  | _ => none

structure Document where
  extensions : List Extension
  value : Value

end BillGrammar.Ron
