import BillGrammar.Ron.Lexeme
import BillGrammar.Ron.Value

/-!
Reading a document: nested values with commas between them, of which the last may have one too.
Readers that repeat something take as `room` a bound on how often, the length of the whole text.
-/

namespace BillGrammar.Ron

def items (item : Reader α) (close : Char) : (room : Nat) → Reader (List α)
  | 0 => failure
  | room + 1 => do
    gap
    if ← accept close then return []
    let a ← item
    gap
    if ← accept ',' then
      let as ← items item close room
      return a :: as
    else
      expect close
      return [a]

def pair (key : Reader α) (value : Reader β) : Reader (α × β) := do
  let k ← key
  gap
  expect ':'
  gap
  return (k, ← value)

def atField : Reader Bool := fun cs =>
  match name cs with
  | none => some (false, cs)
  | some (_, rest) => (skipGap .plain rest).map fun rest => (rest.head? == some ':', cs)

def group (room : Nat) (value : Reader Value) (typeName : Option String) : Reader Value := do
  gap
  if ← atField then
    return .record typeName (← items (pair (Prod.snd <$> name) value) ')' room)
  else return .tuple typeName (← items value ')' room)

/-- What follows `Some`: one value in parentheses or, if options may be implicit, without any. -/
def present (implicit : Bool) (value : Reader Value) : Reader Value := do
  gap
  if ← accept '(' then
    gap
    let v ← value
    gap
    if ← accept ',' then gap
    expect ')'
    return .option (some v)
  else
    guard implicit
    return .option (some (← value))

structure Parts where
  held : Reader Value
  item : Reader Value

def nest (parts : Option Parts) (read : Parts → Reader Value) : Reader Value :=
  parts.elim failure read

def named (room : Nat) (implicit : Bool) (parts : Option Parts) : Reader Value := do
  match ← name with
  | (false, "true") => return .bool true
  | (false, "false") => return .bool false
  | (false, "None") => return .option none
  | (false, "Some") => nest parts (present implicit ·.held)
  | (false, "inf") => return .number "inf".toList
  | (false, "NaN") => return .number "NaN".toList
  | (raw, s) =>
    gap
    if ← accept '(' then nest parts (group room ·.item (some s)) else return .name raw s

def valueWith (room : Nat) (implicit : Bool) (parts : Option Parts) : Reader Value := fun
  | '(' :: ')' :: cs => some (.unit, cs)
  | '(' :: cs => nest parts (group room ·.item none) cs
  | '[' :: cs => nest parts (fun p => .list <$> items p.item ']' room) cs
  | '{' :: cs => nest parts (fun p => .map <$> items (pair p.item p.item) '}' room) cs
  | '\'' :: cs => (.char <$> char) ('\'' :: cs)
  | c :: cs =>
    if c.isDigit || c == '+' || c == '-' || c == '.' then (Value.number <$> number) (c :: cs)
    else (named room implicit parts <|> Value.string <$> string room) (c :: cs)
  | [] => none

/-- A value of no more than so many levels: an item is two levels below the value whose brackets it
is in, and what an option holds is one below. -/
def valueTo (room : Nat) (implicit : Bool) : (depth : Nat) → Reader Value
  | 0 => valueWith room implicit none
  | 1 => valueWith room implicit (some ⟨valueTo room implicit 0, failure⟩)
  | depth + 2 =>
    valueWith room implicit (some ⟨valueTo room implicit (depth + 1), valueTo room implicit depth⟩)

def maxDepth : Nat := 128

def expectAll : List Char → Reader Unit
  | [] => pure ()
  | c :: cs => do
    expect c
    expectAll cs

def attributes : (room : Nat) → Reader (List Extension)
  | 0 => failure
  | room + 1 => do
    gap
    unless ← accept '#' do return []
    gap
    expect '!'
    gap
    expect '['
    gap
    expectAll ['e', 'n', 'a', 'b', 'l', 'e']
    gap
    expect '('
    let names ← items (Prod.snd <$> name) ')' room
    guard (names ≠ [])
    gap
    expect ']'
    let extensions ← liftM (names.mapM Extension.ofName?)
    return extensions ++ (← attributes room)

def Document.read? (text : String) : Option Document := do
  let cs := text.toList
  let room := cs.length + 1
  let (extensions, cs) ← attributes room cs
  let (v, cs) ← valueTo room (extensions.contains .implicitSome) maxDepth cs
  let rest ← skipGap .plain cs
  guard rest.isEmpty
  return ⟨extensions, v⟩

end BillGrammar.Ron
