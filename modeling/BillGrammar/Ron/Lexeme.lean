import BillGrammar.Decimal

namespace BillGrammar.Ron

abbrev Reader := StateT (List Char) Option

def isBlank (c : Char) : Bool := c == ' ' || c == '\t' || c == '\n' || c == '\r'

inductive Gap
  | plain
  | lineComment
  | blockComment (depth : Nat)

def skipGap : Gap → List Char → Option (List Char)
  | .plain, '/' :: '/' :: cs => skipGap .lineComment cs
  | .plain, '/' :: '*' :: cs => skipGap (.blockComment 0) cs
  | .plain, '/' :: _ => none
  | .plain, c :: cs => if isBlank c then skipGap .plain cs else some (c :: cs)
  | .plain, [] => some []
  | .lineComment, c :: cs => skipGap (if c = '\n' then .plain else .lineComment) cs
  | .lineComment, [] => some []
  | .blockComment d, '/' :: '*' :: cs => skipGap (.blockComment (d + 1)) cs
  | .blockComment 0, '*' :: '/' :: cs => skipGap .plain cs
  | .blockComment (d + 1), '*' :: '/' :: cs => skipGap (.blockComment d) cs
  | .blockComment d, _ :: cs => skipGap (.blockComment d) cs
  | .blockComment _, [] => none

def gap : Reader Unit := fun cs => (skipGap .plain cs).map fun rest => ((), rest)

def accept (c : Char) : Reader Bool := fun
  | d :: cs => some (if c = d then (true, cs) else (false, d :: cs))
  | [] => some (false, [])

def expect (c : Char) : Reader Unit := do guard (← accept c)

def takeWhile (p : Char → Bool) : Reader (List Char) := fun cs =>
  some (cs.takeWhile p, cs.dropWhile p)

def isNameStart (c : Char) : Bool := c.isAlpha || c == '_'

def isNameChar (c : Char) : Bool := isNameStart c || c.isDigit

def isRawNameChar (c : Char) : Bool := isNameChar c || c == '.' || c == '+' || c == '-'

def name : Reader (Bool × String) := fun
  | 'r' :: '"' :: _ => none
  | 'r' :: '#' :: cs =>
    let raw := cs.takeWhile isRawNameChar
    if raw.isEmpty then none
    else some ((true, String.ofList raw), cs.dropWhile isRawNameChar)
  | c :: cs =>
    if isNameStart c then
      some ((false, String.ofList (c :: cs.takeWhile isNameChar)), cs.dropWhile isNameChar)
    else none
  | [] => none

def hexDigit? (c : Char) : Option Nat :=
  let n := c.toNat
  if c.isDigit then some (n - 48)
  else if 'a' ≤ c ∧ c ≤ 'f' then some (n - 87)
  else if 'A' ≤ c ∧ c ≤ 'F' then some (n - 55)
  else none

def positional? (base : Nat) : (acc : Nat) → List Char → Option Nat
  | acc, [] => some acc
  | acc, c :: cs =>
    if c = '_' then positional? base acc cs
    else match hexDigit? c with
      | some d => if d < base then positional? base (acc * base + d) cs else none
      | none => none

def radix : List Char → List Char × Nat × List Char
  | '0' :: 'x' :: cs => (['0', 'x'], 16, cs)
  | '0' :: 'b' :: cs => (['0', 'b'], 2, cs)
  | '0' :: 'o' :: cs => (['0', 'o'], 8, cs)
  | cs => ([], 10, cs)

def unsigned? (text : List Char) : Option Nat :=
  match radix text with
  | (_, _, []) | (_, _, '_' :: _) => none
  | (_, base, ds) => (positional? base 0 ds).filter (· < Nat.pow 2 64)

def isInteger : List Char → Bool
  | '-' :: ds => (unsigned? ds).any (· ≤ Nat.pow 2 63)
  | '+' :: ds => (unsigned? ds).any (· < Nat.pow 2 63)
  | ds => (unsigned? ds).isSome

def isIntegerChar (c : Char) : Bool := (hexDigit? c).isSome || c == '_'

def isFloatChar (c : Char) : Bool :=
  c.isDigit || c == 'e' || c == 'E' || c == '.' || c == '+' || c == '-' || c == '_'

def float : Reader (List Char) := fun cs =>
  let (sign, rest) := match cs with
    | '+' :: rest => (['+'], rest)
    | '-' :: rest => (['-'], rest)
    | rest => ([], rest)
  let word := rest.takeWhile isNameChar
  if word = ['i', 'n', 'f'] ∨ word = ['N', 'a', 'N'] then
    some (sign ++ word, rest.dropWhile isNameChar)
  else
    let text := cs.takeWhile isFloatChar
    if (Decimal.read? (String.ofList text)).isSome then some (text, cs.dropWhile isFloatChar)
    else none

def number : Reader (List Char) := fun cs =>
  let (sign, rest) := match cs with
    | '+' :: rest => (['+'], rest)
    | '-' :: rest => (['-'], rest)
    | rest => ([], rest)
  let (mark, _, ds) := radix rest
  let text := sign ++ mark ++ ds.takeWhile isIntegerChar
  let isFloat := (rest.takeWhile isIntegerChar).length < (rest.takeWhile isFloatChar).length
  if !isFloat && isInteger text then some (text, ds.dropWhile isIntegerChar) else float cs

def escape : Reader Char := fun
  | '\'' :: cs => some ('\'', cs)
  | '"' :: cs => some ('"', cs)
  | '\\' :: cs => some ('\\', cs)
  | 'n' :: cs => some ('\n', cs)
  | 'r' :: cs => some ('\r', cs)
  | 't' :: cs => some ('\t', cs)
  | '0' :: cs => some (Char.ofNat 0, cs)
  | 'x' :: c :: d :: cs => do
    let high ← hexDigit? c
    let low ← hexDigit? d
    return (Char.ofNat (high * 16 + low), cs)
  | 'u' :: '{' :: cs => do
    let ds := cs.takeWhile (hexDigit? · |>.isSome)
    guard (ds ≠ [] ∧ ds.length ≤ 6)
    let n ← positional? 16 0 ds
    guard (Nat.isValidChar n)
    match cs.dropWhile (hexDigit? · |>.isSome) with
    | '}' :: cs => return (Char.ofNat n, cs)
    | _ => none
  | _ => none

/-- The rest of a string up to its closing quote, no longer than `room`; `done` holds what was read,
in reverse. -/
def quoted : (room : Nat) → (done : List Char) → Reader String
  | 0, _, _ => none
  | _, done, '"' :: cs => some (String.ofList done.reverse, cs)
  | room + 1, done, '\\' :: cs => do
    let (c, cs) ← escape cs
    quoted room (c :: done) cs
  | room + 1, done, c :: cs => quoted room (c :: done) cs
  | _, _, [] => none

def rawQuoted (hashes : List Char) (done : List Char) : Reader String
  | c :: cs =>
    if c = '"' ∧ hashes.isPrefixOf cs then
      some (String.ofList done.reverse, cs.drop hashes.length)
    else rawQuoted hashes (c :: done) cs
  | [] => none

def string (room : Nat) : Reader String := fun
  | '"' :: cs => quoted room [] cs
  | 'r' :: cs =>
    match cs.dropWhile (· == '#') with
    | '"' :: body => rawQuoted (cs.takeWhile (· == '#')) [] body
    | _ => none
  | _ => none

def char : Reader Char := fun
  | '\'' :: '\\' :: cs => do
    let (c, cs) ← escape cs
    match cs with
    | '\'' :: cs => return (c, cs)
    | _ => none
  | '\'' :: c :: '\'' :: cs => if c = '\'' then none else some (c, cs)
  | _ => none

end BillGrammar.Ron
