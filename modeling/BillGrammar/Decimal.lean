import BillGrammar.Text.Digits

namespace BillGrammar

structure Decimal where
  negative : Bool
  coefficient : Nat
  exponent : Int
  deriving DecidableEq

namespace Decimal

def magnitude (d : Decimal) : List Char :=
  match d.exponent with
  | .ofNat n => Nat.toDigits 10 (d.coefficient * Nat.pow 10 n)
  | .negSucc n =>
    let scale := Nat.pow 10 (n + 1)
    Nat.toDigits 10 (d.coefficient / scale) ++
      '.' :: Text.padded (n + 1) (d.coefficient % scale)

def render (d : Decimal) : String :=
  String.ofList (if d.negative then '-' :: d.magnitude else d.magnitude)

def shrink (d : Decimal) : Decimal :=
  if h : d.coefficient ≠ 0 ∧ d.coefficient % 10 = 0 then
    shrink ⟨d.negative, d.coefficient / 10, d.exponent + 1⟩
  else d
termination_by d.coefficient
decreasing_by exact Nat.div_lt_self (Nat.pos_of_ne_zero h.1) (by decide)

def signed : List Char → Bool × List Char
  | '-' :: cs => (true, cs)
  | '+' :: cs => (false, cs)
  | cs => (false, cs)

def exponent? : List Char → Option Int
  | [] => some 0
  | c :: cs =>
    if c = 'e' ∨ c = 'E' then
      let (negative, ds) := signed cs
      (Text.digits? ds).map fun n => if negative then -(n : Int) else n
    else none

def unsigned? (negative : Bool) (cs : List Char) : Option Decimal := do
  let whole := cs.takeWhile Char.isDigit
  let (fraction, rest) := match cs.dropWhile Char.isDigit with
    | '.' :: rest => (rest.takeWhile Char.isDigit, rest.dropWhile Char.isDigit)
    | rest => ([], rest)
  let coefficient ← Text.digits? (whole ++ fraction)
  let exponent ← exponent? rest
  return ⟨negative, coefficient, exponent - fraction.length⟩

def read? (s : String) : Option Decimal :=
  let (negative, cs) := signed s.toList
  unsigned? negative cs

end Decimal

end BillGrammar
