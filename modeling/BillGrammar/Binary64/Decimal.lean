import BillGrammar.Decimal
import BillGrammar.Binary64.Basic

namespace BillGrammar.Binary64

/-- The number nearest to a decimal.  Powers of ten far outside the range are not computed. -/
def ofDecimal (d : Decimal) : Binary64 :=
  if d.coefficient = 0 then zero d.negative
  else if 400 < d.exponent then infinite d.negative
  else if d.exponent + d.coefficient.log2 < -400 then zero d.negative
  else match d.exponent with
    | .ofNat e => ofUnits d.negative (d.coefficient * Nat.pow 10 e * one) 1
    | .negSucc e => ofUnits d.negative (d.coefficient * one) (Nat.pow 10 (e + 1))

def read? (s : String) : Option Binary64 :=
  ((Decimal.read? s).map ofDecimal).filter isFinite

def toPlaces (places : Nat) (negative : Bool) (k : Nat) : Decimal :=
  ⟨negative, roundDiv (units k * Nat.pow 10 places) one, -(places : Int)⟩

def renderPlaces (places : Nat) : Binary64 → String
  | .nan => "NaN"
  | .infinite s => if s then "-inf" else "inf"
  | .finite s k => (toPlaces places s k).render

/-- What `renderPlaces` reads back as. -/
def snap (places : Nat) : Binary64 → Binary64
  | .finite s k => ofDecimal (toPlaces places s k)
  | x => x

/-- The multiple of `10 ^ e` nearest to the magnitude with ordinal `k`, if a multiple reads back as
that magnitude; of two equally near, the larger.  Numbers read back as `k` if they are nearer to it
than the middles towards both neighbours, and on these middles if `k` is even. -/
def gridPoint? (k : Nat) (e : Int) : Option Nat :=
  let up := Nat.pow 10 (-e).toNat
  let step := Nat.pow 10 e.toNat * 2
  let value := 2 * units k * up
  let low := (units (k - 1) + units k) * up
  let high := (units k + units (k + 1)) * up
  let inside (m : Nat) : Bool :=
    let x := m * step * one
    if k % 2 = 0 then low ≤ x && x ≤ high else low < x && x < high
  let m := value / (step * one)
  let below := value - m * step * one
  let above := (m + 1) * step * one - value
  match inside m, inside (m + 1) with
  | true, true => some (if below < above then m else m + 1)
  | true, false => some m
  | false, true => some (m + 1)
  | false, false => none

/-- The point that reads back on the coarsest of some grids: those of `10 ^ e`, `10 ^ (e - 1)` and
so on. -/
def coarsest (k : Nat) (e : Int) : (grids : Nat) → Decimal
  | 0 => ⟨false, 0, 0⟩
  | grids + 1 =>
    match gridPoint? k e with
    | some m => ⟨false, m, e⟩
    | none => coarsest k (e - 1) grids

/-- The fewest digits that read back.  The grids go from above the largest number to below the
least. -/
def toShortest (negative : Bool) (k : Nat) : Decimal :=
  if k = 0 then ⟨negative, 0, 0⟩
  else { (coarsest k 309 640).shrink with negative }

def render : Binary64 → String
  | .nan => "NaN"
  | .infinite s => if s then "-inf" else "inf"
  | .finite s k => (toShortest s k).render

end BillGrammar.Binary64
