import BillGrammar.Rounding

/-!
Binary floating point numbers of 64 bits.  A finite magnitude is given by its ordinal: how many
non-negative numbers are smaller.  It is also the bit pattern of the magnitude, so neighbours
differ by one, and rounding needs no case for a carry.
-/

namespace BillGrammar

/-- How many magnitudes there are between a power of two and the next. -/
abbrev binadeCount : Nat := Nat.pow 2 52

abbrev finiteCount : Nat := 2047 * binadeCount

inductive Binary64
  | nan
  | infinite (negative : Bool)
  | finite (negative : Bool) (ordinal : Fin finiteCount)
  deriving DecidableEq

namespace Binary64

/-- The magnitude with ordinal `k`, in units of `2 ^ -1074`. -/
def units (k : Nat) : Nat :=
  if k < binadeCount then k
  else (binadeCount + k % binadeCount) * Nat.pow 2 (k / binadeCount - 1)

abbrev one : Nat := Nat.pow 2 1074

def signedUnits (negative : Bool) (k : Nat) : Int :=
  if negative then -(units k : Int) else units k

/-- The ordinal nearest to `n / d` units, ties to the even one; numbers above the largest finite
magnitude get ordinals from `finiteCount` on. -/
def nearestOrdinal (n d : Nat) : Nat :=
  let scale := (n / d).log2 - 52
  scale * binadeCount + roundDiv n (d * Nat.pow 2 scale)

def ofUnits (negative : Bool) (n d : Nat) : Binary64 :=
  let k := nearestOrdinal n d
  if h : k < finiteCount then finite negative ⟨k, h⟩ else infinite negative

def zero (negative : Bool) : Binary64 := finite negative ⟨0, by decide⟩

def ofNat (n : Nat) : Binary64 := ofUnits false (n * one) 1

instance (n : Nat) : OfNat Binary64 n := ⟨ofNat n⟩

def isFinite : Binary64 → Bool
  | .finite .. => true
  | _ => false

/-- The place in the order of all numbers: both zeros at the origin, infinities at the ends. -/
def rank? : Binary64 → Option Int
  | .nan => none
  | .infinite s => some (if s then -finiteCount else finiteCount)
  | .finite s k => some (if s then -(k.val : Int) else k.val)

def ofRank (r : Int) : Binary64 :=
  if h : r.natAbs < finiteCount then finite (r < 0) ⟨r.natAbs, h⟩ else infinite (r < 0)

def pred (x : Binary64) : Binary64 :=
  match x.rank? with
  | none => .nan
  | some r => ofRank (r - 1)

def less (x y : Binary64) : Bool :=
  match x.rank?, y.rank? with
  | some r, some s => r < s
  | _, _ => false

def lessEq (x y : Binary64) : Bool :=
  match x.rank?, y.rank? with
  | some r, some s => r ≤ s
  | _, _ => false

instance : LT Binary64 := ⟨fun x y => x.less y = true⟩

instance : LE Binary64 := ⟨fun x y => x.lessEq y = true⟩

instance (x y : Binary64) : Decidable (x < y) := inferInstanceAs (Decidable (_ = true))

instance (x y : Binary64) : Decidable (x ≤ y) := inferInstanceAs (Decidable (_ = true))

/-- The larger number, the second of two equal ones; what is not a number gives way. -/
def max (x y : Binary64) : Binary64 :=
  if x = .nan ∨ x ≤ y then y else x

abbrev signBit : Nat := Nat.pow 2 63

def ofBits (bits : Nat) : Binary64 :=
  let negative := bits / signBit % 2 == 1
  let k := bits % signBit
  if h : k < finiteCount then finite negative ⟨k, h⟩
  else if k = finiteCount then infinite negative
  else nan

def toBits : Binary64 → Nat
  | .nan => finiteCount + binadeCount / 2
  | .infinite s => (if s then signBit else 0) + finiteCount
  | .finite s k => (if s then signBit else 0) + k

end Binary64

end BillGrammar
