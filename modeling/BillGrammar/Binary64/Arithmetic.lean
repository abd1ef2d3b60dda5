import BillGrammar.Binary64.Basic

namespace BillGrammar.Binary64

def neg : Binary64 → Binary64
  | .nan => .nan
  | .infinite s => .infinite !s
  | .finite s k => .finite (!s) k

/-- A sum of zero is negative only if both terms are. -/
def add : Binary64 → Binary64 → Binary64
  | .nan, _ | _, .nan => .nan
  | .infinite s, .infinite t => if s = t then .infinite s else .nan
  | .infinite s, .finite .. | .finite .., .infinite s => .infinite s
  | .finite s j, .finite t k =>
    let sum := signedUnits s j + signedUnits t k
    if sum = 0 then zero (s && t) else ofUnits (sum < 0) sum.natAbs 1

def mul : Binary64 → Binary64 → Binary64
  | .nan, _ | _, .nan => .nan
  | .infinite s, .infinite t => .infinite (s ^^ t)
  | .infinite s, .finite t k | .finite t k, .infinite s =>
    if k.val = 0 then .nan else .infinite (s ^^ t)
  | .finite s j, .finite t k => ofUnits (s ^^ t) (units j * units k) one

def div : Binary64 → Binary64 → Binary64
  | .nan, _ | _, .nan => .nan
  | .infinite _, .infinite _ => .nan
  | .infinite s, .finite t _ => .infinite (s ^^ t)
  | .finite s _, .infinite t => zero (s ^^ t)
  | .finite s j, .finite t k =>
    if k.val = 0 then (if j.val = 0 then .nan else .infinite (s ^^ t))
    else ofUnits (s ^^ t) (units j * one) (units k)

instance : Neg Binary64 := ⟨neg⟩

instance : Add Binary64 := ⟨add⟩

instance : Sub Binary64 := ⟨fun x y => x + -y⟩

instance : Mul Binary64 := ⟨mul⟩

instance : Div Binary64 := ⟨div⟩

def ceil : Binary64 → Binary64
  | .finite s k =>
    let whole := if s then units k / one else (units k + one - 1) / one
    ofUnits s (whole * one) 1
  | x => x

def powMul (acc x : Binary64) (n : Nat) : Binary64 :=
  let acc := if n % 2 = 1 then acc * x else acc
  if h : n / 2 = 0 then acc else powMul acc (x * x) (n / 2)
termination_by n
decreasing_by omega

def powNat (x : Binary64) (n : Nat) : Binary64 := powMul 1 x n

end BillGrammar.Binary64
