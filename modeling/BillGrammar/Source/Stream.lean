import BillGrammar.Sampler

/-!
Pseudorandom draws from the key stream of a ChaCha cipher with twelve rounds, whose key is spread
from a seed of 64 bits.
-/

namespace BillGrammar

abbrev ChaChaBlock := Vector UInt32 16

namespace ChaChaBlock

def rotateLeft (x : UInt32) (k : UInt32) : UInt32 := (x <<< k) ||| (x >>> (32 - k))

def mix (s : ChaChaBlock) (a b d : Fin 16) (k : UInt32) : ChaChaBlock :=
  let s := s.set a (s[a] + s[b])
  s.set d (rotateLeft (s[d] ^^^ s[a]) k)

def quarterRound (s : ChaChaBlock) (a b c d : Fin 16) : ChaChaBlock :=
  (((s.mix a b d 16).mix c d b 12).mix a b d 8).mix c d b 7

def doubleRound (s : ChaChaBlock) : ChaChaBlock :=
  let s := s.quarterRound 0 4 8 12
  let s := s.quarterRound 1 5 9 13
  let s := s.quarterRound 2 6 10 14
  let s := s.quarterRound 3 7 11 15
  let s := s.quarterRound 0 5 10 15
  let s := s.quarterRound 1 6 11 12
  let s := s.quarterRound 2 7 8 13
  s.quarterRound 3 4 9 14

def keyStream (s : ChaChaBlock) : ChaChaBlock :=
  s.zipWith (· + ·) (Nat.repeat doubleRound 6 s)

def start (key : Vector UInt32 8) (block : UInt64) : ChaChaBlock :=
  let constants : Vector UInt32 4 := #v[0x61707865, 0x3320646e, 0x79622d32, 0x6b206574]
  let number : Vector UInt32 4 := #v[block.toUInt32, (block >>> 32).toUInt32, 0, 0]
  constants ++ key ++ number

end ChaChaBlock

structure RandomStream where
  key : Vector UInt32 8
  block : UInt64 := 0
  left : List UInt32 := []

namespace RandomStream

def spread (state : UInt64) : UInt32 × UInt64 :=
  let state := state * 6364136223846793005 + 11634580027462260723
  let x := (((state >>> 18) ^^^ state) >>> 27).toUInt32
  let k := (state >>> 59).toUInt32
  ((x >>> k) ||| (x <<< (32 - k)), state)

def ofSeed (seed : UInt64) : RandomStream :=
  let (a, s) := spread seed
  let (b, s) := spread s
  let (c, s) := spread s
  let (d, s) := spread s
  let (e, s) := spread s
  let (f, s) := spread s
  let (g, s) := spread s
  let (h, _) := spread s
  { key := #v[a, b, c, d, e, f, g, h] }

def word (s : RandomStream) : UInt32 × RandomStream :=
  match s.left with
  | w :: left => (w, { s with left })
  | [] =>
    let words := (ChaChaBlock.start s.key s.block).keyStream
    (words[0], { s with block := s.block + 1, left := words.toList.tail })

/-- Two words, the first one low. -/
def word64 (s : RandomStream) : UInt64 × RandomStream :=
  let (low, s) := s.word
  let (high, s) := s.word
  (low.toUInt64 ||| (high.toUInt64 <<< 32), s)

/-- The range of 64 bits is cut into `n` parts, and a word gives the number of its part.  Words with
too large a remainder in their part are passed over, so that all parts are equally likely; fewer
than half of all words are. -/
def below (n : Nat) (s : RandomStream) : (tries : Nat) → Nat × RandomStream
  | 0 => (0, s)
  | tries + 1 =>
    let (w, s) := s.word64
    let product := w.toNat * n
    let part := Nat.pow 2 64
    if product % part < n * Nat.pow 2 (63 - n.log2) then (product / part, s)
    else below n s tries

theorem below_lt (pos : 0 < n) (s : RandomStream) (tries : Nat) : (below n s tries).1 < n := by
  induction tries generalizing s with
  | zero => exact pos
  | succ tries ih =>
    unfold below
    simp only
    split
    · exact Nat.div_lt_of_lt_mul (Nat.mul_lt_mul_of_pos_right (UInt64.toNat_lt _) pos)
    · exact ih _

def tries : Nat := 1024

instance : RandomSource RandomStream where
  choose n pos s := (⟨(below n s tries).1, below_lt pos s tries⟩, (below n s tries).2)
  unit s :=
    let (w, s) := s.word64
    (.ofUnits false ((w >>> 11).toNat * Nat.pow 2 1021) 1, s)

end RandomStream

end BillGrammar
