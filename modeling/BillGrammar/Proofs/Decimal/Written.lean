import BillGrammar.Decimal
import Mathlib.Algebra.Order.Field.Rat
import Mathlib.Data.List.TakeWhile
import Mathlib.Data.Rat.Cast.Order

namespace BillGrammar

namespace Text

theorem digits?_eq_some (hne : cs ≠ []) (hcs : ∀ c ∈ cs, c.isDigit) :
    digits? cs = some (Nat.ofDigitChars 10 cs 0) :=
  if_pos ⟨hne, List.all_eq_true.mpr hcs⟩

theorem isDigit_of_mem_toDigits (h : c ∈ Nat.toDigits 10 n) : c.isDigit :=
  Nat.isDigit_of_mem_toDigits (by decide) (by decide) h

theorem isDigit_of_mem_padded {width n : Nat} (h : c ∈ Text.padded width n) : c.isDigit := by
  rcases List.mem_append.mp h with h | h
  · rw [List.eq_of_mem_replicate h]
    rfl
  · exact isDigit_of_mem_toDigits h

theorem length_padded (h : n < 10 ^ (width + 1)) : (padded (width + 1) n).length = width + 1 := by
  have := (Nat.length_toDigits_le_iff (by decide) (Nat.succ_pos width)).mpr h
  simp only [padded, List.length_append, List.length_replicate]
  omega

theorem ofDigitChars_padded (width n : Nat) : Nat.ofDigitChars 10 (padded width n) 0 = n := by
  rw [padded, Nat.ofDigitChars_append, Nat.ofDigitChars_replicate_zero, Nat.mul_zero,
    Nat.ofDigitChars_toDigits (by decide) (by decide)]

end Text

namespace Decimal

/-- At least one digit, then a point with `places` digits after it unless there are none. -/
inductive IsMagnitude : (places : Nat) → List Char → Prop
  | whole : ds ≠ [] → (∀ c ∈ ds, c.isDigit) → IsMagnitude 0 ds
  | point : ds ≠ [] → (∀ c ∈ ds, c.isDigit) → (∀ c ∈ fs, c.isDigit) → fs.length = places + 1 →
      IsMagnitude (places + 1) (ds ++ '.' :: fs)

inductive IsNumeral (places : Nat) : List Char → Prop
  | plain : IsMagnitude places cs → IsNumeral places cs
  | minus : IsMagnitude places cs → IsNumeral places ('-' :: cs)

def toRat (d : Decimal) : ℚ := (if d.negative then -1 else 1) * d.coefficient * 10 ^ d.exponent

def value? (s : String) : Option ℚ := (read? s).map toRat

theorem isMagnitude_magnitude (s : Bool) (c places : Nat) :
    IsMagnitude places (magnitude ⟨s, c, -(places : ℤ)⟩) := by
  cases places with
  | zero => exact .whole Nat.toDigits_ne_nil fun _ => Text.isDigit_of_mem_toDigits
  | succ n =>
    exact .point Nat.toDigits_ne_nil (fun _ => Text.isDigit_of_mem_toDigits)
      (fun _ => Text.isDigit_of_mem_padded)
      (Text.length_padded (Nat.mod_lt _ (Nat.pow_pos (by decide))))

theorem isNumeral_render (s : Bool) (c places : Nat) :
    IsNumeral places (render ⟨s, c, -(places : ℤ)⟩).toList := by
  rw [render, String.toList_ofList]
  cases s
  · exact .plain (isMagnitude_magnitude false c places)
  · exact .minus (isMagnitude_magnitude true c places)

theorem unsigned?_whole (s : Bool) (hne : ds ≠ []) (hds : ∀ c ∈ ds, c.isDigit) :
    unsigned? s ds = some ⟨s, Nat.ofDigitChars 10 ds 0, 0⟩ := by
  simp [unsigned?, List.takeWhile_eq_self_iff.mpr hds, List.dropWhile_eq_nil_iff.mpr hds,
    Text.digits?_eq_some hne hds, exponent?]

theorem unsigned?_point (s : Bool) (hne : ds ≠ []) (hds : ∀ c ∈ ds, c.isDigit)
    (hfs : ∀ c ∈ fs, c.isDigit) :
    unsigned? s (ds ++ '.' :: fs) =
      some ⟨s, Nat.ofDigitChars 10 (ds ++ fs) 0, -(fs.length : ℤ)⟩ := by
  have htake : (ds ++ '.' :: fs).takeWhile Char.isDigit = ds := by
    rw [List.takeWhile_append_of_pos hds, List.takeWhile_cons_of_neg (by decide), List.append_nil]
  have hdrop : (ds ++ '.' :: fs).dropWhile Char.isDigit = '.' :: fs := by
    rw [List.dropWhile_append_of_pos hds, List.dropWhile_cons_of_neg (by decide)]
  have hall : ∀ c ∈ ds ++ fs, c.isDigit := fun c hc => (List.mem_append.mp hc).elim (hds c) (hfs c)
  simp [unsigned?, htake, hdrop, List.takeWhile_eq_self_iff.mpr hfs,
    List.dropWhile_eq_nil_iff.mpr hfs,
    Text.digits?_eq_some (List.append_ne_nil_of_left_ne_nil hne fs) hall, exponent?]

theorem unsigned?_magnitude (s : Bool) (c places : Nat) :
    unsigned? s (magnitude ⟨s, c, -(places : ℤ)⟩) = some ⟨s, c, -(places : ℤ)⟩ := by
  cases places with
  | zero =>
    change unsigned? s (Nat.toDigits 10 (c * Nat.pow 10 0)) = _
    rw [unsigned?_whole s Nat.toDigits_ne_nil fun _ => Text.isDigit_of_mem_toDigits,
      Nat.ofDigitChars_toDigits (by decide) (by decide), Nat.pow_eq, Nat.pow_zero, Nat.mul_one]
    rfl
  | succ n =>
    have hlen := Text.length_padded (Nat.mod_lt c (Nat.pow_pos (n := n + 1) (by decide : 0 < 10)))
    change unsigned? s (Nat.toDigits 10 (c / 10 ^ (n + 1)) ++
      '.' :: Text.padded (n + 1) (c % 10 ^ (n + 1))) = _
    rw [unsigned?_point s Nat.toDigits_ne_nil (fun _ => Text.isDigit_of_mem_toDigits)
      (fun _ => Text.isDigit_of_mem_padded), hlen, Nat.ofDigitChars_append,
      Nat.ofDigitChars_eq_ofDigitChars_zero, hlen, Text.ofDigitChars_padded,
      Nat.ofDigitChars_toDigits (by decide) (by decide), Nat.div_add_mod]

theorem IsMagnitude.signed_eq (h : IsMagnitude places cs) : signed cs = (false, cs) := by
  have hhead : ∃ c rest, cs = c :: rest ∧ c.isDigit := by
    cases h with
    | whole hne hds =>
      obtain ⟨c, rest, rfl⟩ := List.exists_cons_of_ne_nil hne
      exact ⟨c, rest, rfl, hds c List.mem_cons_self⟩
    | @point ds fs places hne hds =>
      obtain ⟨c, rest, rfl⟩ := List.exists_cons_of_ne_nil hne
      exact ⟨c, rest ++ '.' :: fs, rfl, hds c List.mem_cons_self⟩
  obtain ⟨c, rest, rfl, hc⟩ := hhead
  unfold signed
  split
  · next heq =>
    obtain ⟨rfl, -⟩ := List.cons.inj heq
    cases hc
  · next heq =>
    obtain ⟨rfl, -⟩ := List.cons.inj heq
    cases hc
  · rfl

theorem read?_render (s : Bool) (c places : Nat) :
    read? (render ⟨s, c, -(places : ℤ)⟩) = some ⟨s, c, -(places : ℤ)⟩ := by
  rw [read?, render, String.toList_ofList]
  cases s
  · rw [if_neg Bool.false_ne_true, (isMagnitude_magnitude false c places).signed_eq]
    exact unsigned?_magnitude false c places
  · exact unsigned?_magnitude true c places

theorem value?_render (s : Bool) (c places : Nat) :
    value? (render ⟨s, c, -(places : ℤ)⟩) = some (toRat ⟨s, c, -(places : ℤ)⟩) := by
  rw [value?, read?_render, Option.map_some]

end Decimal

end BillGrammar
