import BillGrammar.Proofs.Binary64.Units
import Mathlib.Algebra.Order.Field.Basic

namespace BillGrammar

def Rounding.ordinal : Rounding where
  round n d := Binary64.nearestOrdinal (n * Binary64.one) d
  round_zero d := by rw [Nat.zero_mul, Binary64.nearestOrdinal_zero]
  round_mul_right hc _ := by rw [Nat.mul_right_comm, Binary64.nearestOrdinal_mul_right hc]
  round_mono hd h := Binary64.nearestOrdinal_mono hd (Nat.mul_le_mul_right _ h)

namespace Binary64

variable {d k n : Nat} {p q : ℚ} {r s : ℤ}

/-- The number of a rank.  The ranks go on where finite numbers of 64 bits end. -/
def valueAt (r : ℤ) : ℚ := r.sign * (units r.natAbs / one)

@[simp]
theorem valueAt_zero : valueAt 0 = 0 := by
  rw [valueAt, Int.sign_zero, Int.cast_zero, zero_mul]

@[simp]
theorem valueAt_neg (r : ℤ) : valueAt (-r) = -valueAt r := by
  rw [valueAt, Int.sign_neg, Int.natAbs_neg, Int.cast_neg, neg_mul, valueAt]

theorem valueAt_natCast (k : Nat) : valueAt k = units k / one := by
  rcases Nat.eq_zero_or_pos k with rfl | hk
  · rw [Nat.cast_zero, valueAt_zero, units_zero, Nat.cast_zero, zero_div]
  · rw [valueAt, Int.sign_natCast_of_ne_zero hk.ne', Int.natAbs_natCast, Int.cast_one, one_mul]

theorem one_cast_pos : (0 : ℚ) < one := Nat.cast_pos.mpr one_pos

theorem valueAt_natCast_lt (h : k < n) : valueAt k < valueAt n := by
  rw [valueAt_natCast, valueAt_natCast, div_lt_div_iff_of_pos_right one_cast_pos, Nat.cast_lt]
  exact units_strictMono h

theorem valueAt_lt_iff : valueAt r < valueAt s ↔ r < s := by
  refine (strictMono_int_of_lt_succ fun r => ?_).lt_iff_lt
  cases r with
  | ofNat k => exact valueAt_natCast_lt k.lt_succ_self
  | negSucc k =>
    rw [Int.negSucc_eq, show -((k : ℤ) + 1) + 1 = -k by ring, valueAt_neg, valueAt_neg,
      neg_lt_neg_iff]
    exact_mod_cast valueAt_natCast_lt k.lt_succ_self

theorem valueAt_le_iff : valueAt r ≤ valueAt s ↔ r ≤ s := by
  rw [← not_lt, valueAt_lt_iff, not_lt]

theorem valueAt_mono (h : r ≤ s) : valueAt r ≤ valueAt s := valueAt_le_iff.mpr h

theorem valueAt_nonneg (hr : 0 ≤ r) : 0 ≤ valueAt r := valueAt_zero.symm.trans_le (valueAt_mono hr)

/-- The rank of the number nearest to `q`; of two equally near, the even one. -/
def nearest (q : ℚ) : ℤ := Rounding.ordinal.signed q

@[simp]
theorem nearest_zero : nearest 0 = 0 := Rounding.ordinal.signed_zero

theorem nearest_neg (q : ℚ) : nearest (-q) = -nearest q := Rounding.ordinal.signed_neg q

theorem nearest_mono (h : p ≤ q) : nearest p ≤ nearest q := Rounding.ordinal.signed_mono h

theorem lt_of_nearest_lt (h : nearest p < nearest q) : p < q := by
  by_contra! hle
  exact h.not_ge (nearest_mono hle)

theorem nearest_nonneg (hq : 0 ≤ q) : 0 ≤ nearest q := nearest_zero.symm.trans_le (nearest_mono hq)

theorem nearest_units_div (n : Nat) (hd : 0 < d) :
    nearest ((n : ℚ) / d / one) = nearestOrdinal n d := by
  rw [div_div, ← Nat.cast_mul]
  refine (Rounding.ordinal.signed_div n (Nat.mul_pos hd one_pos)).trans ?_
  exact congrArg _ (nearestOrdinal_mul_right one_pos)

theorem exists_eq_units_div (hq : 0 ≤ q) : ∃ n d : Nat, 0 < d ∧ q = (n : ℚ) / d / one := by
  obtain ⟨n, d, hd, hq⟩ := Rounding.exists_div_of_nonneg (mul_nonneg hq one_cast_pos.le)
  exact ⟨n, d, hd, by rw [← hq, mul_div_cancel_right₀ _ one_cast_pos.ne']⟩

theorem le_nearest_of_nonneg (hq : 0 ≤ q) :
    2 * q ≤ valueAt (nearest q) + valueAt (nearest q + 1) := by
  obtain ⟨n, d, hd, rfl⟩ := exists_eq_units_div hq
  have h : (2 * n : ℚ) ≤ (units (nearestOrdinal n d) + units (nearestOrdinal n d + 1)) * d := by
    exact_mod_cast le_nearestOrdinal n hd
  rw [nearest_units_div n hd, ← Nat.cast_succ, valueAt_natCast, valueAt_natCast, ← add_div,
    ← mul_div_assoc, div_le_div_iff_of_pos_right one_cast_pos, ← mul_div_assoc,
    div_le_iff₀ (Nat.cast_pos.mpr hd)]
  exact h

theorem nearest_le_of_nonneg (hq : 0 ≤ q) :
    valueAt (nearest q - 1) + valueAt (nearest q) ≤ 2 * q := by
  obtain ⟨n, d, hd, rfl⟩ := exists_eq_units_div hq
  rw [nearest_units_div n hd]
  cases hk : nearestOrdinal n d with
  | zero =>
    have := valueAt_mono (show (-1 : ℤ) ≤ 0 by decide)
    rw [valueAt_zero] at this
    simp only [Nat.cast_zero, zero_sub, valueAt_zero, add_zero]
    linarith
  | succ j =>
    have h : ((units j + units (j + 1)) * d : ℚ) ≤ 2 * n := by
      exact_mod_cast nearestOrdinal_le n hd hk
    rw [Nat.cast_succ, add_sub_cancel_right, ← Nat.cast_succ, valueAt_natCast, valueAt_natCast,
      ← add_div, ← mul_div_assoc, div_le_div_iff_of_pos_right one_cast_pos, ← mul_div_assoc,
      le_div_iff₀ (Nat.cast_pos.mpr hd)]
    exact h

theorem le_nearest (q : ℚ) : 2 * q ≤ valueAt (nearest q) + valueAt (nearest q + 1) := by
  rcases le_total 0 q with hq | hq
  · exact le_nearest_of_nonneg hq
  · have h := nearest_le_of_nonneg (neg_nonneg.mpr hq)
    rw [nearest_neg, ← neg_add', valueAt_neg, valueAt_neg] at h
    linarith

theorem nearest_le (q : ℚ) : valueAt (nearest q - 1) + valueAt (nearest q) ≤ 2 * q := by
  have h := le_nearest (-q)
  rw [nearest_neg, neg_add_eq_sub, ← neg_sub, valueAt_neg, valueAt_neg] at h
  linarith

@[simp]
theorem nearest_valueAt (r : ℤ) : nearest (valueAt r) = r := by
  apply le_antisymm
  · by_contra! h
    have h₁ := nearest_le (valueAt r)
    have h₂ := valueAt_mono (Int.le_sub_one_of_lt h)
    have h₃ := valueAt_lt_iff.mpr h
    linarith
  · by_contra! h
    have h₁ := le_nearest (valueAt r)
    have h₂ := valueAt_mono (Int.add_one_le_of_lt h)
    have h₃ := valueAt_lt_iff.mpr h
    linarith

theorem lt_valueAt_of_nearest_lt (h : nearest q < s) : q < valueAt s :=
  lt_of_nearest_lt (h.trans_eq (nearest_valueAt s).symm)

theorem lt_of_nearest_valueAt_lt (h : r < nearest q) : valueAt r < q :=
  lt_of_nearest_lt ((nearest_valueAt r).trans_lt h)

end Binary64

end BillGrammar
