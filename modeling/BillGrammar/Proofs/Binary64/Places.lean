import BillGrammar.Binary64.Decimal
import BillGrammar.Proofs.Binary64.Value
import BillGrammar.Proofs.Decimal.Written

namespace BillGrammar.Binary64

variable {x y : Binary64} {p q : ℚ} {places : Nat}

def steps (places : Nat) (q : ℚ) : ℤ := nearestWhole (q * 10 ^ places)

/-- The value that is written for `q`. -/
def written (places : Nat) (q : ℚ) : ℚ := steps places q / 10 ^ places

theorem ten_pow_pos (places : Nat) : (0 : ℚ) < 10 ^ places := pow_pos (by norm_num) places

theorem steps_mono (h : p ≤ q) : steps places p ≤ steps places q :=
  nearestWhole_mono (mul_le_mul_of_nonneg_right h (ten_pow_pos places).le)

theorem steps_neg (places : Nat) (q : ℚ) : steps places (-q) = -steps places q := by
  rw [steps, neg_mul, nearestWhole_neg, steps]

theorem steps_intCast (places : Nat) (z : ℤ) : steps places z = z * 10 ^ places := by
  rw [steps, ← nearestWhole_intCast (z * 10 ^ places)]
  push_cast
  rfl

theorem written_le_written_iff : written places p ≤ written places q ↔
    steps places p ≤ steps places q := by
  rw [written, written, div_le_div_iff_of_pos_right (ten_pow_pos places), Int.cast_le]

theorem written_mono (h : p ≤ q) : written places p ≤ written places q :=
  written_le_written_iff.mpr (steps_mono h)

theorem written_intCast (places : Nat) (z : ℤ) : written places z = z := by
  rw [written, steps_intCast]
  push_cast
  exact mul_div_cancel_right₀ _ (ten_pow_pos places).ne'

theorem lt_of_written_lt_intCast {z : ℤ} (h : written places q < z) : q < z := by
  by_contra! hle
  have : written places z ≤ written places q := written_mono hle
  rw [written_intCast] at this
  exact this.not_gt h

theorem written_lt_intCast_iff {z : ℤ} : written places q < z ↔
    steps places q ≤ z * 10 ^ places - 1 := by
  rw [written, div_lt_iff₀ (ten_pow_pos places), Int.le_sub_one_iff]
  exact_mod_cast Iff.rfl

theorem written_lt_intCast {z : ℤ} (h : 1 / 2 < (z - q) * 10 ^ places) : written places q < z := by
  refine written_lt_intCast_iff.mpr (nearestWhole_le ?_)
  push_cast
  linarith

theorem written_le_of_lt_intCast {z : ℤ} (h : (z - q) * 10 ^ places < 3 / 2)
    (hp : written places p < z) : written places p ≤ written places q := by
  refine written_le_written_iff.mpr ((written_lt_intCast_iff.mp hp).trans (le_nearestWhole ?_))
  push_cast
  linarith

theorem steps_withSign (places : Nat) (s : Bool) (q : ℚ) :
    (steps places (withSign s q) : ℚ) = withSign s (steps places q) := by
  cases s
  · rfl
  · rw [withSign_true, steps_neg, Int.cast_neg, withSign_true]

theorem toRat_decimal (s : Bool) (c places : Nat) :
    Decimal.toRat ⟨s, c, -(places : ℤ)⟩ = withSign s (c / 10 ^ places) := by
  rw [Decimal.toRat, zpow_neg, zpow_natCast, ← div_eq_mul_inv, withSign_div]
  cases s
  · rw [if_neg Bool.false_ne_true, one_mul, withSign_false]
  · rw [if_pos rfl, neg_one_mul, withSign_true]

theorem toRat_toPlaces (places : Nat) (s : Bool) (k : Fin finiteCount) :
    (toPlaces places s k).toRat = written places (finite s k).toRat := by
  have h : steps places (units k / one) = roundDiv (units k * 10 ^ places) one := by
    rw [steps, ← nearestWhole_div _ one_pos, Nat.cast_mul, Nat.cast_pow, div_mul_eq_mul_div]
    rfl
  rw [toRat_finite, written, steps_withSign, h, toPlaces, toRat_decimal, withSign_div]
  rfl

theorem isNumeral_renderPlaces (places : Nat) (hx : x.isFinite) :
    Decimal.IsNumeral places (x.renderPlaces places).toList := by
  obtain ⟨s, k, rfl⟩ := exists_eq_finite hx
  exact Decimal.isNumeral_render s _ places

theorem value?_renderPlaces (places : Nat) (hx : x.isFinite) :
    Decimal.value? (x.renderPlaces places) = some (written places x.toRat) := by
  obtain ⟨s, k, rfl⟩ := exists_eq_finite hx
  rw [← toRat_toPlaces]
  exact Decimal.value?_render s _ places

theorem isNearest_ofDecimal (s : Bool) (c : Nat) (hp : places ≤ 400) :
    (ofDecimal ⟨s, c, -(places : ℤ)⟩).IsNearest (Decimal.toRat ⟨s, c, -(places : ℤ)⟩) := by
  rw [toRat_decimal, ofDecimal]
  rcases Nat.eq_zero_or_pos c with rfl | hc
  · rw [if_pos rfl, Nat.cast_zero, zero_div]
    cases s
    · exact isNearest_zero false
    · rw [withSign_true, neg_zero]
      exact isNearest_zero true
  · rw [if_neg hc.ne', if_neg (by dsimp only; omega), if_neg (by dsimp only; omega)]
    have h := isNearest_ofUnits s (c * one) (Nat.pow_pos (n := places) (by decide : 0 < 10))
    rw [Nat.cast_mul, div_right_comm, mul_div_cancel_right₀ _ one_cast_pos.ne', Nat.cast_pow] at h
    cases places with
    | zero =>
      rw [show -((0 : ℕ) : ℤ) = .ofNat 0 from rfl]
      dsimp only
      rwa [Nat.pow_eq, pow_zero, Nat.mul_one]
    | succ n => exact h

/-- The multiple `k` of `10 ^ -places`, as it reads back. -/
def stepAt (places : Nat) (k : ℤ) : Binary64 := ofDecimal ⟨k < 0, k.natAbs, -(places : ℤ)⟩

theorem isNearest_stepAt (k : ℤ) (hp : places ≤ 400) :
    (stepAt places k).IsNearest (k / 10 ^ places) := by
  have h := isNearest_ofDecimal (k < 0) k.natAbs hp
  rwa [toRat_decimal, withSign_div, withSign_natAbs] at h

theorem isNearest_snap (hx : x.isFinite) (hp : places ≤ 400) :
    (x.snap places).IsNearest (written places x.toRat) := by
  obtain ⟨s, k, rfl⟩ := exists_eq_finite hx
  rw [← toRat_toPlaces]
  exact isNearest_ofDecimal s _ hp

end BillGrammar.Binary64
