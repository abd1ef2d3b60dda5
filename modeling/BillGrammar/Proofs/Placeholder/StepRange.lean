import BillGrammar.Proofs.Binary64.Steps
import BillGrammar.Proofs.Placeholder.Numeral
import BillGrammar.Source.Fixed

/-!
Ranges with a step in them: what is written is below the upper bound, and reads back as a number
from the lower bound on.

Both bounds are compared with numbers that are read back, so a lower bound can be written as a step
that lies below it, but is read as the bound itself.  A step below the upper bound can be read as
the bound, and is then no step to write.
-/

namespace BillGrammar.NumberRange

open Binary64

variable {r : NumberRange} {u x y : Binary64} {k : ℤ}

/-- A multiple of the last place reads back as a number of the range. -/
def HasStep (r : NumberRange) : Prop :=
  ∃ k : ℤ, r.min ≤ stepAt r.precision k ∧ stepAt r.precision k < r.max

/-- If the lower bound is shown below itself, it is above the step shown by more than rounding can
take from it when steps are counted. -/
def MinOffStep (r : NumberRange) : Prop :=
  r.min.snap r.precision < r.min →
    |(steps r.precision r.min.toRat : ℚ)| <
      2 ^ 53 * (r.min.toRat * 10 ^ r.precision - steps r.precision r.min.toRat)

/-- If the upper bound is shown as itself or above, the second step below the one shown is in the
range, or the bound is above the middle between steps by more than rounding can take from it on the
way down. -/
def MaxOffMiddle (r : NumberRange) : Prop :=
  r.max ≤ r.max.snap r.precision →
    r.min ≤ stepAt r.precision (steps r.precision r.max.toRat - 2) ∨
      |r.max.toRat * 10 ^ r.precision| + 3 ≤ 2 ^ 53 *
        (r.max.toRat * 10 ^ r.precision - (steps r.precision r.max.toRat - 1 / 2))

namespace Proper

variable (h : r.Proper)

include h

theorem accepted : r.Accepted :=
  ⟨h.min_finite, h.max_finite, not_lt_of_le (Binary64.le_of_lt h.lt), h.precision_le⟩

theorem isNearest_stepAt (k : ℤ) :
    (stepAt r.precision k).IsNearest (k / 10 ^ r.precision) :=
  Binary64.isNearest_stepAt k (h.precision_lt.le.trans (by decide))

theorem exists_nearest_of_hasStep (hs : r.HasStep) : ∃ k : ℤ,
    nearest r.min.toRat ≤ nearest (k / 10 ^ r.precision) ∧
      nearest (k / 10 ^ r.precision) < nearest r.max.toRat := by
  obtain ⟨k, hmin, hmax⟩ := hs
  exact ⟨k, ((h.isNearest_stepAt k).le_iff h.min_finite).mp hmin,
    ((h.isNearest_stepAt k).lt_iff h.max_finite).mp hmax⟩

/-! The number taken for the upper bound. -/

theorem written_max_below_lt (hmin : nearest r.min.toRat ≤ nearest (k / 10 ^ r.precision))
    (hmax : nearest (k / 10 ^ r.precision) < nearest r.max.toRat) :
    written r.precision (r.below.max r.min).toRat < r.max.toRat := by
  have hfin := h.accepted.isFinite_max_below h.lt
  have hvalue := valueAt_nearest_toRat h.max_finite
  rw [Binary64.max] at hfin ⊢
  split
  case isTrue =>
    rw [← valueAt_nearest_toRat h.min_finite, ← hvalue]
    exact written_lt_of_step h.precision_le hmin hmax
  case isFalse hnot =>
    rw [if_neg hnot] at hfin
    have hstep := hasValue_step h.precision_lt
    have hnear := isNearest_sub h.max_finite hstep.isFinite
    rw [hstep.toRat_eq, ← hvalue] at hnear
    rcases below_cases h.min_finite h.max_finite h.lt with ⟨heq, hlt⟩ | ⟨hlt, hpred⟩
    · rw [heq] at hfin hlt ⊢
      rw [hnear.toRat_eq hfin]
      exact (written_lt_of_nearest_sub h.precision_le
        ((hnear.lt_iff h.max_finite).mp hlt) rfl).trans_eq hvalue
    · rw [hnear.lt_iff h.max_finite, not_lt] at hlt
      rw [hpred.toRat_eq, ← hvalue, nearest_valueAt]
      exact written_lt_of_le_nearest_sub h.precision_le hlt

/-- If a step below the bound reads back as the bound, it lies between the bound and every number
below it. -/
theorem written_lt_of_max_le_nearest (hk : k / 10 ^ r.precision < r.max.toRat)
    (hread : nearest r.max.toRat ≤ nearest (k / 10 ^ r.precision)) (hx : x.isFinite)
    (hlt : x < r.max) : written r.precision x.toRat < r.max.toRat := by
  rw [(isNearest_toRat hx).lt_iff h.max_finite] at hlt
  have hstep : x.toRat < k / 10 ^ r.precision := lt_of_nearest_lt (hlt.trans_le hread)
  exact (written_le_step hstep.le).trans_lt hk

/-! The number drawn is not above the upper bound. -/

theorem toRat_width : (r.max - r.min).toRat = valueAt (nearest (r.max.toRat - r.min.toRat)) :=
  (isNearest_sub h.max_finite h.min_finite).toRat_eq h.width_finite

omit h in
theorem toRat_unit_le (h₀ : 0 ≤ u) (h₁ : u < 1) :
    (2 * binadeCount : ℕ) * (1 - u.toRat) ≥ 1 := by
  have hu := isFinite_of_unit h₀ h₁
  have hone := hasValue_one.valueAt_nearest
  have hlt := ((isNearest_toRat hu).lt_iff hasValue_one.isFinite).mp h₁
  rw [hasValue_one.toRat_eq] at hlt
  have hle := valueAt_mono (Int.le_sub_one_of_lt hlt)
  have hgap := abs_valueAt_le (nearest 1)
  rw [valueAt_nearest_toRat hu, valueAt_sub_one] at hle
  rw [hone, abs_one] at hgap
  refine hgap.trans (mul_le_mul_of_nonneg_left ?_ (Nat.cast_nonneg _))
  linarith

theorem exists_width_eq : ∃ n : ℕ, r.max.toRat - r.min.toRat = n / one := by
  obtain ⟨z, hz⟩ := exists_toRat_sub_eq h.max_finite h.min_finite
  have hpos := sub_pos.mpr h.toRat_lt
  rw [hz, div_pos_iff_of_pos_right one_cast_pos, Int.cast_pos] at hpos
  obtain ⟨n, rfl⟩ := Int.eq_ofNat_of_zero_le hpos.le
  exact ⟨n, by rw [hz, Int.cast_natCast]⟩

/-- A part of the difference is not larger than the exact difference, although it is a part of the
rounded one: that is exact where rounding leads up to it. -/
theorem part_le (h₀ : 0 ≤ u) (h₁ : u < 1) :
    valueAt (nearest (u.toRat * (r.max - r.min).toRat)) ≤ r.max.toRat - r.min.toRat := by
  have hlt := h.toRat_lt
  have hunit := toRat_unit_le h₀ h₁
  obtain ⟨n, hn⟩ := h.exists_width_eq
  have hwidth := h.toRat_width
  have hnonneg := h.width_nonneg
  generalize (r.max - r.min).toRat = width at *
  generalize r.max.toRat - r.min.toRat = d at *
  have hle : nearest (u.toRat * width) ≤ nearest d := by
    rw [← nearest_valueAt (nearest d), ← hwidth]
    exact nearest_mono (mul_le_of_le_one_left hnonneg (toRat_unit h₀ h₁).2.le)
  have hlow := nearest_le d
  have hprev := valueAt_sub_one (nearest d)
  have hpos := gap_pos (nearest d)
  rcases hle.lt_or_eq with hlt' | heq
  · have := valueAt_mono (Int.le_sub_one_of_lt hlt')
    linarith
  · have hpart := nearest_le (u.toRat * width)
    rw [heq] at hpart ⊢
    have hgap : width ≤ binadeCount * gap (nearest d) := by
      have hmul := mul_le_mul_of_nonneg_left
        (show 2 * (width * (1 - u.toRat)) ≤ gap (nearest d) by linarith)
        (Nat.cast_nonneg (α := ℚ) binadeCount)
      have hunit := mul_le_mul_of_nonneg_left hunit hnonneg
      rw [Nat.cast_mul, Nat.cast_two] at hunit
      linarith
    have hsmall := le_binadeCount_of_valueAt_le (hwidth ▸ hgap)
    rw [hn] at hsmall ⊢
    exact (valueAt_nearest_of_le hsmall).le

theorem value_le_max (h₀ : 0 ≤ u) (h₁ : u < 1) : r.value u ≤ r.max := by
  refine (h.isNearest_value h₀ h₁).le (isNearest_toRat h.max_finite) ?_
  have := h.part_le h₀ h₁
  linarith

/-! The step taken for a number that is written below the lower bound. -/

theorem gap_min_le {q : ℚ} (hq : r.min.toRat ≤ q)
    (hshown : nearest (written r.precision q) < nearest r.min.toRat) :
    gap (nearest r.min.toRat) * 10 ^ r.precision ≤ 1 := by
  have hhigh := le_nearest (written r.precision q)
  have hprev := valueAt_mono (Int.le_sub_one_of_lt hshown)
  have hself := valueAt_mono (Int.add_one_le_of_lt hshown)
  rw [valueAt_sub_one] at hprev
  rw [valueAt_nearest_toRat h.min_finite] at hself hprev
  have hhalf := (abs_le.mp (abs_written_sub_le r.precision q)).1
  have hmul := mul_le_mul_of_nonneg_right
    (show gap (nearest r.min.toRat) ≤ 2 * (q - written r.precision q) by linarith)
    (ten_pow_pos r.precision).le
  linarith

theorem abs_scaled_min_le {q : ℚ} (hq : r.min.toRat ≤ q)
    (hshown : nearest (written r.precision q) < nearest r.min.toRat) :
    |r.min.toRat * 10 ^ r.precision| ≤ (2 * binadeCount : ℕ) := by
  have hpos := ten_pow_pos r.precision
  have habs := abs_valueAt_le (nearest r.min.toRat)
  rw [valueAt_nearest_toRat h.min_finite] at habs
  rw [abs_mul, abs_of_pos hpos]
  calc |r.min.toRat| * 10 ^ r.precision
      ≤ (2 * binadeCount : ℕ) * gap (nearest r.min.toRat) * 10 ^ r.precision :=
        mul_le_mul_of_nonneg_right habs hpos.le
    _ = (2 * binadeCount : ℕ) * (gap (nearest r.min.toRat) * 10 ^ r.precision) := mul_assoc _ _ _
    _ ≤ (2 * binadeCount : ℕ) :=
        mul_le_of_le_one_right (Nat.cast_nonneg _) (h.gap_min_le hq hshown)

theorem exists_above {q : ℚ} (hq : r.min.toRat ≤ q)
    (hshown : nearest (written r.precision q) < nearest r.min.toRat) :
    ∃ c : ℤ, r.above.IsNearest (c / 10 ^ r.precision) ∧
      valueAt (nearest (r.min.toRat * 10 ^ r.precision)) ≤ c ∧
      ∀ z : ℤ, r.min.toRat ≤ z / 10 ^ r.precision → c ≤ z := by
  have hpos := ten_pow_pos r.precision
  have hpow := hasValue_powNat_ten h.precision_lt
  have hprod := isNearest_mul h.min_finite hpow.isFinite
  rw [hpow.toRat_eq] at hprod
  obtain ⟨c, hceil, hle, hc⟩ := hprod.exists_ceil (h.abs_scaled_min_le hq hshown)
  have hnear := isNearest_div hceil.isFinite hpow.isFinite (hpow.toRat_eq.trans_ne hpos.ne')
  rw [hceil.toRat_eq, hpow.toRat_eq] at hnear
  exact ⟨c, hnear, hle, fun z hz => hc z ((le_div_iff₀ hpos).mp hz)⟩

theorem steps_min_lt {c : ℤ} (hoff : r.MinOffStep)
    (hscaled : |r.min.toRat * 10 ^ r.precision| ≤ (2 * binadeCount : ℕ))
    (hshown : r.min.snap r.precision < r.min)
    (hc : valueAt (nearest (r.min.toRat * 10 ^ r.precision)) ≤ c) :
    steps r.precision r.min.toRat < c := by
  have hpos := ten_pow_pos r.precision
  have hoff := hoff hshown
  rw [(h.isNearest_snap h.min_finite).lt_iff h.min_finite, written] at hshown
  have hlt := lt_of_nearest_lt hshown
  have hnear := abs_nearestWhole_sub_le (r.min.toRat * 10 ^ r.precision)
  rw [div_lt_iff₀ hpos] at hlt
  rw [← steps] at hnear
  rw [← Int.cast_lt (R := ℚ)]
  refine lt_of_lt_of_le ?_ hc
  rcases eq_or_ne (steps r.precision r.min.toRat) 0 with hzero | hne
  · -- a positive number is scaled to a positive one
    rw [hzero, Int.cast_zero, zero_div, nearest_zero] at hshown
    rw [hzero, Int.cast_zero] at hlt ⊢
    have hle := le_mul_of_one_le_right ((pos_of_mul_pos_left hlt hpos.le)).le
      (one_le_pow₀ (by norm_num : (1 : ℚ) ≤ 10) : (1 : ℚ) ≤ 10 ^ r.precision)
    rw [← valueAt_zero, valueAt_lt_iff]
    exact hshown.trans_le (nearest_mono hle)
  · refine intCast_lt_valueAt_nearest ?_ hne hnear (by rwa [two_mul_binadeCount_cast])
    have hhalf : |(steps r.precision r.min.toRat : ℚ)| < ((2 * binadeCount : ℕ) + 1 : ℤ) := by
      have := abs_sub_abs_le_abs_sub (steps r.precision r.min.toRat : ℚ)
        (r.min.toRat * 10 ^ r.precision)
      push_cast at hscaled ⊢
      linarith
    rw [← Int.cast_abs, Int.cast_lt] at hhalf
    exact Int.lt_add_one_iff.mp hhalf

theorem min_le_above (hoff : r.MinOffStep) (hshown : r.min.snap r.precision < r.min) :
    r.min ≤ r.above := by
  have hshown' := hshown
  rw [(h.isNearest_snap h.min_finite).lt_iff h.min_finite] at hshown'
  obtain ⟨c, hc, hle, -⟩ := h.exists_above le_rfl hshown'
  have hlt := h.steps_min_lt hoff (h.abs_scaled_min_le le_rfl hshown') hshown hle
  have hnear := (abs_le.mp (abs_nearestWhole_sub_le (r.min.toRat * 10 ^ r.precision))).1
  have hone : (steps r.precision r.min.toRat : ℚ) + 1 ≤ c := by exact_mod_cast hlt
  rw [← steps] at hnear
  rw [hc.le_iff h.min_finite]
  refine nearest_mono ?_
  rw [le_div_iff₀ (ten_pow_pos _)]
  linarith

/-! The number taken for the upper bound is written in the range. -/

theorem nearest_le_written (hx : x.isFinite)
    (hk : nearest (k / 10 ^ r.precision) ≤ nearest x.toRat) :
    nearest (k / 10 ^ r.precision) ≤ nearest (written r.precision x.toRat) := by
  rw [← valueAt_nearest_toRat hx]
  exact Binary64.nearest_le_written h.precision_le hk

theorem lt_steps_max (hshown : r.max ≤ r.max.snap r.precision)
    (hmax : nearest (k / 10 ^ r.precision) < nearest r.max.toRat) :
    k < steps r.precision r.max.toRat := by
  rw [(h.isNearest_snap h.max_finite).le_iff h.max_finite] at hshown
  have hlt := lt_of_nearest_lt (hmax.trans_le hshown)
  rwa [written, div_lt_div_iff_of_pos_right (ten_pow_pos _), Int.cast_lt] at hlt

theorem nearest_sub_le (hfar : nearest (r.below.max r.min).toRat < nearest r.max.toRat - 1) :
    nearest (r.max.toRat - valueAt (nearest (1 / 10 ^ r.precision))) ≤
      nearest (r.below.max r.min).toRat := by
  have hfin := h.accepted.isFinite_max_below h.lt
  have hbelow : r.below ≤ r.below.max r.min := le_max_left_of_lt (h.accepted.below_lt h.lt)
  rcases below_cases h.min_finite h.max_finite h.lt with ⟨heq, -⟩ | ⟨-, hpred⟩
  · have hstep := hasValue_step h.precision_lt
    have hnear := isNearest_sub h.max_finite hstep.isFinite
    rw [← heq, hstep.toRat_eq] at hnear
    exact (hnear.ge_iff hfin).mp hbelow
  · rw [(isNearest_toRat hpred.isFinite).ge_iff hfin, hpred.toRat_eq, nearest_valueAt] at hbelow
    exact absurd hfar hbelow.not_gt

theorem min_le_written_max_below (hs : r.HasStep) (hoff : r.MaxOffMiddle)
    (hshown : r.max ≤ r.max.snap r.precision) :
    nearest r.min.toRat ≤ nearest (written r.precision (r.below.max r.min).toRat) := by
  have hpos := ten_pow_pos r.precision
  have hfin := h.accepted.isFinite_max_below h.lt
  obtain ⟨k, hmin, hmax⟩ := h.exists_nearest_of_hasStep hs
  rcases le_or_gt (nearest (k / 10 ^ r.precision)) (nearest (r.below.max r.min).toRat) with
    hle | hgt
  · exact hmin.trans (h.nearest_le_written hfin hle)
  -- the step lies between what is taken for the bound and the bound
  have hlow := h.nearest_sub_le (hgt.trans_le (Int.le_sub_one_of_lt hmax))
  have hfar := (hlow.trans_lt hgt).trans_le (Int.le_sub_one_of_lt hmax)
  have hvalue := mul_le_mul_of_nonneg_right
    ((valueAt_mono hlow).trans_eq (valueAt_nearest_toRat hfin)) hpos.le
  rcases hoff hshown with hwide | hoff
  · rw [(h.isNearest_stepAt _).le_iff h.min_finite] at hwide
    refine hwide.trans (nearest_mono ?_)
    rw [written, div_le_div_iff_of_pos_right hpos, Int.cast_le]
    refine le_nearestWhole (lt_of_lt_of_le ?_ hvalue)
    push_cast
    exact sub_two_steps_lt h.max_finite h.precision_lt hfar
  · refine hmin.trans (nearest_mono ?_)
    rw [written, div_le_div_iff_of_pos_right hpos, Int.cast_le]
    refine (Int.le_sub_one_of_lt (h.lt_steps_max hshown hmax)).trans
      (le_nearestWhole (lt_of_lt_of_le ?_ hvalue))
    push_cast
    exact sub_one_step_lt h.max_finite h.precision_lt hoff

/-! What is settled on. -/

theorem written_above (hshown : r.min.snap r.precision < r.min) (hset : r.above.isFinite)
    (hlt : r.above < r.max) :
    written r.precision r.above.toRat < r.max.toRat ∧
      nearest r.above.toRat ≤ nearest (written r.precision r.above.toRat) := by
  rw [(h.isNearest_snap h.min_finite).lt_iff h.min_finite] at hshown
  obtain ⟨c, hc, -⟩ := h.exists_above le_rfl hshown
  have hk := hc.nearest_eq hset
  rw [(isNearest_toRat hset).lt_iff h.max_finite] at hlt
  constructor
  · have hwritten := written_lt_of_step h.precision_le hk.ge (hk.trans_lt hlt)
    rwa [valueAt_nearest_toRat hset, valueAt_nearest_toRat h.max_finite] at hwritten
  · rw [← hk]
    exact h.nearest_le_written hset hk.le

theorem above_lt_max (hx : r.min.toRat ≤ x.toRat)
    (hshown : nearest (written r.precision x.toRat) < nearest r.min.toRat)
    (hmin : nearest r.min.toRat ≤ nearest (k / 10 ^ r.precision))
    (hmax : nearest (k / 10 ^ r.precision) < nearest r.max.toRat) : r.above < r.max := by
  obtain ⟨c, hc, -, hleast⟩ := h.exists_above hx hshown
  have hlt : x.toRat < k / 10 ^ r.precision := by
    by_contra! hle
    exact hshown.not_ge (hmin.trans (nearest_mono (step_le_written hle)))
  have hck := hleast k (hx.trans hlt.le)
  rw [hc.lt_iff h.max_finite]
  refine (nearest_mono ?_).trans_lt hmax
  exact div_le_div_of_nonneg_right (Int.cast_le.mpr hck) (ten_pow_pos _).le

theorem snap_mono (hx : x.isFinite) (hy : y.isFinite) (hle : x ≤ y) :
    x.snap r.precision ≤ y.snap r.precision :=
  (h.isNearest_snap hx).le (h.isNearest_snap hy) (written_mono ((le_iff_toRat hx hy).mp hle))

theorem written_settle_lt (hmin : nearest r.min.toRat ≤ nearest (k / 10 ^ r.precision))
    (hk : k / 10 ^ r.precision < r.max.toRat) (hx : r.min ≤ x) :
    written r.precision (r.settle x).toRat < r.max.toRat := by
  have hset := h.accepted.isFinite_settle h.lt hx
  rcases settle_cases h.min_finite h.max_finite h.lt hx with
    ⟨-, heq⟩ | ⟨hfin, hshown, ⟨hlow, hlt, heq⟩ | ⟨-, heq⟩⟩
  · rw [heq]
    rcases lt_or_ge (nearest (k / 10 ^ r.precision)) (nearest r.max.toRat) with hlt | hge
    · exact h.written_max_below_lt hmin hlt
    · exact h.written_lt_of_max_le_nearest hk hge (h.accepted.isFinite_max_below h.lt)
        (h.accepted.max_below_lt h.lt)
  · rw [heq] at hset ⊢
    exact (h.written_above (Binary64.lt_of_le_of_lt (h.snap_mono h.min_finite hfin hx) hlow)
      hset hlt).1
  · rw [(h.isNearest_snap hfin).le_iff h.max_finite, not_le] at hshown
    rw [heq]
    exact (lt_valueAt_of_nearest_lt hshown).trans_eq (valueAt_nearest_toRat h.max_finite)

theorem min_le_written_settle (hs : r.HasStep) (hup : r.MinOffStep) (hdown : r.MaxOffMiddle)
    (hx : r.min ≤ x) (hx' : x ≤ r.max) :
    nearest r.min.toRat ≤ nearest (written r.precision (r.settle x).toRat) := by
  obtain ⟨k, hmin, hmax⟩ := h.exists_nearest_of_hasStep hs
  have hfin := isFinite_of_le_of_le h.min_finite h.max_finite hx hx'
  have hset := h.accepted.isFinite_settle h.lt hx
  rcases settle_cases h.min_finite h.max_finite h.lt hx with
    ⟨hshown, heq⟩ | ⟨-, -, ⟨hlow, hlt, heq⟩ | ⟨hnot, heq⟩⟩
  · rw [heq]
    exact h.min_le_written_max_below hs hdown
      (Binary64.le_trans hshown (h.snap_mono hfin h.max_finite hx'))
  · rw [heq] at hset ⊢
    have hshown := Binary64.lt_of_le_of_lt (h.snap_mono h.min_finite hfin hx) hlow
    exact (nearest_mono ((le_iff_toRat h.min_finite hset).mp
      (h.min_le_above hup hshown))).trans (h.written_above hshown hset hlt).2
  · rw [heq]
    by_contra! hlow
    exact hnot ⟨((h.isNearest_snap hfin).lt_iff h.min_finite).mpr hlow,
      h.above_lt_max ((le_iff_toRat h.min_finite hfin).mp hx) hlow hmin hmax⟩

end Proper

/-- If a step below the upper bound reads back from the lower one on, the exact value of what is written
is below the upper bound.  If a step reads back in the range, what is written is at or above the lower
bound or reads back as that bound, unless rounding leads from the lower bound to a step below it, or
in a narrow range from the upper bound to the middle between steps. -/
theorem render_of_hasStep (h : r.Proper)
    (hs : ∃ k : ℤ, r.min ≤ stepAt r.precision k ∧ (k / 10 ^ r.precision : ℚ) < r.max.toRat)
    (h₀ : 0 ≤ u) (h₁ : u < 1) :
    ∃ (d : ℚ) (x : Binary64), Decimal.value? (r.render u) = some d ∧
      Binary64.read? (r.render u) = some x ∧ d < r.max.toRat ∧
      (r.HasStep → r.MinOffStep → r.MaxOffMiddle →
        r.min ≤ x ∧ (r.min.toRat ≤ d ∨ x.toRat = r.min.toRat)) := by
  have hplaces : r.precision ≤ 400 := h.precision_lt.le.trans (by decide)
  have hmin := h.min_le_value h₀ h₁
  have hfin := h.accepted.isFinite_settle h.lt hmin
  have hsnap := h.isNearest_snap hfin
  obtain ⟨k, hstep, hk⟩ := hs
  rw [(h.isNearest_stepAt k).le_iff h.min_finite] at hstep
  refine ⟨_, _, value?_renderPlaces _ hfin, read?_renderPlaces hfin hplaces,
    h.written_settle_lt hstep hk hmin, fun hs hup hdown => ?_⟩
  have hlow := h.min_le_written_settle hs hup hdown hmin (h.value_le_max h₀ h₁)
  refine ⟨(hsnap.le_iff h.min_finite).mpr hlow, ?_⟩
  rcases le_or_gt r.min.toRat (written r.precision (r.settle (r.value u)).toRat) with hle | hlt
  · exact .inl hle
  · have heq := le_antisymm (nearest_mono hlt.le) hlow
    rw [hsnap.toRat_eq (isFinite_snap hfin hplaces), heq, valueAt_nearest_toRat h.min_finite]
    exact .inr rfl

/-- Between 2.5 and 3.6, in whole steps, the lowest draw is stepped up and the highest one down. -/
theorem render_of_hasStep_narrow :
    let r : NumberRange := ⟨ofDecimal ⟨false, 25, -1⟩, ofDecimal ⟨false, 36, -1⟩, 0⟩
    r.Proper ∧ r.HasStep ∧ r.MinOffStep ∧ r.MaxOffMiddle ∧
      (0 : Binary64) < FixedSource.greatest ∧ FixedSource.greatest < 1 ∧
      r.render 0 = "3" ∧ r.render FixedSource.greatest = "3" ∧
      ∃ (d : ℚ) (x : Binary64), Decimal.value? "3" = some d ∧ Binary64.read? "3" = some x ∧
        d < r.max.toRat ∧ r.min ≤ x ∧ (r.min.toRat ≤ d ∨ x.toRat = r.min.toRat) := by
  intro r
  have h : r.Proper := by decide +kernel
  have hread : r.min ≤ stepAt r.precision 3 := by decide +kernel
  have hk : ((3 : ℤ) / 10 ^ r.precision : ℚ) < r.max.toRat := by decide +kernel
  have hs : r.HasStep := ⟨3, hread, by decide +kernel⟩
  have hup : r.MinOffStep := show r.min.snap r.precision < r.min → _ < _ by decide +kernel
  have hdown : r.MaxOffMiddle := fun _ => .inr (show _ ≤ _ by decide +kernel)
  have h₀ : (0 : Binary64) < FixedSource.greatest := by decide +kernel
  have h₁ : FixedSource.greatest < 1 := by decide +kernel
  have hlowest : r.render 0 = "3" := by decide +kernel
  have htext : r.render FixedSource.greatest = "3" := by decide +kernel
  obtain ⟨d, x, hd, hx, hmax, hmin⟩ :=
    render_of_hasStep h ⟨3, hread, hk⟩ (Binary64.le_of_lt h₀) h₁
  rw [htext] at hd hx
  exact ⟨h, hs, hup, hdown, h₀, h₁, hlowest, htext, d, x, hd, hx, hmax, hmin hs hup hdown⟩

/-- A step lies in the range, but for the fraction `u` a text below the lower bound is written. -/
structure RendersBelow (r : NumberRange) (u : Binary64) (text : String) : Prop where
  proper : r.Proper
  exists_step : ∃ k : ℤ, r.min.toRat ≤ k / 10 ^ r.precision ∧ k / 10 ^ r.precision < r.max.toRat
  nonneg : 0 ≤ u
  lt_one : u < 1
  render_eq : r.render u = text
  exists_value : ∃ d, Decimal.value? text = some d ∧ d < r.min.toRat

/-- The highest draw between 2.5 and 3.5 is stepped down to the middle between two and three, and
written as the even one of them.  Times ten, a bound just above 879.3 is rounded to 8793, so nothing
is stepped up. -/
theorem render_below_min :
    RendersBelow ⟨ofDecimal ⟨false, 25, -1⟩, ofDecimal ⟨false, 35, -1⟩, 0⟩
      FixedSource.greatest "2" ∧
    RendersBelow ⟨ofDecimal ⟨false, 8793000000000001, -13⟩, ofDecimal ⟨false, 8796, -1⟩, 1⟩
      0 "879.3" := by
  constructor
  · exact
      { proper := by decide +kernel
        exists_step := ⟨3, by decide +kernel, by decide +kernel⟩
        nonneg := by decide +kernel
        lt_one := by decide +kernel
        render_eq := by decide +kernel
        exists_value := ⟨2, by decide +kernel, by decide +kernel⟩ }
  · exact
      { proper := by decide +kernel
        exists_step := ⟨8794, by decide +kernel, by decide +kernel⟩
        nonneg := by decide +kernel
        lt_one := by decide +kernel
        render_eq := by decide +kernel
        exists_value := ⟨8793 / 10, by decide +kernel, by decide +kernel⟩ }

end BillGrammar.NumberRange
