import BillGrammar.Placeholder.NumberRange
import BillGrammar.Proofs.Binary64.Places
import BillGrammar.Proofs.Binary64.PowerOfTen

namespace BillGrammar.NumberRange

open Binary64

variable {r : NumberRange} {u w x y : Binary64}

structure Proper (r : NumberRange) : Prop where
  min_finite : r.min.isFinite
  max_finite : r.max.isFinite
  width_finite : (r.max - r.min).isFinite
  lt : r.min < r.max
  precision_le : r.precision ≤ maxPrecision

instance : Decidable r.Proper :=
  decidable_of_iff (r.min.isFinite ∧ r.max.isFinite ∧ (r.max - r.min).isFinite ∧ r.min < r.max ∧
      r.precision ≤ maxPrecision)
    ⟨fun ⟨hmin, hmax, hwidth, hlt, hp⟩ => ⟨hmin, hmax, hwidth, hlt, hp⟩,
      fun ⟨hmin, hmax, hwidth, hlt, hp⟩ => ⟨hmin, hmax, hwidth, hlt, hp⟩⟩

theorem isFinite_of_unit (h₀ : 0 ≤ u) (h₁ : u < 1) : u.isFinite :=
  isFinite_of_le_of_le hasValue_zero.isFinite hasValue_one.isFinite h₀ (Binary64.le_of_lt h₁)

theorem toRat_unit (h₀ : 0 ≤ u) (h₁ : u < 1) : 0 ≤ u.toRat ∧ u.toRat < 1 := by
  have hu := isFinite_of_unit h₀ h₁
  rw [le_iff_toRat hasValue_zero.isFinite hu, hasValue_zero.toRat_eq] at h₀
  rw [lt_iff_toRat hu hasValue_one.isFinite, hasValue_one.toRat_eq] at h₁
  exact ⟨h₀, h₁⟩

theorem isFinite_of_shown (hmin : r.min.isFinite) (hmax : r.max.isFinite) (hx : r.min ≤ x)
    (hshown : ¬r.max ≤ x.snap r.precision) : x.isFinite := by
  by_contra hfin
  rw [eq_infinite_of_le hmin hx hfin] at hshown
  exact hshown (le_infinite hmax)

theorem settle_cases (hmin : r.min.isFinite) (hmax : r.max.isFinite) (hlt : r.min < r.max)
    (hx : r.min ≤ x) :
    (r.max ≤ x.snap r.precision ∧ r.settle x = r.below.max r.min) ∨
      x.isFinite ∧ ¬r.max ≤ x.snap r.precision ∧
        (x.snap r.precision < r.min ∧ r.above < r.max ∧ r.settle x = r.above ∨
          ¬(x.snap r.precision < r.min ∧ r.above < r.max) ∧ r.settle x = x) := by
  rw [settle, if_neg fun hle => not_lt_of_le hle hlt]
  dsimp only
  split
  case isTrue hshown => exact .inl ⟨hshown, rfl⟩
  case isFalse hshown =>
    refine .inr ⟨isFinite_of_shown hmin hmax hx hshown, hshown, ?_⟩
    split
    case isTrue hlow => exact .inl ⟨hlow.1, hlow.2, rfl⟩
    case isFalse hnot => exact .inr ⟨hnot, rfl⟩

theorem below_cases (hmin : r.min.isFinite) (hmax : r.max.isFinite) (hlt : r.min < r.max) :
    (r.below = r.max - 1 / powNat 10 r.precision ∧ r.below < r.max) ∨
      ¬r.max - 1 / powNat 10 r.precision < r.max ∧
        r.below.HasValue (valueAt (nearest r.max.toRat - 1)) := by
  rw [below]
  split
  case isTrue hstep => exact .inl ⟨rfl, hstep⟩
  case isFalse hstep =>
    have hpred := Int.le_sub_one_of_lt (((isNearest_toRat hmin).lt_iff hmax).mp hlt)
    exact .inr ⟨hstep,
      hasValue_pred hmax ((abs_lt.mp (abs_nearest_toRat_lt hmin)).1.trans_le hpred)⟩

namespace Proper

variable (h : r.Proper)

include h

theorem precision_lt : r.precision < 23 := h.precision_le.trans_lt (by decide)

theorem toRat_lt : r.min.toRat < r.max.toRat := (lt_iff_toRat h.min_finite h.max_finite).mp h.lt

theorem width_nonneg : 0 ≤ (r.max - r.min).toRat := by
  rw [(isNearest_sub h.max_finite h.min_finite).toRat_eq h.width_finite]
  exact valueAt_nonneg (nearest_nonneg (sub_nonneg.mpr h.toRat_lt.le))

theorem hasValue_part (h₀ : 0 ≤ u) (h₁ : u < 1) : (u * (r.max - r.min)).HasValue
    (valueAt (nearest (u.toRat * (r.max - r.min).toRat))) := by
  obtain ⟨hu₀, hu₁⟩ := toRat_unit h₀ h₁
  have hnear := isNearest_mul (isFinite_of_unit h₀ h₁) h.width_finite
  have hfin := hnear.isFinite_of_mem hasValue_zero.isFinite h.width_finite
    ⟨hasValue_zero.toRat_eq.trans_le (mul_nonneg hu₀ h.width_nonneg),
      mul_le_of_le_one_left h.width_nonneg hu₁.le⟩
  exact ⟨hfin, hnear.toRat_eq hfin⟩

theorem isNearest_value (h₀ : 0 ≤ u) (h₁ : u < 1) : (r.value u).IsNearest
    (r.min.toRat + valueAt (nearest (u.toRat * (r.max - r.min).toRat))) := by
  have hpart := h.hasValue_part h₀ h₁
  rw [← hpart.toRat_eq]
  exact isNearest_add h.min_finite hpart.isFinite

theorem value_mono (h₀ : 0 ≤ u) (hle : u ≤ w) (h₁ : w < 1) : r.value u ≤ r.value w := by
  have hu₁ := Binary64.lt_of_le_of_lt hle h₁
  have hw₀ := Binary64.le_trans h₀ hle
  refine (h.isNearest_value h₀ hu₁).le (h.isNearest_value hw₀ h₁) ?_
  rw [le_iff_toRat (isFinite_of_unit h₀ hu₁) (isFinite_of_unit hw₀ h₁)] at hle
  gcongr
  exact valueAt_mono (nearest_mono (mul_le_mul_of_nonneg_right hle h.width_nonneg))

theorem min_le_value (h₀ : 0 ≤ u) (h₁ : u < 1) : r.min ≤ r.value u := by
  refine (isNearest_toRat h.min_finite).le (h.isNearest_value h₀ h₁) (le_add_of_nonneg_right ?_)
  exact valueAt_nonneg (nearest_nonneg (mul_nonneg (toRat_unit h₀ h₁).1 h.width_nonneg))

theorem isFinite_of_not_le_snap (hx : r.min ≤ x) (hshown : ¬r.max ≤ x.snap r.precision) :
    x.isFinite :=
  isFinite_of_shown h.min_finite h.max_finite hx hshown

theorem isNearest_snap (hx : x.isFinite) :
    (x.snap r.precision).IsNearest (written r.precision x.toRat) :=
  Binary64.isNearest_snap hx (h.precision_lt.le.trans (by decide))

end Proper

end BillGrammar.NumberRange
