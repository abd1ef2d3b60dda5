import BillGrammar.Proofs.Placeholder.Drawn
import BillGrammar.Source.Fixed

/-!
Ranges with whole bounds: what is written lies in the range and keeps the order of the draws.

A draw that would be written as the upper bound is written as the number `below` it instead.  No
number that is written below the bound is written higher than that one.
-/

namespace BillGrammar.NumberRange

open Binary64

variable {r : NumberRange} {u w x y : Binary64} {q : ℚ} {m n : ℤ}

structure Whole (r : NumberRange) : Prop extends Proper r where
  exists_min : ∃ m : ℤ, r.min.toRat = m
  exists_max : ∃ n : ℤ, r.max.toRat = n

namespace Whole

variable (h : r.Whole)

include h

theorem toRat_add_one_le : r.min.toRat + 1 ≤ r.max.toRat := by
  have hlt := h.toRat_lt
  obtain ⟨m, hm⟩ := h.exists_min
  obtain ⟨n, hn⟩ := h.exists_max
  rw [hm, hn] at hlt ⊢
  exact_mod_cast Int.add_one_le_of_lt (by exact_mod_cast hlt)

theorem exists_below (hq : (1 / powNat 10 r.precision : Binary64).HasValue q) (hq₀ : 0 ≤ q)
    (hq₁ : q ≤ 1) : ∃ b, r.below.HasValue (valueAt b) ∧ r.min.toRat ≤ valueAt b ∧
      IsStep q b (nearest r.max.toRat) := by
  have hone := h.toRat_add_one_le
  have hmin := valueAt_nearest_toRat h.min_finite
  have hmax := valueAt_nearest_toRat h.max_finite
  have hnear := isNearest_sub h.max_finite hq.isFinite
  rw [hq.toRat_eq] at hnear
  have hfin := hnear.isFinite_of_mem h.min_finite h.max_finite ⟨by linarith, by linarith⟩
  rcases below_cases h.min_finite h.max_finite h.lt with ⟨heq, hlt⟩ | ⟨hnot, hpred⟩
  · rw [heq] at hlt ⊢
    rw [lt_iff_toRat hfin h.max_finite, hnear.toRat_eq hfin] at hlt
    have hle := valueAt_mono (nearest_mono (show r.min.toRat ≤ r.max.toRat - q by linarith))
    obtain ⟨n, hn⟩ := h.exists_max
    exact ⟨_, ⟨hfin, hnear.toRat_eq hfin⟩, hmin.symm.trans_le hle,
      isStep_of_whole (hmax.trans hn) hq₁ hq.valueAt_nearest (by rw [hmax])
        (by rwa [← valueAt_lt_iff, hmax])⟩
  · rw [lt_iff_toRat hfin h.max_finite, hnear.toRat_eq hfin, not_lt] at hnot
    have hrank : nearest (r.max.toRat - q) = nearest r.max.toRat :=
      le_antisymm (nearest_mono (by linarith)) (by rwa [← valueAt_le_iff, hmax])
    have hle : nearest r.min.toRat ≤ nearest r.max.toRat - 1 :=
      Int.le_sub_one_of_lt (by rw [← valueAt_lt_iff, hmin, hmax]; linarith)
    exact ⟨_, hpred, hmin.symm.trans_le (valueAt_mono hle), isStep_sub_one (by rw [hmax, hrank])⟩

theorem exists_max_below : ∃ t, (r.below.max r.min).HasValue t ∧ r.min.toRat ≤ t ∧
    written r.precision t < r.max.toRat ∧ ∀ x : Binary64, x.isFinite →
      written r.precision x.toRat < r.max.toRat →
      written r.precision x.toRat ≤ written r.precision t := by
  obtain ⟨q, hq, ⟨hq₀, hq₁⟩, hlow, hhigh⟩ := exists_hasValue_step h.precision_lt
  have hpos := ten_pow_pos r.precision
  obtain ⟨b, hb, hmin, hstep⟩ := h.exists_below hq hq₀ hq₁
  have htop := hasValue_max hb h.min_finite
    ((le_iff_toRat h.min_finite hb.isFinite).mpr (hb.toRat_eq.symm ▸ hmin))
  obtain ⟨-, hnear, hfar⟩ := hstep
  rw [valueAt_nearest_toRat h.max_finite] at hnear hfar
  obtain ⟨n, hn⟩ := h.exists_max
  rw [hn] at hnear hfar ⊢
  refine ⟨_, htop, hmin, written_lt_intCast ?_, fun x hx hxn => ?_⟩
  · have := mul_le_mul_of_nonneg_right hnear hpos.le
    linarith
  · have hx' := valueAt_nearest_toRat hx
    rcases le_or_gt (nearest x.toRat) b with hle | hgt
    · exact written_mono (hx'.symm.trans_le (valueAt_mono hle))
    · -- the number lies strictly between `below` and the bound
      have hlt : nearest x.toRat < nearest n := by
        rw [← valueAt_lt_iff, hx', ← hn, valueAt_nearest_toRat h.max_finite, hn]
        exact lt_of_written_lt_intCast hxn
      have := mul_le_mul_of_nonneg_right (hfar (by omega)) hpos.le
      exact written_le_of_lt_intCast (by linarith) hxn

theorem min_le_written (hq : r.min.toRat ≤ q) : r.min.toRat ≤ written r.precision q := by
  have hle : written r.precision r.min.toRat ≤ written r.precision q := written_mono hq
  obtain ⟨m, hm⟩ := h.exists_min
  rw [hm] at hle ⊢
  rwa [written_intCast] at hle

theorem settle_eq (hx : r.min ≤ x) :
    r.settle x = if r.max ≤ x.snap r.precision then r.below.max r.min else x := by
  rcases settle_cases h.min_finite h.max_finite h.lt hx with
    ⟨hshown, heq⟩ | ⟨hfin, hshown, ⟨hlow, -, -⟩ | ⟨-, heq⟩⟩
  · rw [heq, if_pos hshown]
  · rw [le_iff_toRat h.min_finite hfin] at hx
    have hle := (isNearest_toRat h.min_finite).le (h.isNearest_snap hfin) (h.min_le_written hx)
    exact absurd hlow (not_lt_of_le hle)
  · rw [heq, if_neg hshown]

theorem settle_mem (hx : r.min ≤ x) : (r.settle x).isFinite ∧
    r.min.toRat ≤ written r.precision (r.settle x).toRat ∧
    written r.precision (r.settle x).toRat < r.max.toRat := by
  obtain ⟨t, ht, hmin, hmax, -⟩ := h.exists_max_below
  rw [h.settle_eq hx]
  split
  · exact ⟨ht.isFinite, ht.toRat_eq ▸ h.min_le_written hmin, ht.toRat_eq ▸ hmax⟩
  · next hshown =>
    have hfin := h.isFinite_of_not_le_snap hx hshown
    rw [le_iff_toRat h.min_finite hfin] at hx
    refine ⟨hfin, h.min_le_written hx, ?_⟩
    by_contra! hge
    exact hshown ((isNearest_toRat h.max_finite).le (h.isNearest_snap hfin) hge)

theorem settle_mono (hx : r.min ≤ x) (hxy : x ≤ y) :
    written r.precision (r.settle x).toRat ≤ written r.precision (r.settle y).toRat := by
  obtain ⟨t, ht, hmin, -, htop⟩ := h.exists_max_below
  have hy := Binary64.le_trans hx hxy
  by_cases hshown : r.max ≤ y.snap r.precision
  · obtain ⟨hfin, -, hlt⟩ := h.settle_mem hx
    rw [h.settle_eq hy, if_pos hshown, ht.toRat_eq]
    exact htop _ hfin hlt
  · have hfin := h.isFinite_of_not_le_snap hy hshown
    have hfin' := isFinite_of_le_of_le h.min_finite hfin hx hxy
    rw [le_iff_toRat hfin' hfin] at hxy
    have hshown' : ¬r.max ≤ x.snap r.precision := fun hle =>
      hshown (Binary64.le_trans hle ((h.isNearest_snap hfin').le (h.isNearest_snap hfin)
        (written_mono hxy)))
    rw [h.settle_eq hx, h.settle_eq hy, if_neg hshown, if_neg hshown']
    exact written_mono hxy

end Whole

/-- Between whole bounds, a number is written with exactly the places of the precision, lies in the
range, and is not lower for a higher fraction. -/
theorem render_whole (h : r.Whole) : ∃ v : Binary64 → ℚ,
    (∀ u, 0 ≤ u → u < 1 → Decimal.IsNumeral r.precision (r.render u).toList ∧
      Decimal.value? (r.render u) = some (v u) ∧ r.min.toRat ≤ v u ∧ v u < r.max.toRat) ∧
    ∀ u w, 0 ≤ u → u ≤ w → w < 1 → v u ≤ v w := by
  refine ⟨fun u => written r.precision (r.settle (r.value u)).toRat, fun u h₀ h₁ => ?_,
    fun u w h₀ hle h₁ => ?_⟩
  · obtain ⟨hfin, hmin, hmax⟩ := h.settle_mem (h.min_le_value h₀ h₁)
    exact ⟨isNumeral_renderPlaces _ hfin, value?_renderPlaces _ hfin, hmin, hmax⟩
  · have h₁' := Binary64.lt_of_le_of_lt hle h₁
    exact h.settle_mono (h.min_le_value h₀ h₁') (h.value_mono h₀ hle h₁)

def hundreds : NumberRange := ⟨100, 200, 2⟩

theorem render_whole_hundreds : hundreds.Whole ∧
    (0 : Binary64) ≤ FixedSource.half ∧ FixedSource.half ≤ FixedSource.greatest ∧
    FixedSource.greatest < 1 ∧ hundreds.render FixedSource.half = "150.00" ∧
    hundreds.render FixedSource.greatest = "199.99" ∧
    ∃ v w, Decimal.value? "150.00" = some v ∧ Decimal.value? "199.99" = some w ∧
      hundreds.min.toRat ≤ v ∧ v ≤ w ∧ w < hundreds.max.toRat := by
  have h : hundreds.Whole :=
    { min_finite := by decide +kernel
      max_finite := by decide +kernel
      width_finite := by decide +kernel
      lt := by decide +kernel
      precision_le := by decide
      exists_min := ⟨100, by decide +kernel⟩
      exists_max := ⟨200, by decide +kernel⟩ }
  have h₀ : (0 : Binary64) ≤ FixedSource.half := by decide +kernel
  have hle : FixedSource.half ≤ FixedSource.greatest := by decide +kernel
  have h₁ : FixedSource.greatest < 1 := by decide +kernel
  have hhalf : hundreds.render FixedSource.half = "150.00" := by decide +kernel
  have hgreatest : hundreds.render FixedSource.greatest = "199.99" := by decide +kernel
  obtain ⟨v, hv, hmono⟩ := render_whole h
  obtain ⟨-, hvalue, hmin, -⟩ := hv _ h₀ (Binary64.lt_of_le_of_lt hle h₁)
  obtain ⟨-, hvalue', -, hmax⟩ := hv _ (Binary64.le_trans h₀ hle) h₁
  rw [hhalf] at hvalue
  rw [hgreatest] at hvalue'
  exact ⟨h, h₀, hle, h₁, hhalf, hgreatest, _, _, hvalue, hvalue', hmin, hmono _ _ h₀ hle h₁, hmax⟩

end BillGrammar.NumberRange
