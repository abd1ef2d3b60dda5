import BillGrammar.Proofs.Binary64.Nearest

namespace BillGrammar.Binary64

variable {j k m n : Nat} {q x : ℚ} {r s : ℤ}

theorem valueAt_gap_le (hr : 0 ≤ r) : 2 * valueAt r ≤ valueAt (r - 1) + valueAt (r + 1) := by
  lift r to ℕ using hr
  cases r with
  | zero => simp
  | succ k =>
    have h : (2 * units (k + 1) : ℚ) ≤ units k + units (k + 2) := by exact_mod_cast units_gap_le k
    rw [Nat.cast_succ, add_sub_cancel_right, add_assoc, one_add_one_eq_two]
    rw [show (k : ℤ) + 2 = (k + 2 : ℕ) by norm_cast, ← Nat.cast_succ, valueAt_natCast,
      valueAt_natCast, valueAt_natCast, ← add_div, ← mul_div_assoc]
    exact (div_le_div_iff_of_pos_right one_cast_pos).mpr h

theorem valueAt_gap_mul_le (hr : (binadeCount : ℤ) ≤ r) :
    binadeCount * (valueAt (r + 1) - valueAt r) ≤ valueAt r := by
  obtain ⟨k, rfl⟩ := Int.eq_ofNat_of_zero_le ((Int.natCast_nonneg _).trans hr)
  have h : ((binadeCount * 2 ^ (k / binadeCount - 1) : ℕ) : ℚ) ≤ units k :=
    Nat.cast_le.mpr (gap_mul_le (Int.ofNat_le.mp hr))
  rw [← Nat.cast_succ, valueAt_natCast, valueAt_natCast, Nat.succ_eq_add_one, units_succ,
    Nat.cast_add, add_div, add_sub_cancel_left, ← mul_div_assoc,
    div_le_div_iff_of_pos_right one_cast_pos, ← Nat.cast_mul]
  exact h

theorem nearest_error_le (hq : valueAt binadeCount ≤ q) :
    2 * binadeCount * |valueAt (nearest q) - q| ≤ valueAt (nearest q) := by
  have hr : (binadeCount : ℤ) ≤ nearest q := (nearest_valueAt _).symm.trans_le (nearest_mono hq)
  have hgap := valueAt_gap_mul_le hr
  have hprev := valueAt_gap_le ((Int.natCast_nonneg _).trans hr)
  have hlow := nearest_le q
  have hhigh := le_nearest q
  have habs : 2 * |valueAt (nearest q) - q| ≤ valueAt (nearest q + 1) - valueAt (nearest q) := by
    rcases abs_cases (valueAt (nearest q) - q) with ⟨h, -⟩ | ⟨h, -⟩ <;> rw [h] <;> linarith
  have hc : (0 : ℚ) ≤ binadeCount := Nat.cast_nonneg _
  linarith [mul_le_mul_of_nonneg_left habs hc]

theorem nearest_error_le_self (hq : valueAt binadeCount ≤ q) :
    2 * binadeCount * |valueAt (nearest q) - q| ≤ q := by
  rcases le_or_gt (valueAt (nearest q)) q with hle | hlt
  · exact (nearest_error_le hq).trans hle
  · have hr : (binadeCount : ℤ) < nearest q := valueAt_lt_iff.mp (hq.trans_lt hlt)
    have hgap := valueAt_gap_mul_le (Int.le_sub_one_of_lt hr)
    have hlow := nearest_le q
    have hc : (0 : ℚ) ≤ binadeCount := Nat.cast_nonneg _
    rw [sub_add_cancel] at hgap
    rw [abs_of_pos (sub_pos.mpr hlt)]
    have := mul_le_mul_of_nonneg_left (show 2 * (valueAt (nearest q) - q) ≤
      valueAt (nearest q) - valueAt (nearest q - 1) by linarith) hc
    linarith

theorem abs_nearest_error_le (hq : valueAt binadeCount ≤ |q|) :
    2 * binadeCount * |valueAt (nearest q) - q| ≤ |valueAt (nearest q)| ∧
      2 * binadeCount * |valueAt (nearest q) - q| ≤ |q| := by
  rcases abs_cases q with ⟨h, -⟩ | ⟨h, -⟩ <;> rw [h] at hq
  · rw [h]
    exact ⟨(nearest_error_le hq).trans (le_abs_self _), nearest_error_le_self hq⟩
  · have hresult := nearest_error_le hq
    have hself := nearest_error_le_self hq
    rw [nearest_neg, valueAt_neg, neg_sub_neg, abs_sub_comm] at hresult hself
    rw [h]
    exact ⟨hresult.trans (neg_le_abs _), hself⟩

theorem valueAt_gap_eq (hj : j ≤ k)
    (hk : k + 1 < (j / binadeCount + 1) * binadeCount) :
    valueAt k + valueAt (k + 2 : ℕ) = 2 * valueAt (k + 1 : ℕ) := by
  have h : (units k + units (k + 2) : ℚ) = 2 * units (k + 1) := by
    exact_mod_cast units_gap_eq hj hk
  rw [valueAt_natCast, valueAt_natCast, valueAt_natCast, ← add_div, h, mul_div_assoc]

theorem valueAt_add_one_le (hj : j ≠ 0) (hm : valueAt j = m) :
    valueAt j + 1 ≤ valueAt ((j / binadeCount + 1) * binadeCount : ℕ) := by
  rw [valueAt_natCast, div_eq_iff one_cast_pos.ne', ← Nat.cast_mul] at hm
  have h : ((units j + one : ℕ) : ℚ) ≤ _ :=
    Nat.cast_le.mpr (units_add_one_le hj (Dvd.intro_left m (Nat.cast_injective hm).symm))
  rw [valueAt_natCast, valueAt_natCast, div_add_one one_cast_pos.ne',
    div_le_div_iff_of_pos_right one_cast_pos, ← Nat.cast_add]
  exact h

/-- The number of rank `s` lies below that of rank `r` at a distance near `x`: not much less, and
not much more unless no number lies between them. -/
structure IsStep (x : ℚ) (s r : ℤ) : Prop where
  lt : s < r
  le_distance : 2 * x ≤ 3 * (valueAt r - valueAt s)
  distance_le : s < r - 1 → 3 * (valueAt r - valueAt s) ≤ 4 * x

theorem IsStep.neg (h : IsStep x (-r) (-s)) : IsStep x s r := by
  obtain ⟨hlt, hle, hge⟩ := h
  simp only [valueAt_neg, sub_neg_eq_add, neg_add_eq_sub] at hle hge
  exact ⟨by omega, hle, fun h => hge (by omega)⟩

theorem isStep_of_distance_eq (hlt : s < r) (h : valueAt r - valueAt s = x) : IsStep x s r := by
  have := sub_pos.mpr (valueAt_lt_iff.mpr hlt)
  refine ⟨hlt, ?_, fun _ => ?_⟩ <;> linarith

theorem isStep_sub_one (h : nearest (valueAt r - x) = r) : IsStep x (r - 1) r := by
  have hlow := nearest_le (valueAt r - x)
  have hlt := valueAt_lt_iff.mpr (Int.sub_one_lt_of_le (le_refl r))
  rw [h] at hlow
  exact ⟨Int.sub_one_lt_of_le le_rfl, by linarith, fun h => (lt_irrefl _ h).elim⟩

theorem isStep_of_nonneg (hr : 0 ≤ valueAt r - x) (hs : nearest (valueAt r - x) = s) (hlt : s < r) :
    IsStep x s r := by
  have hlow := nearest_le (valueAt r - x)
  have hhigh := le_nearest (valueAt r - x)
  have hs₀ := nearest_nonneg hr
  rw [hs] at hlow hhigh hs₀
  have hgap := valueAt_gap_le hs₀
  have hnext := valueAt_mono (Int.add_one_le_of_lt hlt)
  refine ⟨hlt, by linarith, fun hlt' => ?_⟩
  have hgap' := valueAt_gap_le (hs₀.trans (Int.le_add_one le_rfl))
  have hnext' := valueAt_mono (show s + 1 + 1 ≤ r by omega)
  rw [add_sub_cancel_right] at hgap'
  linarith

/-- Up from a whole number other than zero: the next binade begins above the next whole number, so
all neighbours on the way are equally near to each other. -/
theorem isStep_of_whole_ne_zero (hj₀ : j ≠ 0) (hj : valueAt j = m) (hx : x ≤ 1)
    (hk : nearest (valueAt j + x) = k) (hlt : j < k) : IsStep x j k := by
  have hlow := nearest_le (valueAt j + x)
  have hhigh := le_nearest (valueAt j + x)
  have hend := valueAt_add_one_le hj₀ hj
  have hkE := nearest_mono ((add_le_add_right hx (valueAt j)).trans hend)
  rw [hk] at hlow hhigh hkE
  rw [nearest_valueAt, Nat.cast_le] at hkE
  have hprev (l : Nat) : valueAt j ≤ valueAt (j + l : ℕ) :=
    valueAt_mono (Nat.cast_le.mpr (Nat.le_add_right j l))
  obtain ⟨i, rfl⟩ := Nat.exists_eq_add_of_lt hlt
  rw [Nat.cast_succ, add_sub_cancel_right, ← Nat.cast_succ] at hlow
  rw [← Nat.cast_succ] at hhigh
  refine ⟨Nat.cast_lt.mpr hlt, ?_, fun hlt' => ?_⟩
  · have := hprev i
    rcases hkE.lt_or_eq with hlt | heq
    · have := valueAt_gap_eq (Nat.le_add_right j i) hlt
      linarith
    · rw [← heq] at hend
      linarith
  · obtain ⟨l, rfl⟩ := Nat.exists_eq_add_of_lt (show 0 < i by omega)
    rw [Nat.zero_add] at *
    have := hprev l
    have := valueAt_gap_eq (Nat.le_add_right j l) (Nat.lt_of_succ_le hkE)
    rw [← Nat.add_assoc] at *
    linarith

theorem isStep_of_whole {z : ℤ} (hr : valueAt r = z) (hx : x ≤ 1) (hrep : valueAt (nearest x) = x)
    (hs : nearest (valueAt r - x) = s) (hlt : s < r) : IsStep x s r := by
  rcases lt_trichotomy 0 z with hz | rfl | hz
  · have : (1 : ℚ) ≤ z := by exact_mod_cast hz
    exact isStep_of_nonneg (by linarith) hs hlt
  · refine isStep_of_distance_eq hlt ?_
    rw [hr, Int.cast_zero, zero_sub, nearest_neg] at hs
    rw [hr, ← hs, valueAt_neg, hrep, Int.cast_zero, zero_sub, neg_neg]
  · have hr₀ : r < 0 := by
      rw [← valueAt_lt_iff, valueAt_zero, hr]
      exact_mod_cast hz
    -- the mirror image leads up from a whole number
    obtain ⟨j, hj⟩ := Int.eq_ofNat_of_zero_le (show 0 ≤ -r by omega)
    obtain ⟨k, hk⟩ := Int.eq_ofNat_of_zero_le (show 0 ≤ -s by omega)
    obtain ⟨m, hm⟩ := Int.eq_ofNat_of_zero_le (show 0 ≤ -z by omega)
    have hj' : valueAt j = m := by
      rw [← hj, valueAt_neg, hr]
      exact_mod_cast hm
    have hk' : nearest (valueAt j + x) = k := by
      rw [← hj, valueAt_neg, ← hk, ← hs, ← nearest_neg, neg_sub', sub_neg_eq_add]
    have h := isStep_of_whole_ne_zero (by omega) hj' hx hk' (by omega)
    rw [← hj, ← hk] at h
    exact h.neg

end BillGrammar.Binary64
