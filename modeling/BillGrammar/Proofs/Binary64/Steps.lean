import BillGrammar.Proofs.Binary64.Gaps
import BillGrammar.Proofs.Binary64.Places
import BillGrammar.Proofs.Binary64.PowerOfTen
import BillGrammar.Proofs.Binary64.Whole

/-!
The steps of a last place among the numbers of 64 bits: which numbers they read back as, and how
numbers near them are written.

The numbers near a step can be nearer to each other than steps are, or further apart.  Where both
distances are alike, it matters that no step but a whole one has the length of a gap.
-/

namespace BillGrammar.Binary64

variable {places : Nat} {x : Binary64} {q : ℚ} {r s k : ℤ}

/-! A number is written as the step nearest to it. -/

theorem written_step (places : Nat) (k : ℤ) : written places (k / 10 ^ places) = k / 10 ^ places := by
  rw [written, steps, div_mul_cancel₀ _ (ten_pow_pos places).ne', nearestWhole_intCast]

theorem written_le_step (h : q ≤ k / 10 ^ places) : written places q ≤ k / 10 ^ places :=
  (written_mono h).trans_eq (written_step places k)

theorem step_le_written (h : k / 10 ^ places ≤ q) : k / 10 ^ places ≤ written places q :=
  (written_step places k).symm.trans_le (written_mono h)

theorem written_sub_mul (places : Nat) (q : ℚ) :
    (written places q - q) * 10 ^ places = steps places q - q * 10 ^ places := by
  rw [sub_mul, written, div_mul_cancel₀ _ (ten_pow_pos places).ne']

theorem abs_written_sub_le (places : Nat) (q : ℚ) :
    |(written places q - q) * 10 ^ places| ≤ 1 / 2 := by
  rw [written_sub_mul]
  exact abs_nearestWhole_sub_le _

theorem abs_written_sub_le_step (places : Nat) (q : ℚ) (k : ℤ) :
    |written places q - q| ≤ |k / 10 ^ places - q| := by
  have hpos := ten_pow_pos places
  have habs := abs_written_sub_le places q
  refine le_of_mul_le_mul_right ?_ hpos
  rw [← abs_of_pos hpos, ← abs_mul, ← abs_mul, abs_of_pos hpos]
  have hk : (k / 10 ^ places - q) * 10 ^ places = k - q * 10 ^ places := by
    rw [sub_mul, div_mul_cancel₀ _ hpos.ne']
  rw [hk]
  rw [written_sub_mul] at habs ⊢
  rcases eq_or_ne (steps places q) k with rfl | hne
  · exact le_rfl
  · have hone : (1 : ℚ) ≤ |(steps places q : ℚ) - k| := by
      exact_mod_cast Int.one_le_abs (sub_ne_zero.mpr hne)
    have htri := abs_sub_le (steps places q : ℚ) (q * 10 ^ places) k
    rw [abs_sub_comm (q * 10 ^ places)] at htri
    linarith

theorem written_sub_step (places : Nat) (q : ℚ) (k : ℤ) :
    (written places q - k / 10 ^ places) * 10 ^ places = (steps places q - k : ℤ) := by
  have hpos := ten_pow_pos places
  rw [sub_mul, written, div_mul_cancel₀ _ hpos.ne', div_mul_cancel₀ _ hpos.ne', Int.cast_sub]

theorem one_le_written_sub_step (h : k / 10 ^ places < written places q) :
    1 ≤ (written places q - k / 10 ^ places) * 10 ^ places := by
  have hpos := mul_pos (sub_pos.mpr h) (ten_pow_pos places)
  rw [written_sub_step] at hpos ⊢
  exact_mod_cast hpos

theorem one_le_step_sub_written (h : written places q < k / 10 ^ places) :
    1 ≤ (k / 10 ^ places - written places q) * 10 ^ places := by
  have hpos := mul_pos (sub_pos.mpr h) (ten_pow_pos places)
  rw [← neg_sub, neg_mul, written_sub_step, ← Int.cast_neg] at hpos ⊢
  exact_mod_cast hpos

theorem written_of_mul_eq (h : q * 10 ^ places = k) : written places q = q := by
  rw [← eq_div_iff (ten_pow_pos places).ne'] at h
  rw [h, written_step]

theorem isFinite_snap (hx : x.isFinite) (hp : places ≤ 400) : (x.snap places).isFinite := by
  have hnear := isNearest_snap hx hp
  rcases le_or_gt ((2 * binadeCount : ℕ) : ℚ) |x.toRat| with hlarge | hsmall
  · obtain ⟨z, hz⟩ := exists_toRat_eq_intCast hx hlarge
    rw [hz, written_intCast, ← hz] at hnear
    exact (hnear.hasValue ⟨hx, rfl⟩).isFinite
  · have hcount : ((2 * binadeCount : ℕ) : ℚ) + 1 ≤ 2 ^ 54 := by
      exact_mod_cast (by decide : 2 * binadeCount + 1 ≤ 2 ^ 54)
    have hdist : |written places x.toRat - x.toRat| ≤ 1 / 2 := by
      have habs := abs_written_sub_le places x.toRat
      rw [abs_mul, abs_of_pos (ten_pow_pos places)] at habs
      exact (le_mul_of_one_le_right (abs_nonneg _) (one_le_pow₀ (by norm_num))).trans habs
    refine (hnear.isFinite_of_abs_le (n := 54) (by decide) ?_).1
    have htri := abs_sub_abs_le_abs_sub (written places x.toRat) x.toRat
    linarith

theorem read?_renderPlaces (hx : x.isFinite) (hp : places ≤ 400) :
    read? (x.renderPlaces places) = some (x.snap places) := by
  have hfin := isFinite_snap hx hp
  obtain ⟨s, k, rfl⟩ := exists_eq_finite hx
  have hread : Decimal.read? ((finite s k).renderPlaces places) = some (toPlaces places s k) :=
    Decimal.read?_render s _ places
  rw [read?, hread, Option.map_some]
  exact Option.filter_some_pos hfin

/-! Gaps and steps. -/

/-- No power of ten up to the twentieth is nearly a power of two, but the one that is. -/
theorem eq_zero_of_near_pow {c e p : Nat} (hp : p ≤ 20) (hhigh : 2 ^ e * 10 ^ p ≤ 2 ^ c)
    (hlow : 99 * 2 ^ c ≤ 100 * (2 ^ e * 10 ^ p)) : p = 0 := by
  have hfinite : ∀ p < 21, ∀ n < 69, 10 ^ p ≤ 2 ^ n → 99 * 2 ^ n ≤ 100 * 10 ^ p → p = 0 := by
    decide +kernel
  have hec : 2 ^ e ≤ 2 ^ c :=
    (Nat.le_mul_of_pos_right _ (Nat.pow_pos (by decide))).trans hhigh
  obtain ⟨n, rfl⟩ := Nat.exists_eq_add_of_le ((Nat.pow_le_pow_iff_right (by decide)).mp hec)
  have hpos := Nat.two_pow_pos e
  have hhigh : 10 ^ p ≤ 2 ^ n :=
    Nat.le_of_mul_le_mul_left (hhigh.trans_eq (Nat.pow_add 2 e n)) hpos
  have hlow : 99 * 2 ^ n ≤ 100 * 10 ^ p := by
    refine Nat.le_of_mul_le_mul_left (c := 2 ^ e) ?_ hpos
    calc 2 ^ e * (99 * 2 ^ n) = 99 * 2 ^ (e + n) := by rw [Nat.pow_add]; ring
      _ ≤ 100 * (2 ^ e * 10 ^ p) := hlow
      _ = 2 ^ e * (100 * 10 ^ p) := by ring
  refine hfinite p (Nat.lt_succ_of_le hp) n ?_ hhigh hlow
  by_contra! hn
  have h₁ : 2 ^ 69 ≤ 2 ^ n := Nat.pow_le_pow_right (by decide) hn
  have h₂ : 10 ^ p ≤ 10 ^ 20 := Nat.pow_le_pow_right (by decide) hp
  omega

theorem pow_dvd_of_le {c e p : Nat} (hp : p ≤ 20) (h : 2 ^ c ≤ 2 * 2 ^ e * 10 ^ p) :
    2 ^ c ∣ 2 ^ 53 * 2 ^ e * 10 ^ p := by
  have hfive : 5 ^ p ≤ 2 ^ 52 := (Nat.pow_le_pow_right (by decide) hp).trans (by decide)
  have hten : (10 : Nat) ^ p = 2 ^ p * 5 ^ p := Nat.mul_pow 2 5 p
  have hle : 2 ^ c ≤ 2 ^ (53 + e + p) :=
    calc 2 ^ c ≤ 2 * 2 ^ e * (2 ^ p * 5 ^ p) := hten ▸ h
      _ ≤ 2 * 2 ^ e * (2 ^ p * 2 ^ 52) := by gcongr
      _ = 2 ^ (53 + e + p) := by ring
  rw [hten, ← Nat.mul_assoc, ← Nat.pow_add, ← Nat.pow_add]
  exact Dvd.dvd.mul_right (Nat.pow_dvd_pow 2 ((Nat.pow_le_pow_iff_right (by decide)).mp hle)) _

theorem places_eq_zero_of_gap (hp : places ≤ 20) (hlow : 99 ≤ 100 * (gap r * 10 ^ places))
    (hhigh : gap r * 10 ^ places ≤ 1) : places = 0 := by
  obtain ⟨e, he⟩ := exists_gap_eq r
  rw [he, div_mul_eq_mul_div, div_le_one one_cast_pos] at hhigh
  rw [he, div_mul_eq_mul_div, ← mul_div_assoc, le_div_iff₀ one_cast_pos] at hlow
  have hhigh : 2 ^ e * 10 ^ places ≤ one := by exact_mod_cast hhigh
  have hlow : 99 * one ≤ 100 * (2 ^ e * 10 ^ places) := by exact_mod_cast hlow
  simp only [one, Nat.pow_eq] at hhigh hlow
  generalize 1074 = c at *
  exact eq_zero_of_near_pow hp hhigh hlow

theorem exists_mul_eq_of_gap (hp : places ≤ 20) (hvalue : q = (2 * binadeCount : ℕ) * gap r)
    (hgap : 1 ≤ 2 * gap r * 10 ^ places) : ∃ z : ℤ, q * 10 ^ places = z := by
  obtain ⟨e, he⟩ := exists_gap_eq r
  rw [he, ← mul_div_assoc, div_mul_eq_mul_div, one_le_div one_cast_pos] at hgap
  have hgap : one ≤ 2 * 2 ^ e * 10 ^ places := by exact_mod_cast hgap
  have hdvd : one ∣ 2 ^ 53 * 2 ^ e * 10 ^ places := by
    simp only [one, Nat.pow_eq] at *
    generalize 1074 = c at *
    exact pow_dvd_of_le hp hgap
  obtain ⟨z, hz⟩ := hdvd
  have hten : (10 : ℚ) ^ places = (10 ^ places : ℕ) := by rw [Nat.cast_pow, Nat.cast_ofNat]
  have hcount : 2 * binadeCount = 2 ^ 53 := by decide
  refine ⟨z, ?_⟩
  rw [hvalue, he, ← mul_div_assoc, div_mul_eq_mul_div, div_eq_iff one_cast_pos.ne', hcount, hten,
    Int.cast_natCast, ← Nat.cast_mul, ← Nat.cast_mul, ← Nat.cast_mul, hz, Nat.mul_comm]

theorem written_eq_of_gap (hp : places ≤ 20) (hlow : 99 ≤ 100 * (gap r * 10 ^ places))
    (hhigh : gap r * 10 ^ places ≤ 1) (hone : places = 0 → gap r = 1) :
    written places (valueAt r) = valueAt r := by
  obtain rfl := places_eq_zero_of_gap hp hlow hhigh
  obtain ⟨z, -, hz⟩ := exists_valueAt_eq_mul_gap r
  rw [hone rfl, mul_one] at hz
  rw [hz, written_intCast]

/-! How a number is written that a step reads back as. -/

theorem written_lt_valueAt_succ (hp : places ≤ 20) (hk : nearest (k / 10 ^ places) = r) :
    written places (valueAt r) < valueAt (r + 1) := by
  have hgap := gap_pos (r + 1)
  have hsucc := gap_succ r
  rcases le_total (valueAt r) (k / 10 ^ places) with hle | hle
  · have hhigh := le_nearest ((k : ℚ) / 10 ^ places)
    rw [hk] at hhigh
    have := written_le_step hle
    linarith
  · by_contra! hge
    have hpos := ten_pow_pos places
    have hlow := nearest_le ((k : ℚ) / 10 ^ places)
    rw [hk] at hlow
    have hdist := abs_written_sub_le_step places (valueAt r) k
    rw [abs_of_nonneg (by linarith), abs_sub_comm, abs_of_nonneg (by linarith)] at hdist
    have hratio := gap_le_two_mul r
    have hpred := valueAt_sub_one r
    -- the step, the number and what is written are half a gap apart
    have hdiff : written places (valueAt r) - valueAt r = gap r / 2 := by linarith
    have hdiff' : written places (valueAt r) - k / 10 ^ places = gap r := by linarith
    have hone := one_le_written_sub_step
      (show k / 10 ^ places < written places (valueAt r) by linarith)
    have hhalf := (abs_le.mp (abs_written_sub_le places (valueAt r))).2
    rw [hdiff'] at hone
    rw [hdiff] at hhalf
    have heq := written_eq_of_gap hp (r := r) (by linarith) (by linarith) fun hzero => by
      subst hzero
      rw [pow_zero] at *
      linarith
    linarith

theorem le_nearest_written (hp : places ≤ 20) (hk : nearest (k / 10 ^ places) = r) :
    r ≤ nearest (written places (valueAt r)) := by
  rcases le_total (k / 10 ^ places : ℚ) (valueAt r) with hle | hle
  · exact hk.symm.trans_le (nearest_mono (step_le_written hle))
  · by_contra! hlt
    have hpos := ten_pow_pos places
    have hhigh := le_nearest ((k : ℚ) / 10 ^ places)
    have hhigh' := le_nearest (written places (valueAt r))
    rw [hk, ← sub_add_cancel (valueAt (r + 1)) (valueAt r), ← gap_succ] at hhigh
    have hprev := valueAt_mono (Int.le_sub_one_of_lt hlt)
    have hprev' := valueAt_mono (Int.add_one_le_of_lt hlt)
    have hpred := valueAt_sub_one r
    have hgap := gap_pos r
    have hgap' := gap_pos (r + 1)
    have hdist := abs_written_sub_le_step places (valueAt r) k
    rw [abs_sub_comm, abs_of_nonneg (by linarith), abs_of_nonneg (by linarith)] at hdist
    have hone := one_le_step_sub_written
      (show written places (valueAt r) < k / 10 ^ places by linarith)
    have hhalf := (abs_le.mp (abs_written_sub_le places (valueAt r))).1
    -- a step is not longer than the gap above the number, and not shorter than the one below
    have habove : 1 ≤ gap (r + 1) * 10 ^ places :=
      hone.trans (mul_le_mul_of_nonneg_right (by linarith) hpos.le)
    have hbelow : gap r * 10 ^ places ≤ 1 := by
      have := mul_le_mul_of_nonneg_right
        (show gap r ≤ 2 * (valueAt r - written places (valueAt r)) by linarith) hpos.le
      linarith
    have heq : written places (valueAt r) = valueAt r := by
      rcases gap_cases r with h | ⟨h, hvalue⟩ | ⟨h, -⟩
      · rw [h] at habove
        refine written_eq_of_gap hp (by linarith) hbelow fun hzero => ?_
        subst hzero
        rw [pow_zero] at *
        linarith
      · rw [h] at habove
        obtain ⟨z, hz⟩ := exists_mul_eq_of_gap hp hvalue habove
        exact written_of_mul_eq hz
      · rw [h] at hbelow
        linarith
    linarith

theorem nearest_le_written (hp : places ≤ 20) (hk : nearest (k / 10 ^ places) ≤ r) :
    nearest (k / 10 ^ places) ≤ nearest (written places (valueAt r)) := by
  rcases hk.lt_or_eq with hlt | heq
  · exact nearest_mono (step_le_written (lt_valueAt_of_nearest_lt hlt).le)
  · exact heq.trans_le (le_nearest_written hp heq)

theorem written_lt_of_step (hp : places ≤ 20) (hr : r ≤ nearest (k / 10 ^ places))
    (hs : nearest (k / 10 ^ places) < s) : written places (valueAt r) < valueAt s := by
  rcases hr.lt_or_eq with hlt | heq
  · have hlow : valueAt r < k / 10 ^ places := lt_of_nearest_valueAt_lt hlt
    have hhigh : (k / 10 ^ places : ℚ) < valueAt s := lt_valueAt_of_nearest_lt hs
    exact (written_le_step hlow.le).trans_lt hhigh
  · exact (written_lt_valueAt_succ hp heq.symm).trans_le (valueAt_mono (by omega))

/-! How a number one step below another is written. -/

theorem two_mul_binadeCount_cast : (2 * binadeCount : ℚ) = 2 ^ 53 := by
  have h : 2 * binadeCount = 2 ^ 53 := by decide
  exact_mod_cast h

theorem step_error_le (hp : places < 23) :
    2 ^ 53 * |valueAt (nearest (1 / 10 ^ places)) * 10 ^ places - 1| ≤ 1 := by
  have hpos := ten_pow_pos places
  have herror := nearest_error_le_self (valueAt_binadeCount_le hp)
  rw [two_mul_binadeCount_cast, le_div_iff₀ hpos, mul_assoc, ← abs_of_pos hpos, ← abs_mul, sub_mul,
    abs_of_pos hpos, div_mul_cancel₀ _ hpos.ne'] at herror
  exact herror

/-- Counted in steps, the number one step below another is off by a small part of it and of three
steps. -/
theorem sub_step_error_lt (hx : x.isFinite) (hp : places < 23) :
    2 ^ 53 * (x.toRat * 10 ^ places - 1 - valueAt (nearest (x.toRat -
      valueAt (nearest (1 / 10 ^ places)))) * 10 ^ places) < |x.toRat * 10 ^ places| + 3 := by
  have hpos := ten_pow_pos places
  have hstep := hasValue_step hp
  have hlen := step_error_le hp
  obtain ⟨z, hz⟩ := exists_toRat_sub_eq hx hstep.isFinite
  have herror := mul_le_mul_of_nonneg_right (nearest_units_error_le z) hpos.le
  rw [← hz, hstep.toRat_eq, two_mul_binadeCount_cast, mul_assoc, ← abs_of_pos hpos, ← abs_mul,
    ← abs_mul, abs_of_pos hpos, sub_mul, sub_mul] at herror
  generalize valueAt (nearest (1 / 10 ^ places)) * 10 ^ places = step at *
  generalize valueAt (nearest _) * 10 ^ places = low at *
  have htri := abs_sub (x.toRat * 10 ^ places) step
  have hlow := neg_abs_le (low - (x.toRat * 10 ^ places - step))
  have hstep := le_abs_self (step - 1)
  have habs := abs_sub_abs_le_abs_sub step 1
  rw [abs_one] at habs
  linarith

theorem sub_one_step_lt (hx : x.isFinite) (hp : places < 23)
    (hoff : |x.toRat * 10 ^ places| + 3 ≤
      2 ^ 53 * (x.toRat * 10 ^ places - (steps places x.toRat - 1 / 2))) :
    steps places x.toRat - 1 - 1 / 2 <
      valueAt (nearest (x.toRat - valueAt (nearest (1 / 10 ^ places)))) * 10 ^ places := by
  have := sub_step_error_lt hx hp
  linarith

theorem sub_two_steps_lt (hx : x.isFinite) (hp : places < 23)
    (hfar : nearest (x.toRat - valueAt (nearest (1 / 10 ^ places))) < nearest x.toRat - 1) :
    steps places x.toRat - 2 - 1 / 2 <
      valueAt (nearest (x.toRat - valueAt (nearest (1 / 10 ^ places)))) * 10 ^ places := by
  have hpos := ten_pow_pos places
  have herror := sub_step_error_lt hx hp
  have hlen := (le_abs_self _).trans (le_of_mul_le_mul_left
    ((step_error_le hp).trans_eq (mul_inv_cancel₀ (by norm_num)).symm) (by norm_num : (0 : ℚ) < 2 ^ 53))
  have hlarge : 5 * |x.toRat| ≤ 4 * (2 ^ 53 * valueAt (nearest (1 / 10 ^ places))) := by
    have hvalue := valueAt_nearest_toRat hx
    nth_rewrite 1 [← hvalue] at hfar
    have := abs_valueAt_le_of_nearest_sub_lt hfar
    rwa [hvalue, two_mul_binadeCount_cast] at this
  have hscaled := mul_le_mul_of_nonneg_right hlarge hpos.le
  have hround := (abs_le.mp (abs_nearestWhole_sub_le (x.toRat * 10 ^ places))).2
  rw [← steps] at hround
  rw [abs_mul, abs_of_pos hpos] at herror
  generalize valueAt (nearest (1 / 10 ^ places)) = step at *
  generalize valueAt (nearest (x.toRat - step)) * 10 ^ places = low at *
  linarith

theorem written_lt_of_nearest_sub (hp : places ≤ 20) (hlt : r < s)
    (hr : nearest (valueAt s - valueAt (nearest (1 / 10 ^ places))) = r) :
    written places (valueAt r) < valueAt s := by
  by_contra! hge
  have hpos := ten_pow_pos places
  obtain ⟨hstep, hone⟩ := step_bounds (hp.trans_lt (by decide : 20 < 23))
  generalize valueAt (nearest (1 / 10 ^ places)) = q at *
  have hlow := nearest_le (valueAt s - q)
  rw [hr] at hlow
  have hpred := valueAt_sub_one r
  have hsucc := gap_succ r
  have hratio := gap_le_two_mul r
  have hnext := valueAt_mono (Int.add_one_le_of_lt hlt)
  have hhalf := (abs_le.mp (abs_written_sub_le places (valueAt r))).2
  -- the numbers are half a step apart at most, so the gap has to be a step
  have hdist : 2 * (valueAt s - valueAt r) * 10 ^ places ≤ 1 := by
    have := mul_le_mul_of_nonneg_right
      (show valueAt s - valueAt r ≤ written places (valueAt r) - valueAt r by linarith) hpos.le
    linarith
  have hgap := mul_le_mul_of_nonneg_right
    (show 2 * q - 2 * (valueAt s - valueAt r) ≤ gap r by linarith) hpos.le
  have hgap' := mul_le_mul_of_nonneg_right
    (show gap r ≤ 2 * (valueAt s - valueAt r) by linarith) hpos.le
  have heq := written_eq_of_gap hp (r := r) (by linarith) (by linarith) fun hzero => by
    have hq := hone hzero
    subst hzero
    rw [pow_zero] at *
    linarith
  have hlt' := valueAt_lt_iff.mpr hlt
  linarith

theorem written_lt_of_le_nearest_sub (hp : places ≤ 20)
    (hs : s ≤ nearest (valueAt s - valueAt (nearest (1 / 10 ^ places)))) :
    written places (valueAt (s - 1)) < valueAt s := by
  have hpos := ten_pow_pos places
  obtain ⟨hstep, -⟩ := step_bounds (hp.trans_lt (by decide : 20 < 23))
  generalize valueAt (nearest (1 / 10 ^ places)) = q at *
  have hlow := nearest_le (valueAt s - q)
  have hmono := valueAt_mono (Int.sub_le_sub_right hs 1)
  have hmono' := valueAt_mono hs
  have hhalf := (abs_le.mp (abs_written_sub_le places (valueAt (s - 1)))).2
  have hgap := mul_le_mul_of_nonneg_right
    (show 2 * q ≤ valueAt s - valueAt (s - 1) by linarith) hpos.le
  refine sub_pos.mp (pos_of_mul_pos_left (b := 10 ^ places) ?_ hpos.le)
  rw [sub_mul] at *
  linarith

end BillGrammar.Binary64
