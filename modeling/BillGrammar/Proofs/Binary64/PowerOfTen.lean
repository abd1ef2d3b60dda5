import BillGrammar.Proofs.Binary64.Spacing
import BillGrammar.Proofs.Binary64.Value

namespace BillGrammar.Binary64

variable {x y z acc : Binary64} {p q : ℚ} {a b n places : Nat}

theorem HasValue.mul (hx : x.HasValue p) (hy : y.HasValue q) (hz : z.HasValue (p * q)) :
    (x * y).HasValue (p * q) := by
  have h := isNearest_mul hx.isFinite hy.isFinite
  rw [hx.toRat_eq, hy.toRat_eq] at h
  exact h.hasValue hz

theorem hasValue_ofNat (hlt : nearestOrdinal (n * one) 1 < finiteCount)
    (hn : units (nearestOrdinal (n * one) 1) = n * one) : (ofNat n).HasValue n := by
  rw [ofNat, ofUnits, dif_pos hlt]
  refine ⟨rfl, ?_⟩
  rw [toRat_finite, hn, withSign_false, Nat.cast_mul, mul_div_cancel_right₀ _ one_cast_pos.ne']

theorem hasValue_zero : (0 : Binary64).HasValue 0 := by
  have h : nearestOrdinal (0 * one) 1 = 0 := by rw [Nat.zero_mul, nearestOrdinal_zero]
  have h' := hasValue_ofNat (n := 0) (by rw [h]; decide) (by rw [h, units_zero, Nat.zero_mul])
  rwa [Nat.cast_zero] at h'

theorem hasValue_ten_pow (ha : a < 23) : (ofNat (10 ^ a)).HasValue (10 ^ a) := by
  have h : ∀ a < 23, nearestOrdinal (10 ^ a * one) 1 < finiteCount ∧
      units (nearestOrdinal (10 ^ a * one) 1) = 10 ^ a * one := by decide +kernel
  simpa using hasValue_ofNat (h a ha).1 (h a ha).2

theorem HasValue.mul_ten_pow (hx : x.HasValue (10 ^ a)) (hy : y.HasValue (10 ^ b))
    (h : a + b < 23) : (x * y).HasValue (10 ^ (a + b)) := by
  rw [pow_add]
  exact hx.mul hy (pow_add (10 : ℚ) a b ▸ hasValue_ten_pow h)

theorem hasValue_powMul (hacc : acc.HasValue (10 ^ a)) (hx : x.HasValue (10 ^ b))
    (h : a + b * n < 23) : (powMul acc x n).HasValue (10 ^ (a + b * n)) := by
  induction n using Nat.strong_induction_on generalizing acc x a b with
  | _ n ih =>
    have hn := Nat.div_add_mod n 2
    have hsum : a + b * n = a + b * (n % 2) + (b + b) * (n / 2) := by
      nth_rewrite 1 [← hn]
      ring
    have hstep : (if n % 2 = 1 then acc * x else acc).HasValue (10 ^ (a + b * (n % 2))) := by
      split
      · next hodd =>
        rw [hodd, Nat.mul_one] at hsum ⊢
        exact hacc.mul_ten_pow hx (by omega)
      · next heven =>
        rwa [Nat.mod_two_ne_one.mp heven, Nat.mul_zero, Nat.add_zero]
    rw [powMul, hsum]
    split
    · next hzero => rwa [hzero, Nat.mul_zero, Nat.add_zero]
    · next hhalf =>
      have hsq : b + b ≤ (b + b) * (n / 2) := Nat.le_mul_of_pos_right _ (Nat.pos_of_ne_zero hhalf)
      exact ih (n / 2) (by omega) hstep (hx.mul_ten_pow hx (by omega)) (by omega)

theorem hasValue_one : (1 : Binary64).HasValue 1 := by
  have h := hasValue_ten_pow (show 0 < 23 by decide)
  rwa [Nat.pow_zero, pow_zero] at h

theorem hasValue_powNat_ten (hp : places < 23) : (powNat 10 places).HasValue (10 ^ places) := by
  have h₁ : (1 : Binary64).HasValue (10 ^ 0) := (pow_zero (10 : ℚ)).symm ▸ hasValue_one
  have h₁₀ : (10 : Binary64).HasValue (10 ^ 1) := by
    have h := hasValue_ten_pow (show 1 < 23 by decide)
    rwa [Nat.pow_one] at h
  have h := hasValue_powMul (n := places) h₁ h₁₀ (by omega)
  rwa [Nat.zero_add, Nat.one_mul] at h

theorem valueAt_binadeCount_le (hp : places < 23) : valueAt binadeCount ≤ 1 / 10 ^ places := by
  have h : units binadeCount * 10 ^ 22 ≤ one := by decide +kernel
  have hle : (10 : Nat) ^ places ≤ 10 ^ 22 := Nat.pow_le_pow_right (by decide) (by omega)
  have hpow : (0 : ℚ) < 10 ^ places := pow_pos (by norm_num) places
  rw [valueAt_natCast, div_le_div_iff₀ one_cast_pos hpow, one_mul]
  have := (Nat.mul_le_mul_left (units binadeCount) hle).trans h
  rw [← Nat.cast_le (α := ℚ), Nat.cast_mul, Nat.cast_pow] at this
  exact this

theorem mul_bounds_of_error {v q k : ℚ} (hk : 0 < k) (hq : q * k = 1) (h : 10 * |v - q| ≤ v) :
    3 / 4 < v * k ∧ v * k < 9 / 8 := by
  obtain ⟨hlow, hhigh⟩ := abs_le.mp (show |v - q| ≤ v / 10 by linarith)
  have h₁ := mul_le_mul_of_nonneg_right (show 9 * v ≤ 10 * q by linarith) hk.le
  have h₂ := mul_le_mul_of_nonneg_right (show 10 * q ≤ 11 * v by linarith) hk.le
  constructor <;> linarith

theorem step_mem (places : Nat) : (1 : ℚ) / 10 ^ places ∈ Set.Icc 0 1 :=
  have hpos : (0 : ℚ) < 10 ^ places := pow_pos (by norm_num) places
  ⟨(one_div_pos.mpr hpos).le, (div_le_one hpos).mpr (one_le_pow₀ (by norm_num))⟩

theorem hasValue_step (hp : places < 23) :
    (1 / powNat 10 places : Binary64).HasValue (valueAt (nearest (1 / 10 ^ places))) := by
  have hpow := hasValue_powNat_ten hp
  have hpos : (0 : ℚ) < 10 ^ places := pow_pos (by norm_num) places
  have hnear := isNearest_div hasValue_one.isFinite hpow.isFinite
    (hpow.toRat_eq.trans_ne hpos.ne')
  rw [hasValue_one.toRat_eq, hpow.toRat_eq] at hnear
  have hfin : (1 / powNat 10 places : Binary64).isFinite :=
    hnear.isFinite_of_mem hasValue_zero.isFinite hasValue_one.isFinite
      (by rw [hasValue_zero.toRat_eq, hasValue_one.toRat_eq]; exact step_mem places)
  exact ⟨hfin, hnear.toRat_eq hfin⟩

theorem step_error (hp : places < 23) :
    1000 * |valueAt (nearest (1 / 10 ^ places)) - 1 / 10 ^ places| ≤
      valueAt (nearest (1 / 10 ^ places)) := by
  have hc : (1000 : ℚ) ≤ 2 * binadeCount := by exact_mod_cast (by decide : 1000 ≤ 2 * binadeCount)
  exact (mul_le_mul_of_nonneg_right hc (abs_nonneg _)).trans
    (nearest_error_le (valueAt_binadeCount_le hp))

theorem exists_hasValue_step (hp : places < 23) : ∃ q,
    (1 / powNat 10 places : Binary64).HasValue q ∧ q ∈ Set.Icc 0 1 ∧ 3 / 4 < q * 10 ^ places ∧
      q * 10 ^ places < 9 / 8 := by
  have hpos : (0 : ℚ) < 10 ^ places := pow_pos (by norm_num) places
  have hmem := step_mem places
  refine ⟨_, hasValue_step hp, ⟨valueAt_nonneg (nearest_nonneg hmem.1), ?_⟩, ?_⟩
  · exact (valueAt_mono (nearest_mono hmem.2)).trans_eq hasValue_one.valueAt_nearest
  · refine mul_bounds_of_error hpos (div_mul_cancel₀ _ hpos.ne') (le_trans ?_ (step_error hp))
    exact mul_le_mul_of_nonneg_right (by norm_num) (abs_nonneg _)

theorem step_bounds (hp : places < 23) :
    199 / 200 ≤ valueAt (nearest (1 / 10 ^ places)) * 10 ^ places ∧
      (places = 0 → valueAt (nearest (1 / 10 ^ places)) = 1) := by
  have hpos : (0 : ℚ) < 10 ^ places := pow_pos (by norm_num) places
  refine ⟨?_, ?_⟩
  · have herror := step_error hp
    obtain ⟨hlow, -⟩ := abs_le.mp
      (show |valueAt (nearest (1 / 10 ^ places)) - 1 / 10 ^ places| ≤
        valueAt (nearest (1 / 10 ^ places)) / 1000 by linarith)
    have hmul := mul_le_mul_of_nonneg_right
      (show 1000 * (1 / 10 ^ places) ≤ 1001 * valueAt (nearest (1 / 10 ^ places)) by linarith)
      hpos.le
    rw [mul_assoc, div_mul_cancel₀ _ hpos.ne'] at hmul
    linarith
  · rintro rfl
    rw [pow_zero, div_one, hasValue_one.valueAt_nearest]

end BillGrammar.Binary64
