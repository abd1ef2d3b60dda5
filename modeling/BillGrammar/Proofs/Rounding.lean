import BillGrammar.Rounding
import Mathlib.Data.Rat.Lemmas
import Mathlib.Tactic.Linarith
import Mathlib.Tactic.Positivity
import Mathlib.Tactic.FieldSimp

namespace BillGrammar

/-- A way to round fractions to natural numbers that depends on the number a fraction stands for
only, and keeps the order. -/
structure Rounding where
  round : Nat → Nat → Nat
  round_zero (d : Nat) : round 0 d = 0
  round_mul_right {c d n : Nat} : 0 < c → 0 < d → round (n * c) (d * c) = round n d
  round_mono {d n m : Nat} : 0 < d → n ≤ m → round n d ≤ round m d

variable {c d n m : Nat} {p q : ℚ} {z : ℤ}

theorem roundDiv_mul_le (n d : Nat) : 2 * (roundDiv n d * d) ≤ 2 * n + d := by
  have hn := Nat.div_add_mod' n d
  unfold roundDiv
  dsimp only
  split
  · omega
  · split
    · rw [Nat.add_mul]
      omega
    · have : n / d % 2 * d ≤ d := by
        simpa using Nat.mul_le_mul_right d (Nat.le_of_lt_succ (Nat.mod_lt (n / d) two_pos))
      rw [Nat.add_mul]
      omega

theorem le_roundDiv_mul (n : Nat) (hd : 0 < d) : 2 * n ≤ (2 * roundDiv n d + 1) * d := by
  have hn := Nat.div_add_mod' n d
  have hr := Nat.mod_lt n hd
  unfold roundDiv
  dsimp only
  split
  · linarith
  · split
    · linarith
    · have := Nat.zero_le (n / d % 2 * d)
      linarith

theorem roundDiv_mul_right (hc : 0 < c) : roundDiv (n * c) (d * c) = roundDiv n d := by
  unfold roundDiv
  simp only [Nat.mul_div_mul_right _ _ hc, Nat.mul_mod_mul_right, ← Nat.mul_assoc,
    Nat.mul_lt_mul_right hc]

theorem roundDiv_mul_self (m : Nat) (hd : 0 < d) : roundDiv (m * d) d = m := by
  simp [roundDiv, Nat.mul_div_cancel _ hd, hd]

theorem roundDiv_mono (hd : 0 < d) (h : n ≤ m) : roundDiv n d ≤ roundDiv m d := by
  by_contra! hlt
  have h₁ := roundDiv_mul_le n d
  have h₂ := le_roundDiv_mul m hd
  -- both lie on the middle between two neighbours, so they are one number
  have h₃ : (roundDiv m d + 1) * d ≤ roundDiv n d * d := Nat.mul_le_mul_right d hlt
  have : n = m := by linarith
  subst this
  exact hlt.false

namespace Rounding

variable (R : Rounding)

def signed (q : ℚ) : ℤ := q.num.sign * R.round q.num.natAbs q.den

@[simp]
theorem signed_zero : R.signed 0 = 0 := by
  simp [signed]

theorem signed_neg (q : ℚ) : R.signed (-q) = -R.signed q := by
  simp [signed, Int.sign_neg]

theorem signed_div (n : Nat) (hd : 0 < d) : R.signed ((n : ℚ) / d) = R.round n d := by
  set q := (n : ℚ) / d with hq
  have hq₀ : 0 ≤ q := by positivity
  obtain ⟨m, hm⟩ := Int.eq_ofNat_of_zero_le (Rat.num_nonneg.mpr hq₀)
  have hqd := q.den_pos
  have hcross : n * q.den = m * d := by
    have h := q.num_div_den
    rw [hm, hq, div_eq_div_iff (by positivity) (by positivity)] at h
    exact_mod_cast h.symm
  have hround : R.round m q.den = R.round n d := by
    rw [← R.round_mul_right hd hqd, ← hcross, Nat.mul_comm q.den d,
      R.round_mul_right hqd hd]
  rcases Nat.eq_zero_or_pos m with rfl | hpos
  · rw [signed, hm, ← hround, R.round_zero]
    simp
  · rw [signed, hm, Int.sign_natCast_of_ne_zero hpos.ne', Int.natAbs_natCast, hround, one_mul]

theorem signed_nonneg (hq : 0 ≤ q) : 0 ≤ R.signed q :=
  Int.mul_nonneg (Int.sign_nonneg_iff.mpr (Rat.num_nonneg.mpr hq)) (Int.natCast_nonneg _)

theorem exists_div_of_nonneg {q : ℚ} (hq : 0 ≤ q) : ∃ n d : Nat, 0 < d ∧ q = (n : ℚ) / d := by
  obtain ⟨n, hn⟩ := Int.eq_ofNat_of_zero_le (Rat.num_nonneg.mpr hq)
  refine ⟨n, q.den, q.den_pos, ?_⟩
  nth_rewrite 1 [← q.num_div_den]
  rw [hn, Int.cast_natCast]

theorem signed_le_of_nonneg (hp : 0 ≤ p) (h : p ≤ q) : R.signed p ≤ R.signed q := by
  obtain ⟨n, c, hc, rfl⟩ := exists_div_of_nonneg hp
  obtain ⟨m, d, hd, rfl⟩ := exists_div_of_nonneg (hp.trans h)
  have hcross : n * d ≤ m * c := by
    rw [div_le_div_iff₀ (by positivity) (by positivity)] at h
    exact_mod_cast h
  rw [R.signed_div _ hc, R.signed_div _ hd, ← R.round_mul_right hd hc,
    ← R.round_mul_right hc hd, Nat.mul_comm c d]
  exact_mod_cast R.round_mono (Nat.mul_pos hd hc) hcross

theorem signed_mono (h : p ≤ q) : R.signed p ≤ R.signed q := by
  rcases le_total 0 p with hp | hp
  · exact R.signed_le_of_nonneg hp h
  · rcases le_total 0 q with hq | hq
    · have := R.signed_nonneg (Left.nonneg_neg_iff.mpr hp)
      rw [signed_neg] at this
      exact (Int.neg_nonneg.mp this).trans (R.signed_nonneg hq)
    · have := R.signed_le_of_nonneg (Left.nonneg_neg_iff.mpr hq) (neg_le_neg h)
      rw [signed_neg, signed_neg] at this
      exact neg_le_neg_iff.mp this

def whole : Rounding where
  round := roundDiv
  round_zero d := by simp [roundDiv]
  round_mul_right hc _ := roundDiv_mul_right hc
  round_mono := roundDiv_mono

end Rounding

/-- The whole number nearest to `q`; of two equally near, the even one. -/
def nearestWhole (q : ℚ) : ℤ := Rounding.whole.signed q

theorem nearestWhole_neg (q : ℚ) : nearestWhole (-q) = -nearestWhole q :=
  Rounding.whole.signed_neg q

theorem nearestWhole_div (n : Nat) (hd : 0 < d) : nearestWhole ((n : ℚ) / d) = roundDiv n d :=
  Rounding.whole.signed_div n hd

theorem nearestWhole_mono (h : p ≤ q) : nearestWhole p ≤ nearestWhole q :=
  Rounding.whole.signed_mono h

theorem abs_nearestWhole_sub_le (q : ℚ) : |(nearestWhole q : ℚ) - q| ≤ 1 / 2 := by
  wlog hq : 0 ≤ q generalizing q
  · have h := this (-q) (by linarith)
    rw [nearestWhole_neg, Int.cast_neg, neg_sub_neg, abs_sub_comm] at h
    exact h
  obtain ⟨n, d, hd, rfl⟩ := Rounding.exists_div_of_nonneg hq
  have h₁ : 2 * ((roundDiv n d : ℚ) * d) ≤ 2 * n + d := by exact_mod_cast roundDiv_mul_le n d
  have h₂ : 2 * (n : ℚ) ≤ (2 * roundDiv n d + 1) * d := by exact_mod_cast le_roundDiv_mul n hd
  have hd' : (0 : ℚ) < d := by exact_mod_cast hd
  rw [nearestWhole_div n hd, Int.cast_natCast, abs_le, neg_le_sub_iff_le_add, div_le_iff₀ hd',
    sub_le_iff_le_add, ← sub_le_iff_le_add', le_div_iff₀ hd']
  constructor <;> linarith

theorem le_nearestWhole (h : (z : ℚ) - 1 / 2 < q) : z ≤ nearestWhole q := by
  have hq := (abs_le.mp (abs_nearestWhole_sub_le q)).1
  have : (z : ℚ) < nearestWhole q + 1 := by linarith
  exact Int.lt_add_one_iff.mp (mod_cast this)

theorem nearestWhole_le (h : q < (z : ℚ) + 1 / 2) : nearestWhole q ≤ z := by
  have hq := (abs_le.mp (abs_nearestWhole_sub_le q)).2
  have : (nearestWhole q : ℚ) < z + 1 := by linarith
  exact Int.lt_add_one_iff.mp (mod_cast this)

theorem nearestWhole_intCast (z : ℤ) : nearestWhole z = z :=
  have h : (0 : ℚ) < 1 / 2 := by norm_num
  le_antisymm (nearestWhole_le (lt_add_of_pos_right _ h)) (le_nearestWhole (sub_lt_self _ h))

end BillGrammar
