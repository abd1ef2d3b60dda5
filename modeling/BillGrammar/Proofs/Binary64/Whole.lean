import BillGrammar.Proofs.Binary64.PowerOfTen
import Mathlib.Data.Rat.Floor

namespace BillGrammar.Binary64

variable {x : Binary64} {d e k n : Nat} {q : ℚ}

theorem ceil_div (n : Nat) (hd : 0 < d) : ⌈(n / d : ℚ)⌉ = ((n + d - 1) / d : ℕ) := by
  have hd' : (0 : ℚ) < d := Nat.cast_pos.mpr hd
  have hlow : (n + d - 1) / d * d < n + d :=
    (Nat.div_mul_le_self _ _).trans_lt (by omega)
  have hhigh : n ≤ (n + d - 1) / d * d := by
    have := Nat.lt_div_mul_add (a := n + d - 1) hd
    omega
  rw [Int.ceil_eq_iff, sub_lt_iff_lt_add, Int.cast_natCast, div_add_one hd'.ne', lt_div_iff₀ hd',
    div_le_iff₀ hd']
  exact ⟨by exact_mod_cast hlow, by exact_mod_cast hhigh⟩

theorem ceil_withSign (s : Bool) (n : Nat) (hd : 0 < d) :
    (⌈withSign s (n / d)⌉ : ℚ) =
      withSign s ((if s then n / d else (n + d - 1) / d : ℕ) : ℚ) := by
  cases s
  · rw [withSign_false, withSign_false, if_neg Bool.false_ne_true, ceil_div _ hd, Int.cast_natCast]
  · rw [withSign_true, withSign_true, if_pos rfl, Int.ceil_neg, Rat.floor_natCast_div_natCast,
      ← Int.natCast_div, Int.cast_neg, Int.cast_natCast]

theorem isNearest_ofUnits_mul_one (s : Bool) (n : Nat) :
    (ofUnits s (n * one) 1).IsNearest (withSign s n) := by
  have h := isNearest_ofUnits s (n * one) Nat.one_pos
  rwa [Nat.cast_one, div_one, Nat.cast_mul, mul_div_cancel_right₀ _ one_cast_pos.ne'] at h

theorem isNearest_ceil (hx : x.isFinite) : x.ceil.IsNearest ⌈x.toRat⌉ := by
  obtain ⟨s, k, rfl⟩ := exists_eq_finite hx
  rw [toRat_finite, ceil_withSign _ _ one_pos, ceil]
  exact isNearest_ofUnits_mul_one _ _

theorem pow_dvd_units (h : 2 * binadeCount * 2 ^ e ≤ units k) : 2 ^ e ∣ units k := by
  obtain ⟨m, hk, hm, he⟩ := exists_binade k
  rw [hk, units_eq hm.le he] at h ⊢
  have hlt : 2 ^ e < 2 ^ (k / binadeCount - 1) :=
    Nat.lt_of_mul_lt_mul_left (h.trans_lt (Nat.mul_lt_mul_of_pos_right hm (Nat.two_pow_pos _)))
  exact Dvd.dvd.mul_left (Nat.pow_dvd_pow 2 ((Nat.pow_lt_pow_iff_right one_lt_two).mp hlt).le) m

theorem one_dvd_units (h : 2 * binadeCount * one ≤ units k) : one ∣ units k := by
  simp only [one, Nat.pow_eq] at *
  generalize 1074 = e at *
  exact pow_dvd_units h

theorem exists_toRat_eq_intCast (hx : x.isFinite) (h : (2 * binadeCount : ℕ) ≤ |x.toRat|) :
    ∃ z : ℤ, x.toRat = z := by
  obtain ⟨s, k, rfl⟩ := exists_eq_finite hx
  have habs : |(finite s k).toRat| = units k / one := by
    have hq : (0 : ℚ) ≤ units k / one := by positivity
    rw [toRat_finite]
    cases s
    · exact abs_of_nonneg hq
    · rw [withSign_true, abs_neg, abs_of_nonneg hq]
  rw [habs, le_div_iff₀ one_cast_pos] at h
  obtain ⟨w, hw⟩ := one_dvd_units (by exact_mod_cast h)
  rw [toRat_finite, hw, Nat.cast_mul, mul_div_cancel_left₀ _ one_cast_pos.ne']
  cases s
  · exact ⟨w, by rw [withSign_false, Int.cast_natCast]⟩
  · exact ⟨-w, by rw [withSign_true, Int.cast_neg, Int.cast_natCast]⟩

theorem valueAt_succ_mul_binadeCount (h : 52 + e = n + 1074) :
    valueAt ((e + 1) * binadeCount : ℕ) = 2 ^ n := by
  have hunits : units ((e + 1) * binadeCount) = 2 ^ n * one := by
    simp only [one, Nat.pow_eq]
    generalize 1074 = c at *
    rw [units_succ_mul_binadeCount, h, Nat.pow_add]
  rw [valueAt_natCast, hunits, Nat.cast_mul, mul_div_cancel_right₀ _ one_cast_pos.ne',
    Nat.cast_pow, Nat.cast_two]

theorem IsNearest.isFinite_of_abs_le (h : x.IsNearest q) (hn : n ≤ 1000) (hq : |q| ≤ 2 ^ n) :
    x.isFinite ∧ |x.toRat| ≤ 2 ^ n := by
  have hend : valueAt ((n + 1023) * binadeCount : ℕ) = 2 ^ n :=
    valueAt_succ_mul_binadeCount (e := n + 1022) (by omega)
  rw [← hend] at hq ⊢
  have hle : |nearest q| ≤ ((n + 1023) * binadeCount : ℕ) := by
    rw [abs_le, ← valueAt_neg] at hq
    rw [abs_le, ← nearest_valueAt ((n + 1023) * binadeCount : ℕ), ← nearest_neg, ← valueAt_neg]
    exact ⟨nearest_mono hq.1, nearest_mono hq.2⟩
  have hlt : (n + 1023) * binadeCount < finiteCount :=
    Nat.mul_lt_mul_of_pos_right (by omega) binadeCount_pos
  have hfin := h.isFinite (hle.trans_lt (Int.ofNat_lt.mpr hlt))
  rw [abs_le] at hle ⊢
  rw [h.toRat_eq hfin, ← valueAt_neg]
  exact ⟨hfin, valueAt_mono hle.1, valueAt_mono hle.2⟩

theorem exists_units_eq_mul_one (hn : n ≠ 0) (hle : n ≤ 2 * binadeCount) :
    ∃ k, units k = n * one := by
  have hlow : 2 ^ n.log2 ≤ n := Nat.log2_self_le hn
  have hhigh : n < 2 ^ (n.log2 + 1) := Nat.lt_log2_self
  have hcount : binadeCount = 2 ^ 52 := by decide
  set i := 52 - n.log2 with hi
  have hm : n * 2 ^ i ≤ 2 * binadeCount := by
    rcases Nat.lt_or_ge 52 n.log2 with hlog | hlog
    · rw [hi, Nat.sub_eq_zero_of_le hlog.le, Nat.pow_zero, Nat.mul_one]
      exact hle
    · rw [hcount, ← Nat.pow_succ', show Nat.succ 52 = n.log2 + 1 + i by omega, Nat.pow_add]
      exact Nat.mul_le_mul_right _ hhigh.le
  have hm' : binadeCount ≤ n * 2 ^ i := by
    rw [hcount]
    calc 2 ^ 52 ≤ 2 ^ (n.log2 + i) := Nat.pow_le_pow_right (by decide) (by omega)
      _ = 2 ^ n.log2 * 2 ^ i := Nat.pow_add 2 _ _
      _ ≤ n * 2 ^ i := Nat.mul_le_mul_right _ hlow
  have hle : i ≤ 1074 := by omega
  simp only [one, Nat.pow_eq]
  generalize 1074 = c at *
  refine ⟨(c - i) * binadeCount + n * 2 ^ i, ?_⟩
  rw [units_eq hm (.inr hm'), Nat.mul_assoc, ← Nat.pow_add, Nat.add_sub_cancel' hle]

theorem valueAt_nearest_intCast {z : ℤ} (hz : |z| ≤ (2 * binadeCount : ℕ)) :
    valueAt (nearest z) = z := by
  have hnat {n : ℕ} (hn : n ≤ 2 * binadeCount) : valueAt (nearest n) = n := by
    rcases eq_or_ne n 0 with rfl | hne
    · rw [Nat.cast_zero, nearest_zero, valueAt_zero]
    · obtain ⟨k, hk⟩ := exists_units_eq_mul_one hne hn
      have hvalue : valueAt k = n := by
        rw [valueAt_natCast, hk, Nat.cast_mul, mul_div_cancel_right₀ _ one_cast_pos.ne']
      rw [← hvalue, nearest_valueAt]
  obtain ⟨n, rfl | rfl⟩ := z.eq_nat_or_neg
  · rw [Nat.abs_cast, Nat.cast_le] at hz
    exact hnat hz
  · rw [abs_neg, Nat.abs_cast, Nat.cast_le] at hz
    rw [Int.cast_neg, nearest_neg, valueAt_neg, Int.cast_natCast, hnat hz]

theorem intCast_lt_valueAt_nearest {z : ℤ} (hz : |z| ≤ (2 * binadeCount : ℕ)) (hne : z ≠ 0)
    (hq : |(z : ℚ) - q| ≤ 1 / 2) (hlt : |(z : ℚ)| < 2 * binadeCount * (q - z)) :
    z < valueAt (nearest q) := by
  have hc : (0 : ℚ) < 2 * binadeCount := by
    have := binadeCount_pos
    positivity
  have hpos : (z : ℚ) < q := sub_pos.mp (pos_of_mul_pos_right ((abs_nonneg _).trans_lt hlt) hc.le)
  have hle : (z : ℚ) ≤ valueAt (nearest q) :=
    (valueAt_nearest_intCast hz).symm.trans_le (valueAt_mono (nearest_mono hpos.le))
  refine hle.lt_of_ne fun heq => ?_
  have hone : (1 : ℚ) ≤ |(z : ℚ)| := by exact_mod_cast Int.one_le_abs hne
  have htri := abs_sub_abs_le_abs_sub (z : ℚ) q
  have hsmall : valueAt binadeCount ≤ 1 / 10 ^ 1 := valueAt_binadeCount_le (by decide)
  have herror := (abs_nearest_error_le (show valueAt binadeCount ≤ |q| by linarith)).1
  rw [← heq, abs_sub_comm, abs_of_pos (sub_pos.mpr hpos)] at herror
  exact hlt.not_ge herror

theorem IsNearest.exists_ceil (h : x.IsNearest q) (hq : |q| ≤ (2 * binadeCount : ℕ)) :
    ∃ c : ℤ, x.ceil.HasValue c ∧ valueAt (nearest q) ≤ c ∧ ∀ z : ℤ, q ≤ z → c ≤ z := by
  have hcount : ((2 * binadeCount : ℕ) : ℚ) = 2 ^ 53 := by
    have : 2 * binadeCount = 2 ^ 53 := by decide
    rw [this, Nat.cast_pow, Nat.cast_two]
  obtain ⟨hfin, habs⟩ := h.isFinite_of_abs_le (n := 53) (by decide) (hq.trans_eq hcount)
  have hle {z : ℤ} (hz : |z| ≤ (2 * binadeCount : ℕ)) (hqz : q ≤ z) : ⌈x.toRat⌉ ≤ z := by
    rw [Int.ceil_le, h.toRat_eq hfin, ← valueAt_nearest_intCast hz]
    exact valueAt_mono (nearest_mono hqz)
  have hceil : |⌈x.toRat⌉| ≤ (2 * binadeCount : ℕ) := by
    rw [← hcount, abs_le] at habs
    rw [abs_le] at hq ⊢
    refine ⟨?_, hle (by rw [Nat.abs_cast]) (by rw [Int.cast_natCast]; exact hq.2)⟩
    have := habs.1.trans (Int.le_ceil x.toRat)
    exact_mod_cast this
  have hnear := isNearest_ceil hfin
  have hceil' : |(⌈x.toRat⌉ : ℚ)| ≤ 2 ^ 53 := by
    rw [← hcount, ← Int.cast_abs, ← Int.cast_natCast, Int.cast_le]
    exact hceil
  have hfin' := (hnear.isFinite_of_abs_le (by decide) hceil').1
  refine ⟨_, ⟨hfin', by rw [hnear.toRat_eq hfin', valueAt_nearest_intCast hceil]⟩,
    (h.toRat_eq hfin).symm.trans_le (Int.le_ceil _), fun z hz => ?_⟩
  rcases le_or_gt |z| (2 * binadeCount : ℕ) with hsmall | hlarge
  · exact hle hsmall hz
  · rw [abs_le] at hq hceil
    have : (-(2 * binadeCount : ℕ) : ℤ) ≤ z := by
      have := hq.1.trans hz
      exact_mod_cast this
    rw [lt_abs] at hlarge
    omega

end BillGrammar.Binary64
