import BillGrammar.Proofs.Binary64.Spacing

/-!
The gaps between neighbours are powers of two.  A number is a multiple of the gaps on both of its
sides, and these are alike unless it is a power of two itself.
-/

namespace BillGrammar.Binary64

variable {k n : Nat} {r : ℤ}

theorem exists_units_eq_mul (k : Nat) :
    ∃ m ≤ 2 * binadeCount, units k = m * 2 ^ (k / binadeCount - 1) := by
  obtain ⟨m, hk, hm, he⟩ := exists_binade k
  refine ⟨m, hm.le, ?_⟩
  nth_rewrite 1 [hk]
  exact units_eq hm.le he

theorem exists_units_succ_eq_mul (k : Nat) :
    ∃ m ≤ 2 * binadeCount, units (k + 1) = m * 2 ^ (k / binadeCount - 1) := by
  obtain ⟨m, hk, hm, he⟩ := exists_binade k
  refine ⟨m + 1, hm, ?_⟩
  rw [units_succ, Nat.succ_mul]
  congr 1
  nth_rewrite 1 [hk]
  exact units_eq hm.le he

theorem binade_succ_cases (k : Nat) :
    (k + 1) / binadeCount - 1 = k / binadeCount - 1 ∨
      (k + 1) / binadeCount - 1 = k / binadeCount - 1 + 1 ∧
        units (k + 1) = 2 * binadeCount * 2 ^ (k / binadeCount - 1) := by
  have hk := Nat.div_add_mod' k binadeCount
  have hr := Nat.mod_lt k binadeCount_pos
  rcases (Nat.succ_le_of_lt hr).lt_or_eq with hlt | heq
  · refine .inl (congrArg (· - 1) ?_)
    nth_rewrite 1 [← hk]
    rw [Nat.add_assoc, Nat.mul_comm, Nat.mul_add_div binadeCount_pos, Nat.div_eq_of_lt hlt,
      Nat.add_zero]
  · have hsucc : k + 1 = (k / binadeCount + 1) * binadeCount := by
      rw [Nat.succ_mul]
      omega
    have hdiv : (k + 1) / binadeCount = k / binadeCount + 1 := by
      nth_rewrite 1 [hsucc]
      exact Nat.mul_div_cancel _ binadeCount_pos
    cases hq : k / binadeCount with
    | zero => exact .inl (by rw [hdiv, hq])
    | succ e =>
      refine .inr ⟨by rw [hdiv, hq]; rfl, ?_⟩
      rw [hq] at hsucc
      rw [Nat.add_sub_cancel, hsucc, Nat.add_assoc, Nat.add_mul,
        units_eq le_rfl (.inr (Nat.le_mul_of_pos_left _ two_pos))]

def gap (r : ℤ) : ℚ := valueAt r - valueAt (r - 1)

theorem gap_pos (r : ℤ) : 0 < gap r := sub_pos.mpr (valueAt_lt_iff.mpr (Int.sub_one_lt_of_le le_rfl))

theorem valueAt_sub_one (r : ℤ) : valueAt (r - 1) = valueAt r - gap r := (sub_sub_cancel _ _).symm

theorem gap_succ (r : ℤ) : gap (r + 1) = valueAt (r + 1) - valueAt r := by
  rw [gap, add_sub_cancel_right]

theorem gap_neg (r : ℤ) : gap (-r) = gap (r + 1) := by
  rw [gap, ← neg_add', valueAt_neg, valueAt_neg, gap_succ, neg_sub_neg]

theorem gap_natCast_succ (k : Nat) :
    gap (k + 1 : ℕ) = (2 ^ (k / binadeCount - 1) : ℕ) / (one : ℚ) := by
  rw [Nat.cast_succ, gap_succ, ← Nat.cast_succ, valueAt_natCast, valueAt_natCast, ← sub_div,
    Nat.succ_eq_add_one, units_succ, Nat.cast_add, add_sub_cancel_left]

theorem gap_zero : gap 0 = gap 1 := gap_neg 0

theorem eq_succ_or_zero_or_neg (r : ℤ) :
    (∃ k : ℕ, r = (k + 1 : ℕ)) ∨ r = 0 ∨ ∃ k : ℕ, r = -(k + 1 : ℕ) := by
  obtain ⟨n, rfl | rfl⟩ := r.eq_nat_or_neg <;> cases n with
  | zero => simp
  | succ k => simp

theorem exists_gap_eq (r : ℤ) : ∃ e : ℕ, gap r = (2 ^ e : ℕ) / (one : ℚ) := by
  rcases eq_succ_or_zero_or_neg r with ⟨k, rfl⟩ | rfl | ⟨k, rfl⟩
  · exact ⟨_, gap_natCast_succ k⟩
  · exact ⟨_, gap_zero.trans (gap_natCast_succ 0)⟩
  · rw [gap_neg]
    exact ⟨_, gap_natCast_succ (k + 1)⟩

theorem gap_natCast_cases (k : Nat) :
    gap (k + 1 + 1 : ℕ) = gap (k + 1 : ℕ) ∨
      gap (k + 1 + 1 : ℕ) = 2 * gap (k + 1 : ℕ) ∧
        valueAt (k + 1 : ℕ) = (2 * binadeCount : ℕ) * gap (k + 1 : ℕ) := by
  rw [gap_natCast_succ (k + 1), gap_natCast_succ, valueAt_natCast]
  rcases binade_succ_cases k with h | ⟨h, hunits⟩
  · exact .inl (by rw [h])
  · refine .inr ⟨?_, ?_⟩
    · rw [h, Nat.pow_succ', Nat.cast_mul, Nat.cast_two, mul_div_assoc]
    · rw [hunits, Nat.cast_mul, mul_div_assoc]

/-- The gaps on the two sides of a number are alike, or it is a power of two and the gap away from
zero is twice the other. -/
theorem gap_cases (r : ℤ) : gap (r + 1) = gap r ∨
    gap (r + 1) = 2 * gap r ∧ valueAt r = (2 * binadeCount : ℕ) * gap r ∨
    gap r = 2 * gap (r + 1) ∧ valueAt r = -((2 * binadeCount : ℕ) * gap (r + 1)) := by
  rcases eq_succ_or_zero_or_neg r with ⟨k, rfl⟩ | rfl | ⟨k, rfl⟩
  · rw [← Nat.cast_succ]
    exact (gap_natCast_cases k).imp_right .inl
  · exact .inl gap_zero.symm
  · have h : gap (-(k + 1 : ℕ) + 1) = gap (k + 1 : ℕ) := by
      rw [Nat.cast_succ, neg_add_rev, neg_add_cancel_comm, gap_neg]
    rw [h, gap_neg, valueAt_neg, ← Nat.cast_succ]
    rcases gap_natCast_cases k with hgap | ⟨hgap, hvalue⟩
    · exact .inl hgap.symm
    · exact .inr (.inr ⟨hgap, by rw [hvalue]⟩)

theorem gap_le_two_mul (r : ℤ) : gap r ≤ 2 * gap (r + 1) := by
  have hpos := gap_pos r
  have hpos' := gap_pos (r + 1)
  rcases gap_cases r with h | ⟨h, -⟩ | ⟨h, -⟩ <;> linarith

theorem gap_succ_le_two_mul (r : ℤ) : gap (r + 1) ≤ 2 * gap r := by
  have hpos := gap_pos r
  have hpos' := gap_pos (r + 1)
  rcases gap_cases r with h | ⟨h, -⟩ | ⟨h, -⟩ <;> linarith

theorem exists_valueAt_eq_mul_gap (r : ℤ) :
    ∃ z : ℤ, |z| ≤ (2 * binadeCount : ℕ) ∧ valueAt r = z * gap r := by
  have hmul {k e : ℕ} (h : ∃ m ≤ 2 * binadeCount, units k = m * 2 ^ e) :
      ∃ m : ℕ, m ≤ 2 * binadeCount ∧ valueAt k = m * ((2 ^ e : ℕ) / (one : ℚ)) := by
    obtain ⟨m, hm, hk⟩ := h
    exact ⟨m, hm, by rw [valueAt_natCast, hk, Nat.cast_mul, mul_div_assoc]⟩
  rcases eq_succ_or_zero_or_neg r with ⟨k, rfl⟩ | rfl | ⟨k, rfl⟩
  · obtain ⟨m, hm, hvalue⟩ := hmul (exists_units_succ_eq_mul k)
    rw [gap_natCast_succ]
    exact ⟨m, by rw [Nat.abs_cast]; exact_mod_cast hm, hvalue⟩
  · exact ⟨0, by simp, by simp⟩
  · obtain ⟨m, hm, hvalue⟩ := hmul (exists_units_eq_mul (k + 1))
    rw [gap_neg, ← Nat.cast_succ, gap_natCast_succ, valueAt_neg]
    refine ⟨-m, by rw [abs_neg, Nat.abs_cast]; exact_mod_cast hm, ?_⟩
    rw [hvalue, Int.cast_neg, neg_mul, Int.cast_natCast]

theorem abs_valueAt_le (r : ℤ) : |valueAt r| ≤ (2 * binadeCount : ℕ) * gap r := by
  obtain ⟨z, hz, hvalue⟩ := exists_valueAt_eq_mul_gap r
  have hz' : |(z : ℚ)| ≤ (2 * binadeCount : ℕ) := by
    rwa [← Int.cast_abs, ← Int.cast_natCast, Int.cast_le]
  rw [hvalue, abs_mul, abs_of_pos (gap_pos r)]
  exact mul_le_mul_of_nonneg_right hz' (gap_pos r).le

theorem binadeCount_mul_gap_lt (hk : binadeCount ≤ k) :
    binadeCount * gap (k + 1 : ℕ) < valueAt (k + 1 : ℕ) := by
  have hle : ((binadeCount * 2 ^ (k / binadeCount - 1) : ℕ) : ℚ) ≤ units k :=
    Nat.cast_le.mpr (gap_mul_le hk)
  have hlt : valueAt k < valueAt (k + 1 : ℕ) := valueAt_natCast_lt k.lt_succ_self
  refine lt_of_le_of_lt ?_ hlt
  rw [gap_natCast_succ, valueAt_natCast, ← mul_div_assoc, ← Nat.cast_mul]
  exact div_le_div_of_nonneg_right hle one_cast_pos.le

theorem le_binadeCount_of_valueAt_le (h : valueAt r ≤ binadeCount * gap r) : r ≤ binadeCount := by
  by_contra! hlt
  obtain ⟨k, rfl⟩ := Int.eq_succ_of_zero_lt ((Int.natCast_nonneg _).trans_lt hlt)
  exact h.not_gt (binadeCount_mul_gap_lt (show binadeCount ≤ k by omega))

theorem valueAt_natCast_of_le (hn : n ≤ 2 * binadeCount) : valueAt n = n / one := by
  have hunits := units_eq hn (.inl (Eq.refl 0))
  rw [Nat.zero_mul, Nat.zero_add, Nat.pow_zero, Nat.mul_one] at hunits
  rw [valueAt_natCast, hunits]

theorem valueAt_nearest_of_le (h : nearest (n / one) ≤ binadeCount) :
    valueAt (nearest (n / one)) = n / one := by
  have hn : n ≤ 2 * binadeCount := by
    by_contra! hlt
    have hmono := nearest_mono
      (div_le_div_of_nonneg_right (Nat.cast_le.mpr hlt.le) one_cast_pos.le)
    rw [← valueAt_natCast_of_le le_rfl, nearest_valueAt] at hmono
    have := binadeCount_pos
    have := hmono.trans h
    omega
  rw [← valueAt_natCast_of_le hn, nearest_valueAt]

/-- The error is relative also next to zero, where whole numbers of units are exact. -/
theorem nearest_units_error_le (z : ℤ) :
    2 * binadeCount * |valueAt (nearest (z / one)) - z / one| ≤ |(z / one : ℚ)| := by
  rcases le_total (valueAt binadeCount) |(z / one : ℚ)| with hle | hle
  · exact (abs_nearest_error_le hle).2
  · have hexact : valueAt (nearest (z / one)) = z / one := by
      have hnat {n : ℕ} (hn : |(n / one : ℚ)| ≤ valueAt binadeCount) :
          valueAt (nearest (n / one)) = n / one :=
        valueAt_nearest_of_le ((nearest_mono ((le_abs_self _).trans hn)).trans_eq
          (nearest_valueAt _))
      obtain ⟨n, rfl | rfl⟩ := z.eq_nat_or_neg
      · exact hnat hle
      · rw [Int.cast_neg, neg_div, abs_neg] at hle
        rw [Int.cast_neg, neg_div, nearest_neg, valueAt_neg, Int.cast_natCast, hnat hle]
    rw [hexact, sub_self, abs_zero, mul_zero]
    exact abs_nonneg _

theorem abs_valueAt_le_of_nearest_sub_lt {q : ℚ} (h : nearest (valueAt r - q) < r - 1) :
    5 * |valueAt r| ≤ 4 * (2 * binadeCount * q) := by
  have hhigh := le_nearest (valueAt r - q)
  have hle := valueAt_mono (Int.le_sub_one_of_lt h)
  have hle' := valueAt_mono (Int.add_one_le_of_lt h)
  have hratio := gap_succ_le_two_mul (r - 1)
  have habs := abs_valueAt_le r
  have hc : (0 : ℚ) ≤ 2 * binadeCount := by positivity
  rw [sub_add_cancel] at hratio
  rw [valueAt_sub_one, valueAt_sub_one] at hle
  rw [valueAt_sub_one] at hle'
  rw [Nat.cast_mul, Nat.cast_two] at habs
  have := mul_le_mul_of_nonneg_left (show 5 * gap r ≤ 4 * q by linarith) hc
  linarith

end BillGrammar.Binary64
