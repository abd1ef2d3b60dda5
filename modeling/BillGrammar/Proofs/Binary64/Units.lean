import BillGrammar.Binary64.Basic
import BillGrammar.Proofs.Rounding
import Mathlib.Order.Monotone.Basic
import Mathlib.Tactic.Ring

namespace BillGrammar.Binary64

variable {d e j k m n : Nat}

theorem binadeCount_pos : 0 < binadeCount := Nat.pow_pos two_pos

theorem one_pos : 0 < one := by
  simp only [one, Nat.pow_eq]
  positivity

theorem units_eq (hm : m ≤ 2 * binadeCount) (he : e = 0 ∨ binadeCount ≤ m) :
    units (e * binadeCount + m) = m * 2 ^ e := by
  unfold units
  have hc := binadeCount_pos
  generalize binadeCount = c at *
  simp only [Nat.pow_eq]
  rcases lt_or_ge m c with h | h
  · obtain rfl := he.resolve_right h.not_ge
    simp [h]
  · rw [if_neg (h.trans (Nat.le_add_left m _)).not_gt]
    obtain ⟨j, rfl⟩ := Nat.exists_eq_add_of_le h
    rcases (show j ≤ c by omega).lt_or_eq with hj | rfl
    · rw [show e * c + (c + j) = j + c * (e + 1) by ring, Nat.add_mul_mod_self_left,
        Nat.add_mul_div_left _ _ hc, Nat.mod_eq_of_lt hj, Nat.div_eq_of_lt hj, Nat.zero_add,
        Nat.add_sub_cancel]
    · rw [show e * j + (j + j) = j * (e + 2) by ring, Nat.mul_mod_right,
        Nat.mul_div_cancel_left _ hc, Nat.add_succ_sub_one, Nat.pow_succ]
      ring

theorem exists_binade (k : Nat) : ∃ m, k = (k / binadeCount - 1) * binadeCount + m ∧
    m < 2 * binadeCount ∧ (k / binadeCount - 1 = 0 ∨ binadeCount ≤ m) := by
  have hk := Nat.div_add_mod' k binadeCount
  have hr := Nat.mod_lt k binadeCount_pos
  generalize binadeCount = c at *
  cases hq : k / c with
  | zero =>
    rw [hq] at hk
    exact ⟨k, by omega, by omega, .inl rfl⟩
  | succ e =>
    rw [hq, Nat.succ_mul] at hk
    refine ⟨c + k % c, ?_, by omega, .inr (Nat.le_add_right _ _)⟩
    rw [Nat.add_sub_cancel]
    omega

theorem units_succ (k : Nat) : units (k + 1) = units k + 2 ^ (k / binadeCount - 1) := by
  obtain ⟨m, hk, hm, he⟩ := exists_binade k
  generalize k / binadeCount - 1 = e at *
  rw [hk, Nat.add_assoc, units_eq hm (he.imp_right Nat.le_succ_of_le), units_eq hm.le he,
    Nat.succ_mul]

theorem units_strictMono : StrictMono units :=
  strictMono_nat_of_lt_succ fun k => by
    rw [units_succ]
    exact Nat.lt_add_of_pos_right (Nat.two_pow_pos _)

theorem units_zero : units 0 = 0 := by
  simpa using units_eq (m := 0) (e := 0) (Nat.zero_le _) (.inl rfl)

theorem gap_mono (h : j ≤ k) : (2 : Nat) ^ (j / binadeCount - 1) ≤ 2 ^ (k / binadeCount - 1) :=
  Nat.pow_le_pow_right two_pos (Nat.sub_le_sub_right (Nat.div_le_div_right h) 1)

theorem units_gap_le (k : Nat) : 2 * units (k + 1) ≤ units k + units (k + 2) := by
  have h₁ := units_succ k
  have h₂ : units (k + 2) = units (k + 1) + 2 ^ ((k + 1) / binadeCount - 1) := units_succ (k + 1)
  have := gap_mono (Nat.le_add_right k 1)
  omega

theorem gap_mul_le (hk : binadeCount ≤ k) : binadeCount * 2 ^ (k / binadeCount - 1) ≤ units k := by
  obtain ⟨m, hkm, hm, he⟩ := exists_binade k
  generalize k / binadeCount - 1 = e at *
  rw [hkm, units_eq hm.le he]
  refine Nat.mul_le_mul_right _ ?_
  rcases he with rfl | he
  · rwa [hkm, Nat.zero_mul, Nat.zero_add] at hk
  · exact he

theorem units_gap_eq (hj : j ≤ k) (hk : k + 1 < (j / binadeCount + 1) * binadeCount) :
    units k + units (k + 2) = 2 * units (k + 1) := by
  have h₁ := units_succ k
  have h₂ : units (k + 2) = units (k + 1) + 2 ^ ((k + 1) / binadeCount - 1) := units_succ (k + 1)
  have hle := Nat.div_le_div_right (c := binadeCount) hj
  have hle' := Nat.div_le_div_right (c := binadeCount) k.le_succ
  have hlt := (Nat.div_lt_iff_lt_mul binadeCount_pos).mpr hk
  have : (k + 1) / binadeCount = k / binadeCount := by
    refine le_antisymm ?_ hle'
    exact (Nat.le_of_lt_succ hlt).trans hle
  rw [this] at h₂
  omega

theorem units_succ_mul_binadeCount (e : Nat) : units ((e + 1) * binadeCount) = 2 ^ (52 + e) := by
  rw [Nat.succ_mul, units_eq (Nat.le_mul_of_pos_left _ two_pos) (.inr le_rfl), Nat.pow_add]

theorem units_add_pow_le (hj : j ≠ 0) (h : 2 ^ e ∣ units j) :
    units j + 2 ^ e ≤ units ((j / binadeCount + 1) * binadeCount) := by
  have hlt : j < (j / binadeCount + 1) * binadeCount :=
    (Nat.div_lt_iff_lt_mul binadeCount_pos).mp (Nat.lt_succ_self _)
  have hpos : 0 < units j := units_zero.symm.trans_lt (units_strictMono (Nat.pos_of_ne_zero hj))
  have hunits := units_strictMono hlt
  rw [units_succ_mul_binadeCount] at hunits ⊢
  have he : e < 52 + j / binadeCount :=
    (Nat.pow_lt_pow_iff_right (by decide)).mp ((Nat.le_of_dvd hpos h).trans_lt hunits)
  obtain ⟨a, ha⟩ := h
  obtain ⟨b, hb⟩ := Nat.pow_dvd_pow 2 he.le
  rw [ha, hb] at hunits ⊢
  rw [← Nat.mul_succ]
  exact Nat.mul_le_mul_left _ (Nat.lt_of_mul_lt_mul_left hunits)

theorem units_add_one_le (hj : j ≠ 0) (h : one ∣ units j) :
    units j + one ≤ units ((j / binadeCount + 1) * binadeCount) := by
  simp only [one, Nat.pow_eq] at *
  generalize 1074 = e at *
  exact units_add_pow_le hj h

theorem exists_nearestOrdinal_eq (n : Nat) (hd : 0 < d) : ∃ e m,
    nearestOrdinal n d = e * binadeCount + m ∧ units (nearestOrdinal n d) = m * 2 ^ e ∧
    m = roundDiv n (d * 2 ^ e) ∧ (e = 0 ∨ binadeCount ≤ m ∧ binadeCount * (d * 2 ^ e) ≤ n) := by
  have hlt : n < 2 * binadeCount * (d * 2 ^ ((n / d).log2 - 52)) := by
    have hlog : n / d < 2 ^ ((n / d).log2 - 52 + 53) :=
      Nat.lt_log2_self.trans_le (Nat.pow_le_pow_right two_pos (by omega))
    have h := (Nat.div_lt_iff_lt_mul hd).mp hlog
    rw [Nat.pow_add, show 2 ^ 53 = 2 * binadeCount from rfl] at h
    exact h.trans_eq (by ring)
  have hge : (n / d).log2 - 52 = 0 ∨ binadeCount * (d * 2 ^ ((n / d).log2 - 52)) ≤ n := by
    refine (Nat.eq_zero_or_pos _).imp_right fun hpos => ?_
    have hlog : 2 ^ ((n / d).log2 - 52 + 52) ≤ n / d := by
      rw [Nat.sub_add_cancel (Nat.lt_of_sub_pos hpos).le]
      exact Nat.log2_self_le (by rintro h; simp [h] at hpos)
    have h := (Nat.le_div_iff_mul_le hd).mp hlog
    rw [Nat.pow_add, show 2 ^ 52 = binadeCount from rfl] at h
    exact h.trans_eq' (by ring)
  have hk : nearestOrdinal n d = ((n / d).log2 - 52) * binadeCount +
      roundDiv n (d * 2 ^ ((n / d).log2 - 52)) := rfl
  generalize (n / d).log2 - 52 = e at *
  have hD : 0 < d * 2 ^ e := Nat.mul_pos hd (Nat.two_pow_pos e)
  have hm : roundDiv n (d * 2 ^ e) ≤ 2 * binadeCount :=
    (roundDiv_mono hD hlt.le).trans_eq (roundDiv_mul_self _ hD)
  have hc : e = 0 ∨ binadeCount ≤ roundDiv n (d * 2 ^ e) ∧ binadeCount * (d * 2 ^ e) ≤ n :=
    hge.imp_right fun h => ⟨(roundDiv_mul_self _ hD).symm.trans_le (roundDiv_mono hD h), h⟩
  exact ⟨e, _, hk, by rw [hk, units_eq hm (hc.imp_right And.left)], rfl, hc⟩

theorem nearestOrdinal_zero (d : Nat) : nearestOrdinal 0 d = 0 := by
  simp [nearestOrdinal, roundDiv]

theorem nearestOrdinal_mul_right (hc : 0 < c) :
    nearestOrdinal (n * c) (d * c) = nearestOrdinal n d := by
  unfold nearestOrdinal
  dsimp only
  rw [Nat.mul_div_mul_right _ _ hc, Nat.mul_right_comm, roundDiv_mul_right hc]

theorem le_nearestOrdinal (n : Nat) (hd : 0 < d) :
    2 * n ≤ (units (nearestOrdinal n d) + units (nearestOrdinal n d + 1)) * d := by
  obtain ⟨e, m, hk, hu, hm, hc⟩ := exists_nearestOrdinal_eq n hd
  have hgap : 2 ^ e ≤ 2 ^ (nearestOrdinal n d / binadeCount - 1) := by
    refine Nat.pow_le_pow_right two_pos ?_
    rcases hc with rfl | ⟨hc, -⟩
    · exact Nat.zero_le _
    · refine Nat.le_sub_one_of_lt ((Nat.le_div_iff_mul_le binadeCount_pos).mpr ?_)
      rw [hk, Nat.succ_mul]
      exact Nat.add_le_add_left hc _
  rw [units_succ, hu]
  calc 2 * n ≤ (2 * m + 1) * (d * 2 ^ e) :=
        hm ▸ le_roundDiv_mul n (Nat.mul_pos hd (Nat.two_pow_pos e))
    _ = (m * 2 ^ e + (m * 2 ^ e + 2 ^ e)) * d := by ring
    _ ≤ _ := Nat.mul_le_mul_right d (by omega)

theorem nearestOrdinal_le (n : Nat) (hd : 0 < d) (hk : nearestOrdinal n d = j + 1) :
    (units j + units (j + 1)) * d ≤ 2 * n := by
  obtain ⟨e, m, hkm, hu, hm, hc⟩ := exists_nearestOrdinal_eq n hd
  rw [hk] at hkm hu
  by_cases hgap : 2 ^ e ≤ 2 ^ (j / binadeCount - 1)
  · have hround := roundDiv_mul_le n (d * 2 ^ e)
    have hstep := units_succ j
    have : (units j + units (j + 1)) * d + d * 2 ^ e ≤ 2 * n + d * 2 ^ e :=
      calc (units j + units (j + 1)) * d + d * 2 ^ e = (units j + 2 ^ e + units (j + 1)) * d := by
            ring
        _ ≤ (m * 2 ^ e + m * 2 ^ e) * d := Nat.mul_le_mul_right d (by omega)
        _ = 2 * (m * (d * 2 ^ e)) := by ring
        _ ≤ 2 * n + d * 2 ^ e := hm ▸ hround
    exact Nat.le_of_add_le_add_right this
  · -- the step down leads out of the binade, whose lower end is not above the fraction
    have he : j / binadeCount - 1 < e := (Nat.pow_lt_pow_iff_right (by decide)).mp (not_le.mp hgap)
    obtain ⟨-, hn⟩ := hc.resolve_left (Nat.ne_zero_of_lt he)
    have hq : j / binadeCount < e + 1 := Nat.lt_add_one_of_le (Nat.le_of_pred_lt he)
    have hj : j < (e + 1) * binadeCount := (Nat.div_lt_iff_lt_mul binadeCount_pos).mp hq
    have hmc : m ≤ binadeCount := by
      rw [Nat.succ_mul] at hj
      omega
    have hle := Nat.mul_le_mul_right (2 ^ e) hmc
    have hlt : units j < units (j + 1) := units_strictMono (Nat.lt_succ_self j)
    calc (units j + units (j + 1)) * d ≤ (2 * (binadeCount * 2 ^ e)) * d :=
          Nat.mul_le_mul_right d (by omega)
      _ = 2 * (binadeCount * (d * 2 ^ e)) := by ring
      _ ≤ 2 * n := Nat.mul_le_mul_left 2 hn

theorem nearestOrdinal_mono (hd : 0 < d) (h : n ≤ m) : nearestOrdinal n d ≤ nearestOrdinal m d := by
  by_contra! hlt
  obtain ⟨j, hj⟩ := Nat.exists_eq_add_of_lt hlt
  have hlow := nearestOrdinal_le n hd hj
  have hhigh := le_nearestOrdinal m hd
  have hmono := Nat.mul_le_mul_right d (Nat.add_le_add
    (units_strictMono.monotone (Nat.le_add_right (nearestOrdinal m d) j))
    (units_strictMono.monotone (Nat.succ_le_succ (Nat.le_add_right (nearestOrdinal m d) j))))
  -- both are the middle between the same neighbours
  have : n = m := by
    simp only [Nat.succ_eq_add_one] at hmono
    omega
  subst this
  exact hlt.false

end BillGrammar.Binary64
