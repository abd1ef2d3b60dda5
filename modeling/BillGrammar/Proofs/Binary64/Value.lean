import BillGrammar.Binary64.Arithmetic
import BillGrammar.Proofs.Binary64.Nearest

/-!
The rational values of numbers of 64 bits.  A number is nearest to a value if it has the rank of
the nearest number, where infinities stand for all numbers that are too large.
-/

namespace BillGrammar.Binary64

variable {x y z : Binary64} {p q : ℚ} {r s : ℤ}

/-- The exact value of a finite number, and zero for others. -/
def toRat : Binary64 → ℚ
  | .finite s k => signedUnits s k / one
  | _ => 0

def withSign (s : Bool) (q : ℚ) : ℚ := if s then -q else q

@[simp]
theorem withSign_false (q : ℚ) : withSign false q = q := rfl

@[simp]
theorem withSign_true (q : ℚ) : withSign true q = -q := rfl

theorem withSign_xor_mul (s t : Bool) (p q : ℚ) :
    withSign (s ^^ t) (p * q) = withSign s p * withSign t q := by
  cases s <;> cases t <;> simp

theorem withSign_xor_div (s t : Bool) (p q : ℚ) :
    withSign (s ^^ t) (p / q) = withSign s p / withSign t q := by
  cases s <;> cases t <;> simp [neg_div, div_neg]

theorem toRat_finite (s : Bool) (k : Fin finiteCount) :
    (finite s k).toRat = withSign s (units k / one) := by
  cases s
  · rw [toRat, signedUnits, if_neg Bool.false_ne_true, Int.cast_natCast, withSign_false]
  · rw [toRat, signedUnits, if_pos rfl, Int.cast_neg, Int.cast_natCast, withSign_true, neg_div]

theorem exists_eq_finite (hx : x.isFinite) : ∃ s k, x = finite s k := by
  cases x with
  | nan => cases hx
  | infinite s => cases hx
  | finite s k => exact ⟨s, k, rfl⟩

theorem exists_rank?_eq (hx : x.isFinite) : ∃ r, x.rank? = some r ∧ |r| < finiteCount ∧
    x.toRat = valueAt r := by
  obtain ⟨s, k, rfl⟩ := exists_eq_finite hx
  refine ⟨_, rfl, ?_, ?_⟩
  · rw [abs_ite, abs_neg, ite_id, Nat.abs_cast]
    exact Int.ofNat_lt.mpr k.isLt
  · rw [toRat_finite, ← valueAt_natCast]
    cases s
    · rfl
    · exact (valueAt_neg _).symm

theorem isFinite_of_rank? (hx : x.rank? = some r) (hr : |r| < finiteCount) : x.isFinite := by
  cases x with
  | nan => cases hx
  | infinite s =>
    obtain rfl := Option.some.inj hx
    cases s <;> simp at hr
  | finite s k => rfl

theorem rank?_eq_nearest (hx : x.isFinite) : x.rank? = some (nearest x.toRat) := by
  obtain ⟨r, hr, -, hq⟩ := exists_rank?_eq hx
  rw [hq, nearest_valueAt, hr]

theorem abs_nearest_toRat_lt (hx : x.isFinite) : |nearest x.toRat| < finiteCount := by
  obtain ⟨r, -, hlt, hq⟩ := exists_rank?_eq hx
  rwa [hq, nearest_valueAt]

theorem valueAt_nearest_toRat (hx : x.isFinite) : valueAt (nearest x.toRat) = x.toRat := by
  obtain ⟨r, -, -, hq⟩ := exists_rank?_eq hx
  rw [hq, nearest_valueAt]

theorem le_iff_of_rank? (hx : x.rank? = some r) (hy : y.rank? = some s) : x ≤ y ↔ r ≤ s := by
  change x.lessEq y = true ↔ _
  rw [lessEq, hx, hy]
  exact decide_eq_true_iff

theorem lt_iff_of_rank? (hx : x.rank? = some r) (hy : y.rank? = some s) : x < y ↔ r < s := by
  change x.less y = true ↔ _
  rw [less, hx, hy]
  exact decide_eq_true_iff

theorem le_iff_toRat (hx : x.isFinite) (hy : y.isFinite) : x ≤ y ↔ x.toRat ≤ y.toRat := by
  rw [le_iff_of_rank? (rank?_eq_nearest hx) (rank?_eq_nearest hy), ← valueAt_le_iff,
    valueAt_nearest_toRat hx, valueAt_nearest_toRat hy]

theorem lt_iff_toRat (hx : x.isFinite) (hy : y.isFinite) : x < y ↔ x.toRat < y.toRat := by
  rw [lt_iff_of_rank? (rank?_eq_nearest hx) (rank?_eq_nearest hy), ← valueAt_lt_iff,
    valueAt_nearest_toRat hx, valueAt_nearest_toRat hy]

/-- The rank that a number of rank `r` has among the numbers of 64 bits. -/
def clamp (r : ℤ) : ℤ := -(finiteCount : ℤ) ⊔ (r ⊓ finiteCount)

theorem clamp_mono (h : r ≤ s) : clamp r ≤ clamp s := sup_le_sup_left (inf_le_inf_right _ h) _

theorem clamp_of_abs_lt (h : |r| < finiteCount) : clamp r = r := by
  rw [abs_lt] at h
  rw [clamp, inf_of_le_left h.2.le, sup_of_le_right h.1.le]

theorem eq_of_clamp_eq (h : clamp r = s) (hs : |s| < finiteCount) : r = s := by
  rw [abs_lt] at hs
  unfold clamp at h
  generalize (finiteCount : ℤ) = n at *
  omega

theorem clamp_of_le (h : (finiteCount : ℤ) ≤ r) : clamp r = finiteCount := by
  rw [clamp, inf_of_le_right h, sup_of_le_right (by omega)]

theorem clamp_of_le_neg (h : r ≤ -(finiteCount : ℤ)) : clamp r = -finiteCount := by
  rw [clamp, inf_of_le_left (by omega), sup_of_le_left h]

def IsNearest (x : Binary64) (q : ℚ) : Prop := x.rank? = some (clamp (nearest q))

theorem isNearest_toRat (hx : x.isFinite) : x.IsNearest x.toRat := by
  rw [IsNearest, clamp_of_abs_lt (abs_nearest_toRat_lt hx), rank?_eq_nearest hx]

theorem IsNearest.isFinite (h : x.IsNearest q) (hq : |nearest q| < finiteCount) : x.isFinite := by
  rw [IsNearest, clamp_of_abs_lt hq] at h
  exact isFinite_of_rank? h hq

theorem IsNearest.nearest_eq (h : x.IsNearest q) (hx : x.isFinite) :
    nearest q = nearest x.toRat :=
  eq_of_clamp_eq (Option.some.inj (h.symm.trans (rank?_eq_nearest hx))) (abs_nearest_toRat_lt hx)

theorem IsNearest.toRat_eq (h : x.IsNearest q) (hx : x.isFinite) :
    x.toRat = valueAt (nearest q) := by
  rw [h.nearest_eq hx, valueAt_nearest_toRat hx]

theorem IsNearest.le (hx : x.IsNearest p) (hy : y.IsNearest q) (h : p ≤ q) : x ≤ y :=
  (le_iff_of_rank? hx hy).mpr (clamp_mono (nearest_mono h))

theorem le_clamp_iff (h : |r| < finiteCount) : r ≤ clamp s ↔ r ≤ s := by
  rw [abs_lt] at h
  unfold clamp
  generalize (finiteCount : ℤ) = n at *
  omega

theorem clamp_lt_iff (h : |r| < finiteCount) : clamp s < r ↔ s < r := by
  rw [← not_le, le_clamp_iff h, not_le]

theorem clamp_le_iff (h : |r| < finiteCount) : clamp s ≤ r ↔ s ≤ r := by
  rw [abs_lt] at h
  unfold clamp
  generalize (finiteCount : ℤ) = n at *
  omega

theorem IsNearest.le_iff (hy : y.IsNearest q) (hx : x.isFinite) :
    x ≤ y ↔ nearest x.toRat ≤ nearest q := by
  rw [le_iff_of_rank? (rank?_eq_nearest hx) hy, le_clamp_iff (abs_nearest_toRat_lt hx)]

theorem IsNearest.lt_iff (hy : y.IsNearest q) (hx : x.isFinite) :
    y < x ↔ nearest q < nearest x.toRat := by
  rw [lt_iff_of_rank? hy (rank?_eq_nearest hx), clamp_lt_iff (abs_nearest_toRat_lt hx)]

theorem IsNearest.ge_iff (hy : y.IsNearest q) (hx : x.isFinite) :
    y ≤ x ↔ nearest q ≤ nearest x.toRat := by
  rw [le_iff_of_rank? hy (rank?_eq_nearest hx), clamp_le_iff (abs_nearest_toRat_lt hx)]

theorem exists_rank?_of_le (h : x ≤ y) :
    ∃ r s, x.rank? = some r ∧ y.rank? = some s ∧ r ≤ s := by
  change x.lessEq y = true at h
  unfold lessEq at h
  split at h
  · next r s hr hs => exact ⟨r, s, hr, hs, of_decide_eq_true h⟩
  · cases h

theorem exists_rank?_of_lt (h : x < y) :
    ∃ r s, x.rank? = some r ∧ y.rank? = some s ∧ r < s := by
  change x.less y = true at h
  unfold less at h
  split at h
  · next r s hr hs => exact ⟨r, s, hr, hs, of_decide_eq_true h⟩
  · cases h

protected theorem le_trans (h : x ≤ y) (h' : y ≤ z) : x ≤ z := by
  obtain ⟨r, s, hr, hs, hle⟩ := exists_rank?_of_le h
  obtain ⟨s', t, hs', ht, hle'⟩ := exists_rank?_of_le h'
  obtain rfl := Option.some.inj (hs.symm.trans hs')
  exact (le_iff_of_rank? hr ht).mpr (hle.trans hle')

protected theorem lt_of_le_of_lt (h : x ≤ y) (h' : y < z) : x < z := by
  obtain ⟨r, s, hr, hs, hle⟩ := exists_rank?_of_le h
  obtain ⟨s', t, hs', ht, hlt⟩ := exists_rank?_of_lt h'
  obtain rfl := Option.some.inj (hs.symm.trans hs')
  exact (lt_iff_of_rank? hr ht).mpr (hle.trans_lt hlt)

protected theorem le_of_lt (h : x < y) : x ≤ y := by
  obtain ⟨r, s, hr, hs, hlt⟩ := exists_rank?_of_lt h
  exact (le_iff_of_rank? hr hs).mpr hlt.le

theorem not_lt_of_le (h : x ≤ y) : ¬y < x := by
  obtain ⟨r, s, hr, hs, hle⟩ := exists_rank?_of_le h
  rw [lt_iff_of_rank? hs hr]
  exact hle.not_gt

theorem isFinite_of_le_of_le (hx : x.isFinite) (hz : z.isFinite) (h : x ≤ y) (h' : y ≤ z) :
    y.isFinite := by
  obtain ⟨r, hr, hrlt, -⟩ := exists_rank?_eq hx
  obtain ⟨s, hs, hslt, -⟩ := exists_rank?_eq hz
  obtain ⟨r', t, -, ht, -⟩ := exists_rank?_of_le h
  rw [le_iff_of_rank? hr ht] at h
  rw [le_iff_of_rank? ht hs] at h'
  rw [abs_lt] at hrlt hslt
  exact isFinite_of_rank? ht (abs_lt.mpr ⟨hrlt.1.trans_le h, h'.trans_lt hslt.2⟩)

theorem eq_infinite_of_le (hx : x.isFinite) (h : x ≤ y) (hy : ¬y.isFinite) :
    y = infinite false := by
  obtain ⟨r, s, hr, hs, hle⟩ := exists_rank?_of_le h
  obtain ⟨r', hr', hlt, -⟩ := exists_rank?_eq hx
  obtain rfl := Option.some.inj (hr.symm.trans hr')
  cases y with
  | nan => cases hs
  | finite s k => exact absurd rfl hy
  | infinite s =>
    cases s
    · rfl
    · rw [rank?, if_pos rfl] at hs
      obtain rfl := Option.some.inj hs
      exact absurd (abs_lt.mp hlt).1 hle.not_gt

theorem le_infinite (hx : x.isFinite) : x ≤ infinite false := by
  obtain ⟨r, hr, hlt, -⟩ := exists_rank?_eq hx
  refine (le_iff_of_rank? hr rfl).mpr ?_
  rw [if_neg Bool.false_ne_true]
  exact (abs_lt.mp hlt).2.le

theorem IsNearest.isFinite_of_mem (hy : y.IsNearest q) (hx : x.isFinite) (hz : z.isFinite)
    (hq : q ∈ Set.Icc x.toRat z.toRat) : y.isFinite :=
  isFinite_of_le_of_le hx hz ((isNearest_toRat hx).le hy hq.1) (hy.le (isNearest_toRat hz) hq.2)

structure HasValue (x : Binary64) (q : ℚ) : Prop where
  isFinite : x.isFinite
  toRat_eq : x.toRat = q

theorem HasValue.valueAt_nearest (hx : x.HasValue q) : valueAt (nearest q) = q := by
  rw [← hx.toRat_eq, valueAt_nearest_toRat hx.isFinite]

theorem IsNearest.hasValue (hx : x.IsNearest q) (hz : z.HasValue q) : x.HasValue q := by
  have hx' : x.IsNearest z.toRat := hz.toRat_eq.symm ▸ hx
  have hfin := hx'.isFinite (abs_nearest_toRat_lt hz.isFinite)
  exact ⟨hfin, by rw [hx'.toRat_eq hfin, valueAt_nearest_toRat hz.isFinite, hz.toRat_eq]⟩

theorem le_max_left_of_lt (h : x < z) : x ≤ x.max y := by
  obtain ⟨r, -, hr, -⟩ := exists_rank?_of_lt h
  rw [max]
  split
  · next hle =>
    exact hle.resolve_left (by rintro rfl; cases hr)
  · exact (le_iff_of_rank? hr hr).mpr le_rfl

theorem hasValue_max (hx : x.HasValue p) (hy : y.isFinite) (h : y ≤ x) : (x.max y).HasValue p := by
  rw [max]
  split
  · next hle =>
    have hle : x ≤ y := hle.resolve_left (by rintro rfl; cases hx.isFinite)
    refine ⟨hy, hx.toRat_eq ▸ le_antisymm ?_ ?_⟩
    · exact (le_iff_toRat hy hx.isFinite).mp h
    · exact (le_iff_toRat hx.isFinite hy).mp hle
  · exact hx

theorem hasValue_ofRank (hr : |r| < finiteCount) : (ofRank r).HasValue (valueAt r) := by
  have hlt : r.natAbs < finiteCount := Int.ofNat_lt.mp (by rwa [Int.natCast_natAbs])
  rw [ofRank, dif_pos hlt]
  refine ⟨rfl, ?_⟩
  rw [toRat_finite, ← valueAt_natCast]
  dsimp only
  rcases lt_or_ge r 0 with h | h
  · rw [decide_eq_true h, withSign_true, Int.ofNat_natAbs_of_nonpos h.le, valueAt_neg, neg_neg]
  · rw [decide_eq_false h.not_gt, withSign_false, Int.natAbs_of_nonneg h]

theorem hasValue_pred (hx : x.isFinite) (h : -(finiteCount : ℤ) < nearest x.toRat - 1) :
    x.pred.HasValue (valueAt (nearest x.toRat - 1)) := by
  have hlt := (abs_lt.mp (abs_nearest_toRat_lt hx)).2
  rw [pred, rank?_eq_nearest hx]
  exact hasValue_ofRank (abs_lt.mpr ⟨h, (Int.sub_one_lt_of_le le_rfl).trans hlt⟩)

theorem isNearest_ofUnits (s : Bool) (n : Nat) {d : Nat} (hd : 0 < d) :
    (ofUnits s n d).IsNearest (withSign s (n / d / one)) := by
  have hn : nearest (withSign s ((n : ℚ) / d / one)) =
      if s then -(nearestOrdinal n d : ℤ) else nearestOrdinal n d := by
    cases s
    · exact nearest_units_div n hd
    · rw [withSign_true, nearest_neg, nearest_units_div n hd, if_pos rfl]
  rw [IsNearest, hn]
  unfold ofUnits
  dsimp only
  split
  case isTrue h =>
    rw [clamp_of_abs_lt (by rw [abs_ite, abs_neg, ite_id, Nat.abs_cast]; exact Int.ofNat_lt.mpr h),
      rank?]
  case isFalse h =>
    have hle : (finiteCount : ℤ) ≤ nearestOrdinal n d := Int.ofNat_le.mpr (not_lt.mp h)
    cases s
    · rw [rank?, if_neg Bool.false_ne_true, if_neg Bool.false_ne_true, clamp_of_le hle]
    · rw [rank?, if_pos rfl, if_pos rfl, clamp_of_le_neg (neg_le_neg hle)]

theorem exists_toRat_sub_eq (hx : x.isFinite) (hy : y.isFinite) :
    ∃ z : ℤ, x.toRat - y.toRat = z / one := by
  obtain ⟨s, j, rfl⟩ := exists_eq_finite hx
  obtain ⟨t, k, rfl⟩ := exists_eq_finite hy
  refine ⟨signedUnits s j - signedUnits t k, ?_⟩
  rw [toRat, toRat, ← sub_div, ← Int.cast_sub]

theorem toRat_zero (s : Bool) : (zero s).toRat = 0 := by
  rw [zero, toRat_finite]
  dsimp only
  rw [units_zero, Nat.cast_zero, zero_div]
  cases s
  · rfl
  · exact neg_zero

theorem isNearest_zero (s : Bool) : (zero s).IsNearest 0 :=
  toRat_zero s ▸ isNearest_toRat rfl

theorem withSign_natAbs (z : ℤ) : withSign (z < 0) z.natAbs = z := by
  rcases lt_or_ge z 0 with h | h
  · rw [decide_eq_true h, withSign_true, ← Int.cast_natCast, Int.ofNat_natAbs_of_nonpos h.le,
      Int.cast_neg, neg_neg]
  · rw [decide_eq_false h.not_gt, withSign_false, ← Int.cast_natCast, Int.natAbs_of_nonneg h]

theorem withSign_div (s : Bool) (p q : ℚ) : withSign s (p / q) = withSign s p / q := by
  cases s <;> simp [neg_div]

theorem isNearest_add (hx : x.isFinite) (hy : y.isFinite) :
    (x + y).IsNearest (x.toRat + y.toRat) := by
  obtain ⟨s, j, rfl⟩ := exists_eq_finite hx
  obtain ⟨t, k, rfl⟩ := exists_eq_finite hy
  change (if signedUnits s j + signedUnits t k = 0 then zero (s && t)
    else ofUnits (signedUnits s j + signedUnits t k < 0)
      (signedUnits s j + signedUnits t k).natAbs 1).IsNearest _
  rw [toRat, toRat, ← add_div, ← Int.cast_add]
  generalize signedUnits s j + signedUnits t k = sum
  split
  case isTrue h =>
    rw [h, Int.cast_zero, zero_div]
    exact isNearest_zero _
  case isFalse =>
    have h := isNearest_ofUnits (sum < 0) sum.natAbs Nat.one_pos
    rwa [Nat.cast_one, div_one, withSign_div, withSign_natAbs] at h

theorem isFinite_neg (hx : x.isFinite) : (-x).isFinite := by
  obtain ⟨s, k, rfl⟩ := exists_eq_finite hx
  rfl

theorem toRat_neg (hx : x.isFinite) : (-x).toRat = -x.toRat := by
  obtain ⟨s, k, rfl⟩ := exists_eq_finite hx
  change (finite (!s) k).toRat = _
  rw [toRat_finite, toRat_finite]
  cases s
  · rfl
  · exact (neg_neg _).symm

theorem isNearest_sub (hx : x.isFinite) (hy : y.isFinite) :
    (x - y).IsNearest (x.toRat - y.toRat) := by
  have h := isNearest_add hx (isFinite_neg hy)
  rwa [toRat_neg hy, ← sub_eq_add_neg] at h

theorem finite_mul_finite (s t : Bool) (j k : Fin finiteCount) :
    finite s j * finite t k = ofUnits (s ^^ t) (units j * units k) one := by
  change mul _ _ = _
  rw [mul]

theorem finite_div_finite (s t : Bool) (j k : Fin finiteCount) (hk : k.val ≠ 0) :
    finite s j / finite t k = ofUnits (s ^^ t) (units j * one) (units k) := by
  change div _ _ = _
  rw [div, if_neg hk]

theorem isNearest_mul (hx : x.isFinite) (hy : y.isFinite) :
    (x * y).IsNearest (x.toRat * y.toRat) := by
  obtain ⟨s, j, rfl⟩ := exists_eq_finite hx
  obtain ⟨t, k, rfl⟩ := exists_eq_finite hy
  have h := isNearest_ofUnits (s ^^ t) (units j * units k) one_pos
  rwa [Nat.cast_mul, div_div, ← div_mul_div_comm, withSign_xor_mul, ← toRat_finite,
    ← toRat_finite, ← finite_mul_finite] at h

theorem isNearest_div (hx : x.isFinite) (hy : y.isFinite) (h₀ : y.toRat ≠ 0) :
    (x / y).IsNearest (x.toRat / y.toRat) := by
  obtain ⟨s, j, rfl⟩ := exists_eq_finite hx
  obtain ⟨t, k, rfl⟩ := exists_eq_finite hy
  have hk : k.val ≠ 0 := by
    rintro hk
    rw [toRat_finite, hk, units_zero, Nat.cast_zero, zero_div] at h₀
    cases t <;> simp at h₀
  have hpos : 0 < units k := units_zero.symm.trans_lt (units_strictMono (Nat.pos_of_ne_zero hk))
  have h := isNearest_ofUnits (s ^^ t) (units j * one) hpos
  rwa [Nat.cast_mul, div_right_comm, mul_div_cancel_right₀ _ one_cast_pos.ne',
    ← div_div_div_cancel_right₀ one_cast_pos.ne', withSign_xor_div, ← toRat_finite,
    ← toRat_finite, ← finite_div_finite _ _ _ _ hk] at h

/-! Arithmetic with what is not finite. -/

theorem toRat_finite_eq_zero_iff {s : Bool} {k : Fin finiteCount} :
    (finite s k).toRat = 0 ↔ k.val = 0 := by
  have hsign : withSign s (units k / one) = 0 ↔ (units k / one : ℚ) = 0 := by
    cases s <;> simp only [withSign_false, withSign_true, neg_eq_zero]
  rw [toRat_finite, hsign, div_eq_zero_iff, or_iff_left one_cast_pos.ne', Nat.cast_eq_zero]
  nth_rewrite 1 [← units_zero]
  exact units_strictMono.injective.eq_iff

theorem mul_infinite (hx : x.isFinite) (h : 0 < x.toRat) : x * infinite false = infinite false := by
  obtain ⟨s, k, rfl⟩ := exists_eq_finite hx
  have hk : k.val ≠ 0 := mt toRat_finite_eq_zero_iff.mpr h.ne'
  have hs : s = false := by
    by_contra! hs
    rw [Bool.eq_true_of_not_eq_false hs, toRat_finite, withSign_true, Left.neg_pos_iff] at h
    exact absurd h (div_nonneg (Nat.cast_nonneg _) one_cast_pos.le).not_gt
  change (if k.val = 0 then nan else infinite (false ^^ s)) = _
  rw [if_neg hk, hs]
  rfl

theorem mul_infinite_of_zero {s : Bool} (hx : x.isFinite) (h : x.toRat = 0) : x * infinite s = nan := by
  obtain ⟨t, k, rfl⟩ := exists_eq_finite hx
  change (if k.val = 0 then nan else infinite (s ^^ t)) = _
  rw [if_pos (toRat_finite_eq_zero_iff.mp h)]

theorem add_infinite {s : Bool} (hx : x.isFinite) : x + infinite s = infinite s := by
  obtain ⟨t, k, rfl⟩ := exists_eq_finite hx
  rfl

theorem add_nan (x : Binary64) : x + nan = nan := by
  cases x <;> rfl

end BillGrammar.Binary64
