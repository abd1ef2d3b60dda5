import BillGrammar.Proofs.Binary64.Whole
import BillGrammar.Proofs.Placeholder.Draws
import BillGrammar.Proofs.Placeholder.Drawn

namespace BillGrammar

open Binary64

namespace NumberRange

variable {r : NumberRange} {u x : Binary64}

structure Accepted (r : NumberRange) : Prop where
  min_finite : r.min.isFinite
  max_finite : r.max.isFinite
  ordered : ¬r.max < r.min
  precision_le : r.precision ≤ maxPrecision

theorem isFinite_of_readBound (h : readBound b raw = .ok x) : x.isFinite := by
  unfold readBound at h
  split at h
  · cases h
  · cases h
  · split at h <;> cases h
    next hread => exact (Option.mem_filter_iff.mp hread).2

theorem le_of_readPrecision (h : readPrecision raw = .ok p) : p ≤ maxPrecision := by
  unfold readPrecision at h
  split at h
  · cases h
    exact Nat.zero_le _
  · cases h
    exact Nat.zero_le _
  · split at h <;> cases h
    next hread => simpa using (Option.mem_filter_iff.mp hread).2

theorem accepted_of_ofParameters (h : ofParameters ps = .ok r) : r.Accepted := by
  simp only [ofParameters, bind, Except.bind] at h
  split at h
  case h_1 => cases h
  case h_2 min hmin =>
    split at h
    case h_1 => cases h
    case h_2 max hmax =>
      split at h
      case isTrue => cases h
      case isFalse hlt =>
        dsimp only [pure, Except.pure] at h
        split at h <;> cases h
        next hp =>
          exact ⟨isFinite_of_readBound hmin, isFinite_of_readBound hmax, hlt,
            le_of_readPrecision hp⟩

namespace Accepted

variable (h : r.Accepted)

include h

theorem toRat_le : r.min.toRat ≤ r.max.toRat :=
  le_of_not_gt fun hlt => h.ordered ((lt_iff_toRat h.max_finite h.min_finite).mpr hlt)

theorem precision_lt : r.precision < 23 := h.precision_le.trans_lt (by decide)

/-! What is written is finite if the bounds are not equal and the number drawn is not below them. -/

theorem below_lt (hlt : r.min < r.max) : r.below < r.max := by
  rcases below_cases h.min_finite h.max_finite hlt with ⟨-, hbelow⟩ | ⟨-, hpred⟩
  · exact hbelow
  · rw [lt_iff_toRat hpred.isFinite h.max_finite, hpred.toRat_eq]
    exact (valueAt_lt_iff.mpr (Int.sub_one_lt_of_le le_rfl)).trans_eq
      (valueAt_nearest_toRat h.max_finite)

theorem max_below_lt (hlt : r.min < r.max) : r.below.max r.min < r.max := by
  rw [Binary64.max]
  split
  · exact hlt
  · exact h.below_lt hlt

theorem isFinite_max_below (hlt : r.min < r.max) : (r.below.max r.min).isFinite := by
  have hle := Binary64.le_of_lt (h.below_lt hlt)
  rw [Binary64.max]
  split
  case isTrue => exact h.min_finite
  case isFalse hnot =>
    obtain ⟨b, m, hb, -, -⟩ := exists_rank?_of_le hle
    obtain ⟨n, hn, -, -⟩ := exists_rank?_eq h.min_finite
    have hmin : r.min ≤ r.below := by
      rw [le_iff_of_rank? hn hb]
      exact (le_total n b).resolve_right fun hle => hnot (.inr ((le_iff_of_rank? hb hn).mpr hle))
    exact isFinite_of_le_of_le h.min_finite h.max_finite hmin hle

theorem isFinite_above (hmin : ¬∃ z : ℤ, r.min.toRat = z) : r.above.isFinite := by
  have hpow := hasValue_powNat_ten h.precision_lt
  have hmin' : |r.min.toRat| ≤ 2 ^ 53 := by
    by_contra! hlarge
    exact hmin (exists_toRat_eq_intCast h.min_finite (by exact_mod_cast hlarge.le))
  have hscale : (10 : ℚ) ^ r.precision ≤ 2 ^ 67 :=
    (pow_le_pow_right₀ (by norm_num) h.precision_le).trans (by norm_num [maxPrecision])
  have hscaled : |r.min.toRat * 10 ^ r.precision| ≤ 2 ^ 120 := by
    rw [abs_mul, abs_of_pos (ten_pow_pos r.precision)]
    exact (mul_le_mul hmin' hscale (ten_pow_pos _).le (by norm_num)).trans (by norm_num)
  have hprod := isNearest_mul h.min_finite hpow.isFinite
  rw [hpow.toRat_eq] at hprod
  obtain ⟨hfin, habs⟩ := hprod.isFinite_of_abs_le (by decide) hscaled
  have hceil : |(⌈(r.min * powNat 10 r.precision).toRat⌉ : ℚ)| ≤ 2 ^ 120 := by
    rw [abs_le] at habs ⊢
    refine ⟨habs.1.trans (Int.le_ceil _), ?_⟩
    have : ⌈(r.min * powNat 10 r.precision).toRat⌉ ≤ (2 ^ 120 : ℤ) :=
      Int.ceil_le.mpr (by exact_mod_cast habs.2)
    exact_mod_cast this
  obtain ⟨hfin', habs'⟩ := (isNearest_ceil hfin).isFinite_of_abs_le (by decide) hceil
  have hdiv := isNearest_div hfin' hpow.isFinite (by rw [hpow.toRat_eq]; exact (ten_pow_pos _).ne')
  rw [hpow.toRat_eq] at hdiv
  refine (hdiv.isFinite_of_abs_le (n := 120) (by decide) ?_).1
  rw [abs_div, abs_of_pos (ten_pow_pos _)]
  exact (div_le_self (abs_nonneg _) (one_le_pow₀ (by norm_num))).trans habs'

theorem isFinite_settle (hlt : r.min < r.max) (hx : r.min ≤ x) : (r.settle x).isFinite := by
  rcases settle_cases h.min_finite h.max_finite hlt hx with
    ⟨-, heq⟩ | ⟨hfin, -, ⟨hlow, -, heq⟩ | ⟨-, heq⟩⟩
  · rw [heq]
    exact h.isFinite_max_below hlt
  · rw [heq]
    refine h.isFinite_above fun ⟨z, hz⟩ => not_lt_of_le ?_ hlow
    -- no number from a whole bound on is written below it
    refine (isNearest_toRat h.min_finite).le
      (isNearest_snap hfin (h.precision_lt.le.trans (by decide))) ?_
    rw [le_iff_toRat h.min_finite hfin, hz] at hx
    rw [hz, ← written_intCast r.precision z]
    exact written_mono hx
  · rw [heq]
    exact hfin

/-! What is drawn, for a difference of the bounds that is finite and for one that is not. -/

theorem width_eq_infinite (hwidth : ¬(r.max - r.min).isFinite) :
    r.max - r.min = infinite false := by
  refine eq_infinite_of_le hasValue_zero.isFinite ?_ hwidth
  refine (isNearest_toRat hasValue_zero.isFinite).le (isNearest_sub h.max_finite h.min_finite) ?_
  rw [hasValue_zero.toRat_eq]
  exact sub_nonneg.mpr h.toRat_le

theorem lt_of_not_isFinite (hwidth : ¬(r.max - r.min).isFinite) : r.min < r.max := by
  rw [lt_iff_toRat h.min_finite h.max_finite]
  refine h.toRat_le.lt_of_ne fun heq => hwidth ?_
  have hzero := isNearest_sub h.max_finite h.min_finite
  rw [heq, sub_self, ← hasValue_zero.toRat_eq] at hzero
  exact (hzero.hasValue ⟨hasValue_zero.isFinite, rfl⟩).isFinite

theorem isFinite_value (hlt : ¬r.min < r.max) (h₀ : 0 ≤ u) (h₁ : u < 1) :
    (r.value u).isFinite := by
  rw [lt_iff_toRat h.min_finite h.max_finite, not_lt] at hlt
  have hwidth : (r.max - r.min).HasValue 0 := by
    have hnear := isNearest_sub h.max_finite h.min_finite
    rw [le_antisymm hlt h.toRat_le, sub_self] at hnear
    exact hnear.hasValue hasValue_zero
  have hpart : (u * (r.max - r.min)).HasValue 0 := by
    have hnear := isNearest_mul (isFinite_of_unit h₀ h₁) hwidth.isFinite
    rw [hwidth.toRat_eq, mul_zero] at hnear
    exact hnear.hasValue hasValue_zero
  have hnear := isNearest_add h.min_finite hpart.isFinite
  rw [hpart.toRat_eq, add_zero] at hnear
  exact (hnear.hasValue ⟨h.min_finite, rfl⟩).isFinite

theorem value_eq_infinite (hwidth : ¬(r.max - r.min).isFinite) (h₀ : 0 < u) (h₁ : u < 1) :
    r.value u = infinite false := by
  have hu := isFinite_of_unit (Binary64.le_of_lt h₀) h₁
  rw [lt_iff_toRat hasValue_zero.isFinite hu, hasValue_zero.toRat_eq] at h₀
  rw [value, h.width_eq_infinite hwidth, mul_infinite hu h₀, add_infinite h.min_finite]

theorem value_eq_nan (hwidth : ¬(r.max - r.min).isFinite) (h₀ : 0 ≤ u) (hzero : u ≤ 0) :
    r.value u = nan := by
  have hu := isFinite_of_le_of_le hasValue_zero.isFinite hasValue_zero.isFinite h₀ hzero
  rw [le_iff_toRat hasValue_zero.isFinite hu, hasValue_zero.toRat_eq] at h₀
  rw [le_iff_toRat hu hasValue_zero.isFinite, hasValue_zero.toRat_eq] at hzero
  rw [value, h.width_eq_infinite hwidth, mul_infinite_of_zero hu (le_antisymm hzero h₀)]
  exact add_nan _

theorem isNumeral_render (h₀ : 0 ≤ u) (h₁ : u < 1) (hu : (r.max - r.min).isFinite ∨ 0 < u) :
    Decimal.IsNumeral r.precision (r.render u).toList := by
  refine isNumeral_renderPlaces _ ?_
  by_cases hlt : r.min < r.max
  · refine h.isFinite_settle hlt ?_
    by_cases hwidth : (r.max - r.min).isFinite
    · exact Proper.min_le_value ⟨h.min_finite, h.max_finite, hwidth, hlt, h.precision_le⟩ h₀ h₁
    · rw [h.value_eq_infinite hwidth (hu.resolve_left hwidth) h₁]
      exact le_infinite h.min_finite
  · have hle : r.max ≤ r.min := by
      rw [le_iff_toRat h.max_finite h.min_finite]
      rwa [lt_iff_toRat h.min_finite h.max_finite, not_lt] at hlt
    rw [settle, if_pos hle]
    exact h.isFinite_value hlt h₀ h₁

theorem render_eq_nan (hwidth : ¬(r.max - r.min).isFinite) (h₀ : 0 ≤ u) (hzero : u ≤ 0) :
    r.render u = "NaN" := by
  have hlt := h.lt_of_not_isFinite hwidth
  have hnot : ¬r.max ≤ nan := fun hle => by
    obtain ⟨-, s, -, hs, -⟩ := exists_rank?_of_le hle
    cases hs
  have hnot' : ¬(nan < r.min ∧ r.above < r.max) := fun ⟨hlt, _⟩ => by
    obtain ⟨s, -, hs, -⟩ := exists_rank?_of_lt hlt
    cases hs
  rw [render, h.value_eq_nan hwidth h₀ hzero, settle, if_neg fun hle => not_lt_of_le hle hlt]
  dsimp only [snap]
  rw [if_neg hnot, if_neg hnot']
  rfl

end Accepted

end NumberRange

namespace Lexicon

/-- What the number placeholders that are accepted are replaced by: a numeral with exactly the places
asked for, unless the difference of the bounds is too large for a number and the fraction drawn is
zero. -/
theorem fragment_number {σ : Type} [RandomSource σ] (L : Lexicon) (token : String) (x : σ)
    (r : Request) (n : NumberRange)
    (hr : Request.parse ((alternatives token).get (choice token x).1) = .ok r)
    (hnumber : r.category = .number)
    (hrange : r.range ((alternatives token).get (choice token x).1) = .ok n)
    (h₀ : 0 ≤ (RandomSource.unit (choice token x).2).1)
    (h₁ : (RandomSource.unit (choice token x).2).1 < 1) :
    let u := (RandomSource.unit (choice token x).2).1
    ∃ text, ((L.fragment token).run.run x).1 = .ok text ∧
      ((n.max - n.min).isFinite ∨ 0 < u → Decimal.IsNumeral n.precision text.toList) ∧
      (¬(n.max - n.min).isFinite → u ≤ 0 → text = "NaN") := by
  intro u
  have haccepted : n.Accepted :=
    NumberRange.accepted_of_ofParameters (mapError_eq_ok.mp hrange)
  refine ⟨n.render u, ?_, haccepted.isNumeral_render h₀ h₁, fun hwidth hzero =>
    haccepted.render_eq_nan hwidth h₀ hzero⟩
  rw [run_fragment, fulfil_of_number hr (Request.table?_eq_none_iff.mpr hnumber), hrange]
  rfl

theorem fragment_number_half :
    let L := ofPhrases [] [] []
    let x : FixedSource := .ofPick .last
    let token := "drug|number, 1,2 ,3"
    let r : Request := ⟨.number, .default, [" 1", "2 ", "3"]⟩
    let n : NumberRange := ⟨1, 2, 3⟩
    Request.parse ((alternatives token).get (choice token x).1) = .ok r ∧
      r.range ((alternatives token).get (choice token x).1) = .ok n ∧
      (n.max - n.min).isFinite ∧ 0 ≤ x.unit ∧ x.unit < 1 ∧
      ((L.fragment token).run.run x).1 = .ok "1.500" ∧ Decimal.IsNumeral 3 "1.500".toList := by
  intro L x token r n
  have hr : Request.parse ((alternatives token).get (choice token x).1) = .ok r := by
    decide +kernel
  have hrange : r.range ((alternatives token).get (choice token x).1) = .ok n := by decide +kernel
  have hwidth : (n.max - n.min).isFinite := by decide +kernel
  have hunit (y : FixedSource) (h : 0 ≤ y.unit ∧ y.unit < 1) :
      0 ≤ (RandomSource.unit (choice token y).2).1 ∧
        (RandomSource.unit (choice token y).2).1 < 1 := h
  have h₀ : 0 ≤ x.unit := by decide +kernel
  have h₁ : x.unit < 1 := by decide +kernel
  have htext : ((L.fragment token).run.run x).1 = .ok "1.500" := by decide +kernel
  obtain ⟨text, hok, hnumeral, -⟩ := L.fragment_number token x r n hr rfl hrange
    (hunit x ⟨h₀, h₁⟩).1 (hunit x ⟨h₀, h₁⟩).2
  obtain rfl := Except.ok.inj (htext.symm.trans hok)
  exact ⟨hr, hrange, hwidth, h₀, h₁, htext, hnumeral (.inl hwidth)⟩

/-- The bounds are numbers in order, but their difference is not a number. -/
theorem fragment_number_overflow :
    let L := ofPhrases [] [] []
    let x : FixedSource := ⟨.first, 0⟩
    let token := "number,-1.7e308,1.7e308"
    let r : Request := ⟨.number, .default, ["-1.7e308", "1.7e308"]⟩
    let n : NumberRange := ⟨-.ofNat (17 * 10 ^ 307), .ofNat (17 * 10 ^ 307), 0⟩
    Request.parse ((alternatives token).get (choice token x).1) = .ok r ∧ r.category = .number ∧
      r.range ((alternatives token).get (choice token x).1) = .ok n ∧ n.min.isFinite ∧
      n.max.isFinite ∧ n.min ≤ n.max ∧ 0 ≤ x.unit ∧ x.unit < 1 ∧
      ((L.fragment token).run.run x).1 = .ok "NaN" ∧ ¬Decimal.IsNumeral 0 "NaN".toList := by
  intro L x token r n
  refine ⟨by decide +kernel, rfl, by decide +kernel, by decide +kernel, by decide +kernel,
    by decide +kernel, by decide +kernel, by decide +kernel, by decide +kernel, fun hnumeral => ?_⟩
  have hchars : "NaN".toList = ['N', 'a', 'N'] := by decide
  rw [hchars] at hnumeral
  cases hnumeral with
  | plain hmagnitude =>
    cases hmagnitude with
    | whole hne hds => exact absurd (hds 'N' List.mem_cons_self) (by decide)

end Lexicon

end BillGrammar
