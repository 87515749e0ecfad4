import Acceptance.Number.Shortest
import Mathlib.Algebra.Order.Field.Power
import Mathlib.Algebra.Order.Field.Rat
import Mathlib.Tactic.FieldSimp
import Mathlib.Tactic.Linarith
import Mathlib.Tactic.Positivity
import Mathlib.Tactic.Ring
/-!
Rounding to binary64 numbers. The number nearest to a quotient depends on nothing but the value of
the quotient, and a value that has a binary64 number is rounded to just this number.
-/
namespace Acceptance.Binary64

/-- The form in which finite numbers arise: the significand has 53 binary places, or fewer at the
least exponent. -/
def Canonical : Binary64 → Prop
  | .finite _ m e => m < 2 ^ 53 ∧ -1074 ≤ e ∧ e ≤ 971 ∧ (e = -1074 ∨ 2 ^ 52 ≤ m)
  | _ => True

/-! Exponents. -/

/-- The exponent that a positive value is rounded with. -/
structure Fits (q : ℚ) (e : ℤ) : Prop where
  least : -1074 ≤ e
  lt : q < 2 ^ (e + 53)
  le : e = -1074 ∨ 2 ^ (e + 52) ≤ q

variable {q : ℚ} {e e' : ℤ} {num den num' den' m : ℕ} {negative : Bool}

theorem Fits.exponent_le (h : Fits q e) (h' : Fits q e') : e ≤ e' := by
  rcases h.le with hleast | hle
  · rw [hleast]
    exact h'.least
  · have hpow := (zpow_lt_zpow_iff_right₀ (by norm_num : (1 : ℚ) < 2)).1 (hle.trans_lt h'.lt)
    omega

theorem Fits.unique (h : Fits q e) (h' : Fits q e') : e = e' :=
  le_antisymm (h.exponent_le h') (h'.exponent_le h)

theorem fits_max (hlt : q < 2 ^ (e + 53)) (hle : 2 ^ (e + 52) ≤ q) : Fits q (max e (-1074)) := by
  rcases le_total (-1074) e with h | h
  · rw [max_eq_left h]
    exact ⟨h, hlt, .inr hle⟩
  · rw [max_eq_right h]
    refine ⟨le_refl _, hlt.trans_le ?_, .inl rfl⟩
    exact zpow_le_zpow_right₀ (by norm_num) (by omega)

theorem scaled_ratio (num : ℕ) (hden : 0 < den) (e : ℤ) : 0 < (scaled num den e).2 ∧
    ((scaled num den e).1 : ℚ) / (scaled num den e).2 * 2 ^ e = num / den := by
  have hden' : (den : ℚ) ≠ 0 := by positivity
  unfold scaled
  split
  · next he =>
    obtain ⟨k, rfl⟩ := Int.eq_ofNat_of_zero_le he
    refine ⟨Nat.mul_pos hden (Nat.pow_pos (by decide)), ?_⟩
    simp only [Int.toNat_natCast, Nat.pow_eq, Nat.cast_mul, Nat.cast_pow, Nat.cast_ofNat, zpow_natCast]
    field_simp
  · next he =>
    obtain ⟨k, hk⟩ := Int.eq_ofNat_of_zero_le (by omega : 0 ≤ -e)
    obtain rfl : e = -k := by omega
    refine ⟨hden, ?_⟩
    simp only [neg_neg, Int.toNat_natCast, Nat.pow_eq, Nat.cast_mul, Nat.cast_pow, Nat.cast_ofNat,
      zpow_neg, zpow_natCast]
    field_simp

/-- The values between which the binary logarithm puts a number. -/
theorem log2_bounds (h : num ≠ 0) : (2 : ℚ) ^ (num.log2 : ℤ) ≤ num ∧
    (num : ℚ) < 2 ^ ((num.log2 : ℤ) + 1) := by
  constructor
  · rw [zpow_natCast]
    exact_mod_cast Nat.log2_self_le h
  · exact_mod_cast Nat.lt_log2_self

/-- The values between which the logarithms of its parts put a quotient. -/
theorem quotient_bounds (hnum : num ≠ 0) (hden : den ≠ 0) :
    (2 : ℚ) ^ ((num.log2 : ℤ) - den.log2 - 1) ≤ num / den ∧
      (num : ℚ) / den < 2 ^ ((num.log2 : ℤ) - den.log2 + 1) := by
  obtain ⟨hnum₁, hnum₂⟩ := log2_bounds hnum
  obtain ⟨hden₁, hden₂⟩ := log2_bounds hden
  have hpos : (0 : ℚ) < den := by positivity
  constructor
  · rw [le_div_iff₀ hpos, sub_sub, zpow_sub₀ (by norm_num), div_mul_eq_mul_div,
      div_le_iff₀ (by positivity)]
    exact mul_le_mul hnum₁ hden₂.le hpos.le (by positivity)
  · rw [div_lt_iff₀ hpos, sub_add_eq_add_sub, zpow_sub₀ (by norm_num), div_mul_eq_mul_div,
      lt_div_iff₀ (by positivity)]
    exact mul_lt_mul hnum₂ hden₁ (by positivity) (by positivity)

theorem scaled_lt_iff (num : ℕ) (hden : 0 < den) (e : ℤ) (k : ℕ) :
    (scaled num den e).1 < 2 ^ k * (scaled num den e).2 ↔ (num : ℚ) / den < 2 ^ (e + k) := by
  obtain ⟨hd, hratio⟩ := scaled_ratio num hden e
  have hd' : (0 : ℚ) < (scaled num den e).2 := by exact_mod_cast hd
  rw [← hratio, add_comm, zpow_add₀ (by norm_num), mul_lt_mul_iff_left₀ (by positivity),
    div_lt_iff₀ hd', zpow_natCast]
  exact_mod_cast Iff.rfl

theorem fits_exponentFor (hnum : num ≠ 0) (hden : den ≠ 0) :
    Fits ((num : ℚ) / den) (exponentFor num den) := by
  obtain ⟨hlow, hhigh⟩ := quotient_bounds hnum hden
  have hsplit := scaled_lt_iff num (Nat.pos_of_ne_zero hden) ((num.log2 : ℤ) - den.log2 - 52) 52
  -- the logarithms leave two exponents, and a comparison at the lower one decides
  unfold exponentFor
  apply fits_max
  · dsimp only
    split
    · next hlt =>
      convert hsplit.1 hlt using 2
      push_cast
      ring
    · convert hhigh using 2
      ring
  · dsimp only
    split
    · convert hlow using 2
      ring
    · next hlt => exact not_lt.1 (hsplit.not.1 hlt)

/-! Significands. -/

theorem roundQuotient_mul_left {k : ℕ} (hk : 0 < k) (num den : ℕ) :
    roundQuotient (k * num) (k * den) = roundQuotient num den := by
  unfold roundQuotient
  simp only [Nat.mul_div_mul_left _ _ hk, Nat.mul_mod_mul_left, Nat.mul_left_comm 2 k,
    Nat.mul_lt_mul_left hk, gt_iff_lt]

theorem roundQuotient_congr (hden : 0 < den) (hden' : 0 < den') (h : num * den' = num' * den) :
    roundQuotient num den = roundQuotient num' den' := by
  rw [← roundQuotient_mul_left hden', ← roundQuotient_mul_left hden num', Nat.mul_comm den' num, h,
    Nat.mul_comm num', Nat.mul_comm den']

theorem roundQuotient_mul (m : ℕ) (hden : 0 < den) : roundQuotient (m * den) den = m := by
  unfold roundQuotient
  simp [Nat.mul_div_cancel _ hden, hden]

theorem roundQuotient_bounds (num den : ℕ) :
    num / den ≤ roundQuotient num den ∧ roundQuotient num den ≤ num / den + 1 := by
  unfold roundQuotient
  dsimp only
  split
  · omega
  · split <;> omega

/-- The number with a rounded significand, which may have become too large by one place. -/
def carried (negative : Bool) (m : ℕ) (e : ℤ) : Binary64 :=
  if m = 2 ^ 53 then
    if e + 1 > 971 then .infinite negative else .finite negative (2 ^ 52) (e + 1)
  else if e > 971 then .infinite negative else .finite negative m e

theorem ofRatio_eq_carried (negative : Bool) (hnum : num ≠ 0) (hden : 0 < den)
    (h : Fits ((num : ℚ) / den) e) : ofRatio negative num den =
      carried negative (roundQuotient (scaled num den e).1 (scaled num den e).2) e := by
  obtain rfl := (fits_exponentFor hnum hden.ne').unique h
  unfold ofRatio carried
  rw [if_neg hnum]
  simp only [Nat.pow_eq]
  split <;> rfl

/-- Rounding depends on nothing but the value. -/
theorem ofRatio_congr (negative : Bool) (hden : 0 < den) (hden' : 0 < den')
    (h : (num : ℚ) / den = num' / den') : ofRatio negative num den = ofRatio negative num' den' := by
  have hcross : num * den' = num' * den := by
    rw [div_eq_div_iff (by positivity) (by positivity)] at h
    exact_mod_cast h
  by_cases hnum : num = 0
  · have hnum' : num' = 0 := by
      rw [hnum, Nat.zero_mul] at hcross
      exact (Nat.mul_eq_zero.1 hcross.symm).resolve_right hden.ne'
    rw [hnum, hnum', ofRatio, ofRatio, if_pos rfl, if_pos rfl]
  · have hnum' : num' ≠ 0 := by
      rintro rfl
      rw [Nat.zero_mul] at hcross
      exact hnum ((Nat.mul_eq_zero.1 hcross).resolve_right hden'.ne')
    -- the value fixes the exponent, so both quotients are scaled by the same power
    have hfits := fits_exponentFor hnum hden.ne'
    rw [ofRatio_eq_carried negative hnum hden hfits,
      ofRatio_eq_carried negative hnum' hden' (h ▸ hfits)]
    congr 1
    obtain ⟨hd, hratio⟩ := scaled_ratio num hden (exponentFor num den)
    obtain ⟨hd', hratio'⟩ := scaled_ratio num' hden' (exponentFor num den)
    refine roundQuotient_congr hd hd' ?_
    have hsame := mul_right_cancel₀ (by positivity) (hratio.trans (h.trans hratio'.symm))
    rw [div_eq_div_iff (by positivity) (by positivity)] at hsame
    exact_mod_cast hsame

/-- A value that is a number is rounded to this number. -/
theorem ofRatio_exact (negative : Bool) (h : (Binary64.finite negative m e).Canonical) (hm : m ≠ 0)
    (hden : 0 < den) (hvalue : (num : ℚ) / den = m * 2 ^ e) :
    ofRatio negative num den = .finite negative m e := by
  obtain ⟨hlt, hleast, hmost, hnormal⟩ := h
  have hnum : num ≠ 0 := by
    rintro rfl
    rw [Nat.cast_zero, zero_div] at hvalue
    exact absurd hvalue.symm (by positivity)
  have hfits : Fits ((num : ℚ) / den) e := by
    rw [hvalue]
    refine ⟨hleast, ?_, hnormal.imp_right fun hle => ?_⟩
    · rw [add_comm, zpow_add₀ (by norm_num), mul_lt_mul_iff_left₀ (by positivity)]
      exact_mod_cast hlt
    · rw [add_comm, zpow_add₀ (by norm_num), mul_le_mul_iff_left₀ (by positivity)]
      exact_mod_cast hle
  obtain ⟨hd, hratio⟩ := scaled_ratio num hden e
  have hexact : (scaled num den e).1 = m * (scaled num den e).2 := by
    have hsame := mul_right_cancel₀ (by positivity) (hratio.trans hvalue)
    rw [div_eq_iff (by positivity)] at hsame
    exact_mod_cast hsame
  rw [ofRatio_eq_carried negative hnum hden hfits, hexact, roundQuotient_mul m hd, carried,
    if_neg hlt.ne, if_neg (by omega)]

theorem canonical_carried (negative : Bool) (hm : m ≤ 2 ^ 53) (he : -1074 ≤ e)
    (hnormal : e = -1074 ∨ 2 ^ 52 ≤ m) : (carried negative m e).Canonical := by
  unfold carried
  split
  · split
    · trivial
    · exact ⟨by norm_num, by omega, by omega, .inr (le_refl _)⟩
  · split
    · trivial
    · exact ⟨by omega, he, by omega, hnormal⟩

theorem canonical_ofRatio (negative : Bool) (num : ℕ) (hden : 0 < den) :
    (ofRatio negative num den).Canonical := by
  by_cases hnum : num = 0
  · rw [ofRatio, if_pos hnum]
    exact ⟨by norm_num, by norm_num, by norm_num, .inl rfl⟩
  · have hfits := fits_exponentFor hnum hden.ne'
    obtain ⟨hlow, hhigh⟩ := roundQuotient_bounds (scaled num den (exponentFor num den)).1
      (scaled num den (exponentFor num den)).2
    obtain ⟨hd, -⟩ := scaled_ratio num hden (exponentFor num den)
    rw [ofRatio_eq_carried negative hnum hden hfits]
    refine canonical_carried negative (hhigh.trans ?_) hfits.least (hfits.le.imp_right fun hle => ?_)
    · exact Nat.div_lt_of_lt_mul (Nat.mul_comm .. ▸ (scaled_lt_iff num hden _ 53).2 hfits.lt)
    · refine le_trans ((Nat.le_div_iff_mul_le hd).2 ?_) hlow
      exact not_lt.1 ((scaled_lt_iff num hden _ 52).not.2 (not_lt.2 hle))

/-! Decimals. -/

variable {digits digits' : ℕ} {exponent exponent' : ℤ}

/-- The number of places before the point. -/
def places (digits : ℕ) (exponent : ℤ) : ℤ := (Nat.toDigits 10 digits).length + exponent

theorem places_bounds (h : digits ≠ 0) (exponent : ℤ) :
    (10 : ℚ) ^ (places digits exponent - 1) ≤ digits * 10 ^ exponent ∧
      (digits : ℚ) * 10 ^ exponent < 10 ^ places digits exponent := by
  obtain ⟨k, hk⟩ := Nat.exists_eq_succ_of_ne_zero
    (List.length_pos_of_ne_nil (Nat.toDigits_ne_nil (n := digits) (b := 10))).ne'
  have hlow : 10 ^ k ≤ digits := by
    rcases Nat.eq_zero_or_pos k with rfl | hpos
    · exact Nat.pos_of_ne_zero h
    · by_contra hlt
      have hle := (Nat.length_toDigits_le_iff (by decide) hpos).2 (not_le.1 hlt)
      omega
  have hhigh : digits < 10 ^ (k + 1) :=
    (Nat.length_toDigits_le_iff (by decide) k.succ_pos).1 hk.le
  unfold places
  rw [hk]
  constructor
  · rw [show ((k.succ : ℕ) : ℤ) + exponent - 1 = k + exponent by push_cast; ring,
      zpow_add₀ (by norm_num), mul_le_mul_iff_left₀ (by positivity), zpow_natCast]
    exact_mod_cast hlow
  · rw [zpow_add₀ (by norm_num), mul_lt_mul_iff_left₀ (by positivity), zpow_natCast]
    exact_mod_cast hhigh

theorem places_congr (h : digits ≠ 0) (h' : digits' ≠ 0)
    (hvalue : (digits : ℚ) * 10 ^ exponent = digits' * 10 ^ exponent') :
    places digits exponent = places digits' exponent' := by
  obtain ⟨hlow, hhigh⟩ := places_bounds h exponent
  obtain ⟨hlow', hhigh'⟩ := places_bounds h' exponent'
  have hten : (1 : ℚ) < 10 := by norm_num
  have hle := (zpow_lt_zpow_iff_right₀ hten).1 ((hvalue ▸ hlow).trans_lt hhigh')
  have hge := (zpow_lt_zpow_iff_right₀ hten).1 ((hvalue ▸ hlow').trans_lt hhigh)
  omega

/-- A decimal as a quotient. -/
def fraction (digits : ℕ) (exponent : ℤ) : ℕ × ℕ :=
  if exponent ≥ 0 then (digits * 10 ^ exponent.toNat, 1) else (digits, 10 ^ (-exponent).toNat)

theorem fraction_ratio (digits : ℕ) (exponent : ℤ) : 0 < (fraction digits exponent).2 ∧
    ((fraction digits exponent).1 : ℚ) / (fraction digits exponent).2 = digits * 10 ^ exponent := by
  unfold fraction
  split
  · next he =>
    obtain ⟨k, rfl⟩ := Int.eq_ofNat_of_zero_le he
    exact ⟨Nat.one_pos, by simp⟩
  · next he =>
    obtain ⟨k, hk⟩ := Int.eq_ofNat_of_zero_le (by omega : 0 ≤ -exponent)
    obtain rfl : exponent = -k := by omega
    exact ⟨Nat.pow_pos (by decide), by simp [div_eq_mul_inv]⟩

theorem ofDecimal_eq (negative : Bool) (digits : ℕ) (exponent : ℤ) :
    ofDecimal negative digits exponent =
      if digits = 0 then zero negative
      else if places digits exponent > 310 then .infinite negative
      else if places digits exponent < -330 then zero negative
      else ofRatio negative (fraction digits exponent).1 (fraction digits exponent).2 := by
  unfold ofDecimal fraction places
  simp only [Nat.pow_eq]
  split_ifs <;> rfl

/-- Reading a decimal depends on nothing but its value. -/
theorem ofDecimal_congr (negative : Bool)
    (hvalue : (digits : ℚ) * 10 ^ exponent = digits' * 10 ^ exponent') :
    ofDecimal negative digits exponent = ofDecimal negative digits' exponent' := by
  obtain ⟨hden, hratio⟩ := fraction_ratio digits exponent
  obtain ⟨hden', hratio'⟩ := fraction_ratio digits' exponent'
  have hzero : digits = 0 ↔ digits' = 0 := by
    have hvalue := congrArg (· = 0) hvalue
    simpa [zpow_ne_zero] using hvalue
  rw [ofDecimal_eq, ofDecimal_eq]
  by_cases h : digits = 0
  · rw [if_pos h, if_pos (hzero.1 h)]
  · have h' := hzero.not.1 h
    rw [if_neg h, if_neg h', places_congr h h' hvalue,
      ofRatio_congr negative hden hden' (hratio.trans (hvalue.trans hratio'.symm))]

theorem canonical_ofDecimal (negative : Bool) (digits : ℕ) (exponent : ℤ) :
    (ofDecimal negative digits exponent).Canonical := by
  have hzero : (zero negative).Canonical := ⟨by norm_num, by norm_num, by norm_num, .inl rfl⟩
  rw [ofDecimal_eq]
  split_ifs
  · exact hzero
  · trivial
  · exact hzero
  · exact canonical_ofRatio negative _ (fraction_ratio digits exponent).1

/-- The decimal of a number has the value of the number. -/
theorem exactDecimal_value (m : ℕ) (e : ℤ) :
    ((exactDecimal m e).digits : ℚ) * 10 ^ (exactDecimal m e).exponent = m * 2 ^ e := by
  unfold exactDecimal
  split
  · next he =>
    obtain ⟨k, rfl⟩ := Int.eq_ofNat_of_zero_le he
    simp
  · next he =>
    obtain ⟨k, hk⟩ := Int.eq_ofNat_of_zero_le (by omega : 0 ≤ -e)
    obtain rfl : e = -k := by omega
    have hten : (10 : ℚ) ^ k = 2 ^ k * 5 ^ k := by rw [← mul_pow]; norm_num
    simp only [neg_neg, Int.toNat_natCast, Nat.pow_eq, Nat.cast_mul, Nat.cast_pow, Nat.cast_ofNat,
      zpow_neg, zpow_natCast, hten]
    field_simp

/-- The values between which all numbers but zero are. -/
theorem value_bounds (h : (Binary64.finite negative m e).Canonical) (hm : m ≠ 0) :
    (10 : ℚ) ^ (-324 : ℤ) < m * 2 ^ e ∧ (m : ℚ) * 2 ^ e < 10 ^ (309 : ℤ) := by
  obtain ⟨hlt, hleast, hmost, -⟩ := h
  have htwo : (1 : ℚ) ≤ 2 := by norm_num
  have hone : (1 : ℚ) ≤ m := by exact_mod_cast Nat.pos_of_ne_zero hm
  have hpow : (2 : ℚ) ^ 1074 < 10 ^ 324 := by
    have h : 2 ^ 1074 < 10 ^ 324 := by decide +kernel
    exact_mod_cast h
  have hpow' : (2 : ℚ) ^ (53 + 971 : ℤ) < 10 ^ (309 : ℤ) := by
    have h : 2 ^ (53 + 971) < 10 ^ 309 := by decide +kernel
    exact_mod_cast h
  constructor
  · calc (10 : ℚ) ^ (-324 : ℤ) < 2 ^ (-1074 : ℤ) := inv_strictAnti₀ (by positivity) hpow
      _ ≤ 2 ^ e := zpow_le_zpow_right₀ htwo hleast
      _ ≤ m * 2 ^ e := le_mul_of_one_le_left (by positivity) hone
  · have hlt' : (m : ℚ) < 2 ^ (53 : ℤ) := by exact_mod_cast hlt
    calc (m : ℚ) * 2 ^ e < 2 ^ (53 : ℤ) * 2 ^ e := mul_lt_mul_of_pos_right hlt' (by positivity)
      _ ≤ 2 ^ (53 : ℤ) * 2 ^ (971 : ℤ) :=
        mul_le_mul_of_nonneg_left (zpow_le_zpow_right₀ htwo hmost) (by positivity)
      _ = 2 ^ (53 + 971 : ℤ) := (zpow_add₀ (by norm_num) 53 971).symm
      _ < 10 ^ (309 : ℤ) := hpow'

/-- The decimal of a number is read as the number. -/
theorem ofDecimal_exact (h : (Binary64.finite negative m e).Canonical)
    (hvalue : (digits : ℚ) * 10 ^ exponent = m * 2 ^ e) :
    ofDecimal negative digits exponent = .finite negative m e := by
  obtain ⟨hden, hratio⟩ := fraction_ratio digits exponent
  rw [ofDecimal_eq]
  by_cases hm : m = 0
  · subst hm
    have hdigits : digits = 0 := by simpa [zpow_ne_zero] using hvalue
    obtain rfl : e = -1074 := h.2.2.2.resolve_right (by norm_num)
    rw [if_pos hdigits]
    rfl
  · have hdigits : digits ≠ 0 := by
      rintro rfl
      rw [Nat.cast_zero, zero_mul] at hvalue
      exact absurd hvalue.symm (by positivity)
    -- decimals that are cut off as too large or too small are beyond all numbers
    obtain ⟨hplaces, hplaces'⟩ := places_bounds hdigits exponent
    obtain ⟨hlow, hhigh⟩ := value_bounds h hm
    have hten : (1 : ℚ) < 10 := by norm_num
    have hmost := (zpow_lt_zpow_iff_right₀ hten).1 ((hvalue ▸ hplaces).trans_lt hhigh)
    have hleast := (zpow_lt_zpow_iff_right₀ hten).1 (hlow.trans (hvalue ▸ hplaces'))
    rw [if_neg hdigits, if_neg (by omega), if_neg (by omega)]
    exact ofRatio_exact negative h hm hden (hratio.trans hvalue)

end Acceptance.Binary64
