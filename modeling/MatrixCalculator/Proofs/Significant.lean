import Mathlib
import MatrixCalculator.Proofs.Numerals
import MatrixCalculator.Proofs.Rounding

namespace MatrixCalculator

namespace Decimal

variable {num den : Nat}

theorem inUnits_pos (hden : 0 < den) (unit : Int) (num : Nat) :
    0 < (inUnits unit num den).2 := by
  unfold inUnits
  split
  · exact Nat.mul_pos hden (Nat.pow_pos (by decide))
  · exact hden

theorem inUnits_eq (unit : Int) (num den : Nat) :
    ((inUnits unit num den).1 / (inUnits unit num den).2 : ℚ) = num / den / 10 ^ unit := by
  have hcast : ∀ k, ((Nat.pow 10 k : Nat) : ℚ) = 10 ^ k := fun k => by
    show ((10 ^ k : Nat) : ℚ) = _
    push_cast
    rfl
  unfold inUnits
  split
  · rename_i hunit
    have hpow : (10 : ℚ) ^ unit = 10 ^ unit.toNat := by
      rw [← zpow_natCast, Int.toNat_of_nonneg hunit]
    rw [hpow, div_div, Nat.cast_mul, hcast]
  · rename_i hunit
    have hpow : ((10 : ℚ) ^ unit)⁻¹ = 10 ^ (-unit).toNat := by
      rw [← zpow_neg, ← zpow_natCast, Int.toNat_of_nonneg (by omega)]
    rw [div_eq_mul_inv _ ((10 : ℚ) ^ unit), hpow, ← mul_div_right_comm, Nat.cast_mul, hcast]

theorem length_toDigits_bounds {n : Nat} (h : 0 < n) :
    (10 : ℚ) ^ ((Nat.toDigits 10 n).length - 1 : Int) ≤ n ∧
      (n : ℚ) < 10 ^ ((Nat.toDigits 10 n).length : Int) := by
  have hpos : 0 < (Nat.toDigits 10 n).length := Nat.length_toDigits_pos
  have hlow : 10 ^ ((Nat.toDigits 10 n).length - 1) ≤ n := by
    by_cases hone : (Nat.toDigits 10 n).length = 1
    · rw [hone]
      exact h
    · by_contra hlt
      have := (Nat.length_toDigits_le_iff (by decide) (by omega)).mpr (not_le.mp hlt)
      omega
  have hhigh : n < 10 ^ (Nat.toDigits 10 n).length :=
    (Nat.length_toDigits_le_iff (by decide) hpos).mp (le_refl _)
  have hpred : ((Nat.toDigits 10 n).length - 1 : Int) = ((Nat.toDigits 10 n).length - 1 : Nat) := by
    omega
  rw [hpred, zpow_natCast, zpow_natCast]
  exact ⟨by exact_mod_cast hlow, by exact_mod_cast hhigh⟩

/-- The power of ten of the leading digit is the greatest that is not beyond the quotient. -/
theorem leadingExponent_spec (hnum : 0 < num) (hden : 0 < den) :
    (10 : ℚ) ^ leadingExponent num den ≤ num / den ∧
      (num / den : ℚ) < 10 ^ (leadingExponent num den + 1) := by
  have hden' : (0 : ℚ) < den := by exact_mod_cast hden
  obtain ⟨hnum_low, hnum_high⟩ := length_toDigits_bounds hnum
  obtain ⟨hden_low, hden_high⟩ := length_toDigits_bounds hden
  unfold leadingExponent
  dsimp only
  generalize ((Nat.toDigits 10 num).length : Int) = a at *
  generalize ((Nat.toDigits 10 den).length : Int) = b at *
  have hunits := inUnits_eq (a - b) num den
  have hpos : (0 : ℚ) < (inUnits (a - b) num den).2 := by
    exact_mod_cast inUnits_pos hden (a - b) num
  -- The counts of digits give the exponent up to one, and comparing in its unit decides.
  have hlow : (10 : ℚ) ^ (a - b - 1) ≤ num / den := by
    rw [le_div_iff₀ hden']
    calc (10 : ℚ) ^ (a - b - 1) * den ≤ 10 ^ (a - b - 1) * 10 ^ b := by gcongr
      _ = 10 ^ (a - 1) := by rw [← zpow_add₀ (by norm_num)]; congr 1; ring
      _ ≤ num := hnum_low
  have hhigh : (num / den : ℚ) < 10 ^ (a - b + 1) := by
    rw [div_lt_iff₀ hden']
    calc (num : ℚ) < 10 ^ a := hnum_high
      _ = 10 ^ (a - b + 1) * 10 ^ (b - 1) := by rw [← zpow_add₀ (by norm_num)]; congr 1; ring
      _ ≤ 10 ^ (a - b + 1) * den := by gcongr
  split
  · rename_i hle
    have hone : (1 : ℚ) ≤ num / den / 10 ^ (a - b) := by
      rw [← hunits, one_le_div hpos]
      exact_mod_cast hle
    exact ⟨(one_le_div (by positivity)).mp hone, hhigh⟩
  · rename_i hlt
    have hone : (num / den / 10 ^ (a - b) : ℚ) < 1 := by
      rw [← hunits, div_lt_one hpos]
      exact_mod_cast not_le.mp hlt
    rw [sub_add_cancel]
    exact ⟨hlow, (div_lt_one (by positivity)).mp hone⟩

theorem roundDiv_le (num den : Nat) : 2 * (den * roundDiv num den) ≤ 2 * num + den := by
  have hdiv := Nat.div_add_mod num den
  unfold roundDiv
  dsimp only
  split
  · rename_i hup
    rw [Nat.mul_add]
    omega
  · omega

/-- Significant digits start at the leading digit of the quotient, and are rounded up by no more
than a half of the last. -/
theorem significant_bounds (hnum : 0 < num) (hden : 0 < den) (count : Nat) :
    (10 : ℚ) ^ ((significant count num den).unit + count - 1) ≤ num / den ∧
      (num / den : ℚ) < 10 ^ ((significant count num den).unit + count) ∧
      ((significant count num den).coefficient : ℚ) ≤
        num / den / 10 ^ (significant count num den).unit + 1 / 2 := by
  obtain ⟨hlow, hhigh⟩ := leadingExponent_spec hnum hden
  have hunit : (significant count num den).unit = leadingExponent num den - count + 1 := by
    rw [significant, if_neg hnum.ne']
  have hcoefficient : (significant count num den).coefficient =
      roundDiv (inUnits (leadingExponent num den - count + 1) num den).1
        (inUnits (leadingExponent num den - count + 1) num den).2 := by
    rw [significant, if_neg hnum.ne']
  rw [hunit, hcoefficient]
  refine ⟨?_, ?_, ?_⟩
  · convert hlow using 2
    ring
  · convert hhigh using 2
    ring
  · have hround := roundDiv_le (inUnits (leadingExponent num den - count + 1) num den).1
      (inUnits (leadingExponent num den - count + 1) num den).2
    have hpos : (0 : ℚ) < (inUnits (leadingExponent num den - count + 1) num den).2 := by
      exact_mod_cast inUnits_pos hden _ num
    rw [← inUnits_eq, div_add_div _ _ hpos.ne' two_ne_zero, le_div_iff₀ (by positivity)]
    have hround' : (2 : ℚ) * ((inUnits (leadingExponent num den - count + 1) num den).2 *
        roundDiv (inUnits (leadingExponent num den - count + 1) num den).1
          (inUnits (leadingExponent num den - count + 1) num den).2) ≤
        2 * (inUnits (leadingExponent num den - count + 1) num den).1 +
          (inUnits (leadingExponent num den - count + 1) num den).2 := by
      exact_mod_cast hround
    linarith

theorem significant_zero (count den : Nat) : significant count 0 den = ⟨0, 0⟩ := rfl

theorem significant_coefficient_le (hden : 0 < den) (count num : Nat) :
    (significant count num den).coefficient ≤ 10 ^ count := by
  rcases num.eq_zero_or_pos with rfl | hnum
  · rw [significant_zero]
    exact Nat.zero_le _
  obtain ⟨_, hhigh, hcoefficient⟩ := significant_bounds hnum hden count
  have hquotient : (num / den / 10 ^ (significant count num den).unit : ℚ) < 10 ^ count := by
    rw [div_lt_iff₀ (by positivity), ← zpow_natCast, ← zpow_add₀ (by norm_num), add_comm]
    exact hhigh
  have hlt : ((significant count num den).coefficient : ℚ) < (10 ^ count : Nat) + 1 := by
    push_cast
    linarith
  exact Nat.lt_succ_iff.mp (by exact_mod_cast hlt)

/-- Twelve digits of a quotient are not beyond the largest double if the quotient is not. -/
theorem significant_le (hden : 0 < den) (h : num ≤ Double.largest * den) :
    ((significant 12 num den).coefficient : ℚ) * 10 ^ (significant 12 num den).unit ≤ greatest := by
  rcases num.eq_zero_or_pos with rfl | hnum
  · rw [significant_zero]
    simp
  obtain ⟨hlow, _, hcoefficient⟩ := significant_bounds hnum hden 12
  have hlength := significant_coefficient_le hden 12 num
  generalize significant 12 num den = d at *
  have hden' : (0 : ℚ) < den := by exact_mod_cast hden
  have hquotient : (num / den : ℚ) ≤ Double.largest := by
    rw [div_le_iff₀ hden']
    exact_mod_cast h
  have hunit : d.unit ≤ 297 := by
    have hpow : (10 : ℚ) ^ (d.unit + (12 : Nat) - 1) < 10 ^ (309 : Int) := by
      refine (hlow.trans hquotient).trans_lt ?_
      have hnat : Double.largest < 10 ^ 309 := by
        have hhalf := Double.two_mul_largest_lt
        rw [show 309 = 12 + 297 from rfl, pow_add]
        generalize 10 ^ 297 = t at *
        omega
      rw [show (309 : Int) = (309 : Nat) from rfl, zpow_natCast]
      exact_mod_cast hnat
    have := (zpow_lt_zpow_iff_right₀ (by norm_num)).mp hpow
    omega
  rcases hunit.lt_or_eq with hless | heq
  · have hnat : 10 ^ 12 * 10 ^ 296 ≤ greatest := by
      rw [greatest, pow_succ 10 296]
      generalize 10 ^ 296 = t
      omega
    have hcount : (d.coefficient : ℚ) ≤ (10 ^ 12 : Nat) := by exact_mod_cast hlength
    have hpow : (10 : ℚ) ^ d.unit ≤ 10 ^ (296 : Int) :=
      zpow_le_zpow_right₀ (by norm_num) (by omega)
    calc (d.coefficient : ℚ) * 10 ^ d.unit ≤ (10 ^ 12 : Nat) * 10 ^ (296 : Int) :=
          mul_le_mul hcount hpow (by positivity) (by positivity)
      _ = (10 ^ 12 * 10 ^ 296 : Nat) := by
          rw [show (296 : Int) = (296 : Nat) from rfl, zpow_natCast, Nat.cast_mul,
            Nat.cast_pow 10 296, Nat.cast_ofNat]
      _ ≤ greatest := by exact_mod_cast hnat
  · -- The largest double is rounded down to twelve digits.
    have hnat := Double.two_mul_largest_lt
    have hnat' : (2 : ℚ) * Double.largest < (2 * 179769313486 + 1) * 10 ^ 297 := by
      exact_mod_cast hnat
    rw [heq, show (297 : Int) = (297 : Nat) from rfl, zpow_natCast] at hcoefficient ⊢
    have hlt : (d.coefficient : ℚ) < (179769313486 : Nat) + 1 := by
      have hpos : (0 : ℚ) < 10 ^ 297 := by positivity
      generalize (10 : ℚ) ^ 297 = unit at hnat' hcoefficient hpos
      have hratio : (num / den / unit : ℚ) < 179769313486 + 1 / 2 := by
        rw [div_lt_iff₀ hpos]
        linarith
      push_cast
      linarith
    have hle : d.coefficient ≤ 179769313486 := Nat.lt_succ_iff.mp (by exact_mod_cast hlt)
    rw [greatest, Nat.cast_mul, Nat.cast_pow]
    exact mul_le_mul_of_nonneg_right (by exact_mod_cast hle) (by positivity)

end Decimal

namespace Double

theorem exists_parts_of_isFinite {x : Float} (h : x.isFinite = true) :
    ∃ p, parts? x = some p ∧ p.negative = (x.toBits.toNat / Nat.pow 2 63 == 1) ∧
      p.mantissa ≤ 2 ^ 53 - 1 ∧ p.exponent ≤ 971 := by
  have hfraction : x.toBits.toNat % Nat.pow 2 52 < 2 ^ 52 := Nat.mod_lt _ (by decide)
  have hbiased : x.toBits.toNat / Nat.pow 2 52 % Nat.pow 2 11 < 2048 := Nat.mod_lt _ (by decide)
  have hparts := isSome_parts? x
  rw [h] at hparts
  unfold parts? at hparts ⊢
  dsimp only at hparts ⊢
  generalize x.toBits.toNat % Nat.pow 2 52 = fraction at *
  generalize x.toBits.toNat / Nat.pow 2 52 % Nat.pow 2 11 = biased at *
  split at hparts
  · contradiction
  · rename_i hones
    rw [if_neg hones]
    have hnormal : Nat.pow 2 52 = 2 ^ 52 := rfl
    split
    · exact ⟨_, rfl, rfl, by dsimp only; omega, by norm_num⟩
    · exact ⟨_, rfl, rfl, by dsimp only; omega, by dsimp only; omega⟩

theorem Parts.ratio_le {p : Parts} (hmantissa : p.mantissa ≤ 2 ^ 53 - 1)
    (hexponent : p.exponent ≤ 971) : 0 < p.ratio.2 ∧ p.ratio.1 ≤ Double.largest * p.ratio.2 := by
  unfold ratio
  split
  · refine ⟨Nat.one_pos, ?_⟩
    have hpow : 2 ^ p.exponent.toNat ≤ 2 ^ 971 :=
      pow_le_pow_right₀ (by decide) (Int.toNat_le.mpr hexponent)
    rw [mul_one, Double.largest]
    exact Nat.mul_le_mul hmantissa hpow
  · have hpos : 0 < Nat.pow 2 (-p.exponent).toNat := Nat.pow_pos (by decide)
    refine ⟨hpos, ?_⟩
    have hlargest : 2 ^ 53 - 1 ≤ Double.largest := by
      unfold Double.largest
      exact Nat.le_mul_of_pos_right _ (by positivity)
    exact (hmantissa.trans hlargest).trans (Nat.le_mul_of_pos_right _ hpos)

end Double

/-- The text of a finite double is a numeral for a finite double, with a minus before it at most
where the double has a sign. -/
theorem exists_signed_figures {x : Float} (h : x.isFinite = true) :
    ∃ (negative : Bool) (f : Figures), (numberText defaultPrecision x).toList =
        (if negative then '-' :: f.chars else f.chars) ∧
      f.numeral.value.isFinite = true ∧ (Double.Unsigned x → negative = false) := by
  have hshown : (if x == 0 then 0 else x : Float).isFinite = true := by
    split
    · decide
    · exact h
  obtain ⟨p, hp, hnegative, hmantissa, hexponent⟩ := Double.exists_parts_of_isFinite hshown
  obtain ⟨hpos, hratio⟩ := Double.Parts.ratio_le hmantissa hexponent
  obtain ⟨f, hchars, hvalue, hlength⟩ :=
    Decimal.exists_figures 12 (Decimal.significant 12 p.ratio.1 p.ratio.2)
  have htext : (numberText defaultPrecision x).toList =
      (if p.negative then '-' :: f.chars else f.chars) := by
    rw [numberText, Double.significantText, Double.text, hp, ← hchars]
    dsimp only
    rw [String.toList_ofList]
    rfl
  refine ⟨p.negative, f, htext, Numeral.isFinite_nearest ?_ ?_, fun hunsigned => ?_⟩
  · have hcoefficient := Decimal.significant_coefficient_le hpos 12 p.ratio.1
    omega
  · rw [hvalue]
    exact Decimal.significant_le hpos hratio
  · have hplain : Double.Unsigned (if x == 0 then 0 else x) := by
      split
      · exact Double.unsigned_zero
      · exact hunsigned
    rw [hnegative, Nat.div_eq_of_lt hplain]
    rfl

/-- Without a sign the text is the numeral alone. -/
theorem exists_figures_numberText {x : Float} (h : Double.Plain x) : ∃ f : Figures,
    (numberText defaultPrecision x).toList = f.chars ∧ f.numeral.value.isFinite = true := by
  obtain ⟨negative, f, htext, hvalue, hsign⟩ := exists_signed_figures h.1
  rw [hsign h.2] at htext
  exact ⟨f, htext, hvalue⟩

end MatrixCalculator
