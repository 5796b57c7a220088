import Mathlib
import MatrixCalculator.Proofs.Sums

namespace MatrixCalculator

open Float.Model (Format totalExponent UnpackedFloat)
open Float.Model.UnpackedFloat

section Rounding

variable {m : Nat} {e : Int}

theorem isFinite_pack_iff {s : Float.Model.UnpackedFloat.Sign} {hm : 0 < m} :
    (unpack Format.binary64 (pack Format.binary64 (.finite s m e hm))).isFinite = true ↔
      e ≤ 971 := by
  refine ⟨fun h => ?_, fun he => isFinite_pack (by omega)⟩
  by_contra he
  have hbias : (Format.binary64.exponentBias : Int) = 1023 := rfl
  unfold pack at h
  dsimp only at h
  rw [hbias, if_pos (by norm_num; omega)] at h
  cases s <;> contradiction

theorem isFinite_roundWithAccuracy_sign (s : Float.Model.UnpackedFloat.Sign) (m : Nat) (e : Int)
    (accuracy : Accuracy) :
    (unpack Format.binary64
      (pack Format.binary64 (roundWithAccuracy Format.binary64 s m e accuracy))).isFinite =
    (unpack Format.binary64 (pack Format.binary64
      (roundWithAccuracy Format.binary64 .positive m e accuracy))).isFinite := by
  unfold roundWithAccuracy
  dsimp only
  split
  · cases s <;> rfl
  · rw [Bool.eq_iff_iff, isFinite_pack_iff, isFinite_pack_iff]

theorem shift_keeps (accuracy : Accuracy) (hm : 0 < m) (h : -1074 ≤ m.log2 + e) :
    0 < (shiftToTargetExponent Format.binary64 m e accuracy).1.mantissa ∧
    e ≤ (shiftToTargetExponent Format.binary64 m e accuracy).2 ∧
    m.log2 + e - 52 ≤ (shiftToTargetExponent Format.binary64 m e accuracy).2 := by
  have hmantissa : (ExtendedMantissa.ofMantissaAndAccuracy m accuracy).mantissa = m := by
    cases accuracy with
    | exact => rfl
    | inexact o => cases o <;> rfl
  rw [shiftToTargetExponent, shiftToExponent, targetExponent_eq]
  dsimp only
  set k := (max (m.log2 + e - 52) (-1074) - e).toNat with hk
  refine ⟨?_, by omega, by omega⟩
  rw [mantissa_shiftRight, hmantissa]
  have hlog : k ≤ m.log2 := by omega
  exact Nat.div_pos ((Nat.pow_le_pow_right (by decide) hlog).trans (Nat.log2_self_le hm.ne'))
    (by positivity)

theorem le_roundedMantissa (em : ExtendedMantissa) : em.mantissa ≤ em.roundedMantissa := by
  obtain ⟨m, roundBit, stickyBit⟩ := em
  cases roundBit <;> cases stickyBit <;>
    simp [ExtendedMantissa.roundedMantissa, ExtendedMantissa.accuracy,
      Accuracy.roundToNearestEven]

/-- What comes up to the power of two above all doubles is rounded to infinity. -/
theorem not_isFinite_roundWithAccuracy (s : Float.Model.UnpackedFloat.Sign) (accuracy : Accuracy)
    (hm : 0 < m) (h : 1024 ≤ m.log2 + e) :
    (unpack Format.binary64
      (pack Format.binary64 (roundWithAccuracy Format.binary64 s m e accuracy))).isFinite =
        false := by
  obtain ⟨hfirst, -, hexponent⟩ := shift_keeps accuracy hm (e := e) (by omega)
  rw [roundWithAccuracy]
  generalize shiftToTargetExponent Format.binary64 m e accuracy = first at *
  obtain ⟨em, e₁⟩ := first
  dsimp only at hfirst hexponent ⊢
  obtain ⟨hsecond, hexponent', -⟩ :=
    shift_keeps .exact (hfirst.trans_le (le_roundedMantissa em)) (e := e₁) (by omega)
  rw [dif_neg hsecond.ne', ← Bool.not_eq_true, isFinite_pack_iff]
  omega

end Rounding

section Reciprocals

variable {s : Float.Model.UnpackedFloat.Sign} {n : Nat} {e : Int}

theorem exists_div_one (s : Float.Model.UnpackedFloat.Sign) (e : Int) (hn : 0 < n) :
    ∃ (t : Int) (k : Nat) (accuracy : Accuracy), t + k = -52 - e ∧
      t ≤ max (-53 - n.log2 - e) (-1074) ∧
      div Format.binary64 (.finite .positive (2 ^ 52) (-52) (by decide)) (.finite s n e hn) =
        roundWithAccuracy Format.binary64 (.positive / s) (2 ^ (52 + k) / n) t accuracy := by
  have htarget : Format.binary64.targetExponent (totalExponent (2 ^ 52) (-52) - totalExponent n e) =
      max (-53 - n.log2 - e) (-1074) := by
    simp only [Format.targetExponent, totalExponent, Format.mantissaBits, Format.minExponent,
      Nat.log2_two_pow]
    norm_num
    omega
  rw [div, divCore]
  dsimp only
  rw [htarget]
  generalize ht : min (-52 - e) (max (-53 - n.log2 - e) (-1074)) = t
  rw [Nat.shiftLeft_eq, ← pow_add]
  exact ⟨t, (-52 - e - t).toNat, _, by omega, by omega, rfl⟩

theorem isFinite_div_one (he : -1074 ≤ e) (hn : 2 ^ 50 < n) :
    (unpack Format.binary64 (pack Format.binary64
      (div Format.binary64 (.finite .positive (2 ^ 52) (-52) (by decide))
        (.finite s n e (by omega))))).isFinite = true := by
  obtain ⟨t, k, accuracy, hsum, hle, hdiv⟩ := exists_div_one s e (n := n) (by omega)
  have hlog : 50 ≤ n.log2 := (Nat.le_log2 (by omega)).mpr hn.le
  rw [hdiv, isFinite_roundWithAccuracy_sign]
  refine (within_roundWithAccuracy accuracy (by decide) (by omega) ?_).isFinite_pack
  rw [Nat.div_lt_iff_lt_mul (by omega)]
  have hk : 52 + k ≤ (971 - t).toNat + 103 := by omega
  calc 2 ^ (52 + k) ≤ 2 ^ (971 - t).toNat * 2 ^ 103 := by
        rw [← pow_add]
        exact Nat.pow_le_pow_right (by decide) hk
    _ < 2 ^ (971 - t).toNat * ((2 ^ 53 - 1) * n) :=
      Nat.mul_lt_mul_of_pos_left (by omega) (by positivity)
    _ = (2 ^ 53 - 1) * 2 ^ (971 - t).toNat * n := by ring

theorem not_isFinite_div_one (hn : 0 < n) (hle : n ≤ 2 ^ 50) :
    (unpack Format.binary64 (pack Format.binary64
      (div Format.binary64 (.finite .positive (2 ^ 52) (-52) (by decide))
        (.finite s n (-1074) hn)))).isFinite = false := by
  obtain ⟨t, k, accuracy, hsum, -, hdiv⟩ := exists_div_one s (-1074) hn
  have hquotient : 2 ^ (2 + k) ≤ 2 ^ (52 + k) / n := by
    rw [Nat.le_div_iff_mul_le hn]
    calc 2 ^ (2 + k) * n ≤ 2 ^ (2 + k) * 2 ^ 50 := Nat.mul_le_mul_left _ hle
      _ = 2 ^ (52 + k) := by ring
  have hpos : 0 < 2 ^ (52 + k) / n := (by positivity : 0 < 2 ^ (2 + k)).trans_le hquotient
  have hlog : 2 + k ≤ (2 ^ (52 + k) / n).log2 := (Nat.le_log2 hpos.ne').mpr hquotient
  rw [hdiv]
  exact not_isFinite_roundWithAccuracy _ _ hpos (by omega)

end Reciprocals

namespace Double

def magnitude (x : Float) : ℚ :=
  match unpacked x with
  | .finite _ m e _ => m * 2 ^ e
  | _ => 0

/-- The power of exponent minus one is in the range of doubles where the exact reciprocal is, and
out of it where the exact one comes up to the power of two above all doubles. -/
def PowerRange (pow : Float → Float → Float) : Prop :=
  ∀ x : Float, x.isFinite = true → (x == 0) = false →
    ((magnitude x)⁻¹ ≤ largest → (pow x (-1)).isFinite = true) ∧
    (2 ^ 1024 ≤ (magnitude x)⁻¹ → (pow x (-1)).isFinite = false)

/-- No reciprocal of a double lies between the largest double and the next power of two. -/
theorem isFinite_reciprocal {x : Float} (hx : x.isFinite = true) (hzero : (x == 0) = false) :
    ((1 / x).isFinite = true ∧ (magnitude x)⁻¹ ≤ largest) ∨
      ((1 / x).isFinite = false ∧ 2 ^ 1024 ≤ (magnitude x)⁻¹) := by
  obtain ⟨s, n, e, hn, hparts⟩ := exists_finite hx hzero
  have hcanonical := canonical_unpacked x
  rw [hparts] at hcanonical
  obtain ⟨-, he, -, hnormal⟩ := hcanonical
  have hquotient : (1 / x).isFinite = (unpack Format.binary64 (pack Format.binary64
      (div Format.binary64 (unpacked 1) (unpacked x)))).isFinite := rfl
  rw [unpacked_one, hparts] at hquotient
  have hmagnitude : magnitude x = n * 2 ^ e := by rw [magnitude, hparts]
  have hpos : (0 : ℚ) < n * 2 ^ e := mul_pos (by exact_mod_cast hn) (by positivity)
  rw [hmagnitude]
  -- A mantissa below `2 ^ 52` has the least exponent, and with it `2 ^ 50` stands for `2 ^ -1024`.
  by_cases hle : n ≤ 2 ^ 50
  · obtain rfl : e = -1074 := hnormal.resolve_left (by omega)
    refine .inr ⟨hquotient.trans (not_isFinite_div_one hn hle), ?_⟩
    rw [le_inv_comm₀ (by positivity) hpos]
    calc (n : ℚ) * 2 ^ (-1074 : Int) ≤ 2 ^ (50 : Int) * 2 ^ (-1074 : Int) := by
          gcongr
          exact_mod_cast hle
      _ = (2 ^ (1024 : Int))⁻¹ := by rw [← zpow_add₀ two_ne_zero, ← zpow_neg]; rfl
      _ = (2 ^ 1024)⁻¹ := by rw [← zpow_natCast]; rfl
  · refine .inl ⟨hquotient.trans (isFinite_div_one he (by omega)), ?_⟩
    have hlargest : (largest : ℚ) = (2 ^ 53 - 1 : Nat) * 2 ^ (971 : Int) := by
      rw [largest, Nat.cast_mul, Nat.cast_pow, ← zpow_natCast]
      rfl
    have hnat : 2 ^ 103 ≤ (2 ^ 53 - 1) * n := by omega
    rw [inv_le_iff_one_le_mul₀ hpos]
    calc (1 : ℚ) = 2 ^ (103 : Int) * 2 ^ (-103 : Int) := by
          rw [← zpow_add₀ two_ne_zero]
          rfl
      _ ≤ ((2 ^ 53 - 1 : Nat) * n) * 2 ^ (971 + e) := by
          gcongr
          · exact_mod_cast hnat
          · norm_num
          · omega
      _ = largest * (n * 2 ^ e) := by
          rw [hlargest, zpow_add₀ two_ne_zero, mul_mul_mul_comm]

theorem powerRange_reciprocal : PowerRange fun x _ => 1 / x := by
  intro x hx hzero
  have hgap : (largest : ℚ) < 2 ^ 1024 := by
    have hnat : largest < 2 ^ 1024 := by
      rw [largest, show 1024 = 53 + 971 from rfl, pow_add]
      exact Nat.mul_lt_mul_of_pos_right (by norm_num) (by positivity)
    exact_mod_cast hnat
  rcases isFinite_reciprocal hx hzero with ⟨hfinite, hle⟩ | ⟨hfinite, hle⟩
  · exact ⟨fun _ => hfinite, fun hover => absurd (hle.trans_lt hgap) hover.not_gt⟩
  · exact ⟨fun hunder => absurd (hunder.trans_lt hgap) hle.not_gt, fun _ => hfinite⟩

theorem PowerRange.isFinite_eq {pow : Float → Float → Float} (h : PowerRange pow) {x : Float}
    (hx : x.isFinite = true) (hzero : (x == 0) = false) :
    (pow x (-1)).isFinite = (1 / x).isFinite := by
  rcases isFinite_reciprocal hx hzero with ⟨hfinite, hle⟩ | ⟨hfinite, hle⟩
  · rw [hfinite, (h x hx hzero).1 hle]
  · rw [hfinite, (h x hx hzero).2 hle]

end Double

end MatrixCalculator
