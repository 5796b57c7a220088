import Mathlib
import MatrixCalculator.Number.Numeral
import MatrixCalculator.Proofs.Doubles

namespace MatrixCalculator

open Float.Model (Format totalExponent UnpackedFloat)
open Float.Model.UnpackedFloat

section Rounding

variable {m : Nat} {e bound : Int}

theorem mantissa_shiftRight (em : ExtendedMantissa) (k : Nat) :
    (em >>> k).mantissa = em.mantissa / 2 ^ k := by
  induction k with
  | zero => exact (Nat.div_one _).symm
  | succ k ih =>
    change (em >>> k).mantissa / 2 = _
    rw [ih, Nat.div_div_eq_div_mul, pow_succ]

theorem roundedMantissa_le (em : ExtendedMantissa) : em.roundedMantissa ≤ em.mantissa + 1 := by
  obtain ⟨m, roundBit, stickyBit⟩ := em
  have hparity : m % 2 ≤ 1 := Nat.le_of_lt_succ (Nat.mod_lt m (by decide))
  cases roundBit <;> cases stickyBit <;>
    simp [ExtendedMantissa.roundedMantissa, ExtendedMantissa.accuracy,
      Accuracy.roundToNearestEven]
  omega

theorem targetExponent_eq (m : Nat) (e : Int) :
    Format.binary64.targetExponent (totalExponent m e) = max (m.log2 + e - 52) (-1074) := by
  simp only [Format.targetExponent, totalExponent, Format.mantissaBits, Format.minExponent]
  norm_num
  omega

theorem shift_bounds (accuracy : Accuracy) (hbound : -1074 ≤ bound) (he : e ≤ bound) {n : Nat}
    (hn : n ≤ Nat.pow 2 53) (hm : m < n * 2 ^ (bound - e).toNat) :
    (shiftToTargetExponent Format.binary64 m e accuracy).2 ≤ bound ∧
    (shiftToTargetExponent Format.binary64 m e accuracy).1.mantissa <
      n * 2 ^ (bound - (shiftToTargetExponent Format.binary64 m e accuracy).2).toNat := by
  have hlog : (m.log2 : Int) + e - 52 ≤ bound := by
    by_cases hzero : m = 0
    · rw [hzero, Nat.log2_zero]
      omega
    · have hpow : m < 2 ^ (53 + (bound - e).toNat) := by
        rw [pow_add]
        exact hm.trans_le (Nat.mul_le_mul_right _ hn)
      have := (Nat.log2_lt hzero).mpr hpow
      omega
  have hmantissa : (ExtendedMantissa.ofMantissaAndAccuracy m accuracy).mantissa = m := by
    cases accuracy with
    | exact => rfl
    | inexact o => cases o <;> rfl
  rw [shiftToTargetExponent, shiftToExponent, targetExponent_eq]
  dsimp only
  set k := (max (m.log2 + e - 52) (-1074) - e).toNat with hk
  refine ⟨by omega, ?_⟩
  rw [mantissa_shiftRight, hmantissa, Nat.div_lt_iff_lt_mul (by positivity), mul_assoc, ← pow_add]
  have hsum : (bound - (e + k)).toNat + k = (bound - e).toNat := by omega
  rwa [hsum]

/-- A number that is not negative, with an exponent up to the bound. -/
def Within (bound : Int) : UnpackedFloat → Prop
  | .zero s => s = .positive
  | .finite s _ e _ => s = .positive ∧ e ≤ bound
  | _ => False

/-- Numbers that are less than the greatest double of the exponent are rounded to none of a greater
exponent. -/
theorem within_roundWithAccuracy (accuracy : Accuracy) (hbound : -1074 ≤ bound) (he : e ≤ bound)
    (hm : m < (2 ^ 53 - 1) * 2 ^ (bound - e).toNat) :
    Within bound (roundWithAccuracy Format.binary64 .positive m e accuracy) := by
  obtain ⟨hfirst, hmantissa⟩ := shift_bounds accuracy hbound he (by decide) hm
  rw [roundWithAccuracy]
  generalize shiftToTargetExponent Format.binary64 m e accuracy = first at *
  obtain ⟨em, e₁⟩ := first
  dsimp only at hfirst hmantissa ⊢
  -- One ulp below the power of two is room for the carry of rounding, so the second shift, which
  -- takes the carry in, does not go beyond the bound either.
  have hrounded : em.roundedMantissa < 2 ^ 53 * 2 ^ (bound - e₁).toNat := by
    have hle := roundedMantissa_le em
    have hpos : 0 < 2 ^ (bound - e₁).toNat := by positivity
    omega
  obtain ⟨hsecond, _⟩ := shift_bounds .exact hbound hfirst (le_refl _) hrounded
  split
  · exact rfl
  · exact ⟨rfl, hsecond⟩

theorem Within.isFinite_pack {f : UnpackedFloat} (h : Within 971 f) :
    (unpack Format.binary64 (pack Format.binary64 f)).isFinite = true := by
  cases f with
  | zero s => cases s <;> decide
  | finite s m e hm =>
    have he : e ≤ 971 := h.2
    exact MatrixCalculator.isFinite_pack (by omega)
  | _ => exact h.elim

end Rounding

theorem packComponents_lt {e : BitVec Format.binary64.exponentBits} {n : Nat} (h : e.toNat < n)
    (m : BitVec Format.binary64.mantissaBitsWithoutImplicit) :
    (packComponents Format.binary64 .positive e m).toNat < n * Nat.pow 2 52 := by
  rw [packComponents, BitVec.toNat_append, BitVec.toNat_append]
  show (0 <<< 11 ||| e.toNat) <<< 52 ||| m.toNat < _
  rw [Nat.zero_shiftLeft, Nat.zero_or, ← Nat.shiftLeft_add_eq_or_of_lt m.isLt, Nat.shiftLeft_eq]
  calc e.toNat * Nat.pow 2 52 + m.toNat
      < e.toNat * Nat.pow 2 52 + Nat.pow 2 52 := Nat.add_lt_add_left m.isLt _
    _ = (e.toNat + 1) * Nat.pow 2 52 := (Nat.succ_mul _ _).symm
    _ ≤ n * Nat.pow 2 52 := Nat.mul_le_mul_right _ h

/-- A number that is not negative, as bits with this exponent hold it. -/
def Stored (field : Nat) : UnpackedFloat → Prop
  | .zero s => s = .positive ∧ field = 0
  | .finite s m e _ => s = .positive ∧ m < Nat.pow 2 53 ∧ e = max 1 field - 1075
  | _ => False

theorem toNat_unpackMantissa_lt (b : BitVec Format.binary64.numBits) :
    (unpackMantissa b).toNat < Nat.pow 2 52 :=
  (unpackMantissa b).isLt

theorem unpackSign_eq_zero {b : BitVec Format.binary64.numBits} (h : b.toNat < Nat.pow 2 63) :
    unpackSign b = 0#1 := by
  rw [← BitVec.toNat_inj]
  show (b.toNat >>> 63) % 2 = 0
  rw [Nat.shiftRight_eq_div_pow, Nat.div_eq_of_lt h]

theorem stored_unpack {b : BitVec Format.binary64.numBits} (h : b.toNat < 2047 * Nat.pow 2 52) :
    Stored (b.toNat / Nat.pow 2 52) (unpack Format.binary64 b) := by
  have hlt : b.toNat / Nat.pow 2 52 < 2047 := Nat.div_lt_of_lt_mul (by rwa [mul_comm] at h)
  have hexponent : (unpackExponent b).toNat = b.toNat / Nat.pow 2 52 := by
    rw [toNat_unpackExponent, Nat.mod_eq_of_lt (hlt.trans (by decide))]
  have hmantissa := toNat_unpackMantissa_lt b
  have hbias : (Format.binary64.exponentBias : Int) = 1023 := rfl
  rw [unpack, unpackSign_eq_zero (h.trans (by decide))]
  dsimp only
  rw [if_neg (by rw [exponent_eq_ones_iff]; omega), hbias]
  split
  · rename_i hzero
    rw [hzero, BitVec.toNat_zero] at hexponent
    split
    · exact ⟨rfl, hexponent.symm⟩
    · refine ⟨rfl, hmantissa.trans (by decide), ?_⟩
      rw [hzero, ← hexponent]
      rfl
  · rename_i hzero
    have hpos : (unpackExponent b).toNat ≠ 0 := by
      rwa [← BitVec.toNat_inj] at hzero
    refine ⟨rfl, (1#1 ++ unpackMantissa b).isLt, ?_⟩
    rw [hexponent] at hpos ⊢
    omega

/-- Not a number, or one without a minus sign. -/
def Positive : UnpackedFloat → Prop
  | .notANumber => True
  | .infinity s => s = .positive
  | .zero s => s = .positive
  | .finite s _ _ _ => s = .positive

theorem Positive.pack_lt {f : UnpackedFloat} (h : Positive f) :
    (pack Format.binary64 f).toNat < Nat.pow 2 63 := by
  have hcomponents : ∀ e m, (packComponents Format.binary64 .positive e m).toNat < Nat.pow 2 63 :=
    fun e m => packComponents_lt e.isLt m
  cases f with
  | notANumber => exact hcomponents _ _
  | infinity s =>
    obtain rfl : s = .positive := h
    exact hcomponents _ _
  | zero s =>
    obtain rfl : s = .positive := h
    exact hcomponents _ _
  | finite s m e hm =>
    obtain rfl : s = .positive := h
    rw [pack]
    dsimp only
    split
    · exact hcomponents _ _
    · split <;> exact hcomponents _ _

theorem Within.positive {bound : Int} {f : UnpackedFloat} (h : Within bound f) : Positive f := by
  cases f with
  | notANumber => trivial
  | infinity s => exact h.elim
  | zero s => exact h
  | finite s m e hm => exact h.1

theorem within_div_finite {m n : Nat} {e e' : Int} (hm : 0 < m) (hn : 0 < n)
    (he : e - e' ≤ 971) (h : m < (2 ^ 53 - 1) * 2 ^ (971 - (e - e')).toNat) :
    Within 971 (div Format.binary64 (.finite .positive m e hm) (.finite .positive n e' hn)) := by
  rw [div, divCore]
  dsimp only
  have htarget := min_le_left (e - e') (Format.binary64.targetExponent
    (totalExponent m e - totalExponent n e'))
  generalize min (e - e') _ = target at htarget ⊢
  refine within_roundWithAccuracy _ (by decide) (htarget.trans he) ?_
  have hsum : (971 - target).toNat = (971 - (e - e')).toNat + (e - e' - target).toNat := by omega
  calc m <<< (e - e' - target).toNat / n
      ≤ m <<< (e - e' - target).toNat := Nat.div_le_self _ _
    _ = m * 2 ^ (e - e' - target).toNat := Nat.shiftLeft_eq _ _
    _ < (2 ^ 53 - 1) * 2 ^ (971 - (e - e')).toNat * 2 ^ (e - e' - target).toNat :=
      Nat.mul_lt_mul_of_pos_right h (by positivity)
    _ = (2 ^ 53 - 1) * 2 ^ (971 - target).toNat := by rw [hsum, pow_add, mul_assoc]

theorem lt_of_lt_pow {m k n : Nat} (hm : m < 2 ^ 53 * 2 ^ k) (h : k < n) :
    m < (2 ^ 53 - 1) * 2 ^ n :=
  calc m < 2 ^ 53 * 2 ^ k := hm
    _ ≤ (2 ^ 53 - 1) * 2 ^ (k + 1) := by rw [pow_succ]; omega
    _ ≤ (2 ^ 53 - 1) * 2 ^ n := Nat.mul_le_mul_left _ (Nat.pow_le_pow_right (by decide) h)

theorem within_mul {f g : UnpackedFloat} {i j : Nat} (hf : Stored i f) (hg : Stored j g)
    (hi : i ≤ 1100) (hj : j ≤ 1100) : Within 971 (mul Format.binary64 f g) := by
  cases f with
  | notANumber => exact hf.elim
  | infinity s => exact hf.elim
  | zero s =>
    obtain ⟨rfl, _⟩ := hf
    cases g with
    | zero s => obtain ⟨rfl, _⟩ := hg; exact rfl
    | finite s n e hn => obtain ⟨rfl, _⟩ := hg; exact rfl
    | _ => exact hg.elim
  | finite s m e hm =>
    obtain ⟨rfl, hm', rfl⟩ := hf
    cases g with
    | zero s => obtain ⟨rfl, _⟩ := hg; exact rfl
    | finite s n e hn =>
      obtain ⟨rfl, hn', rfl⟩ := hg
      refine within_roundWithAccuracy .exact (by decide) (by omega) ?_
      exact lt_of_lt_pow (Nat.mul_lt_mul'' hm' hn') (by omega)
    | _ => exact hg.elim

theorem within_div {f g : UnpackedFloat} {i j : Nat} (hf : Stored i f) (hg : Stored j g)
    (hi : i ≤ 1100) (hj : 1000 ≤ j) : Within 971 (div Format.binary64 f g) := by
  cases g with
  | notANumber => exact hg.elim
  | infinity s => exact hg.elim
  | zero s => have := hg.2; omega
  | finite s n e hn =>
    obtain ⟨rfl, _, rfl⟩ := hg
    cases f with
    | zero s => obtain ⟨rfl, _⟩ := hf; exact rfl
    | finite s m e hm =>
      obtain ⟨rfl, hm', rfl⟩ := hf
      have hroom : m < 2 ^ 53 * 2 ^ 0 := by simpa using hm'
      exact within_div_finite hm hn (by omega) (lt_of_lt_pow hroom (by omega))
    | _ => exact hf.elim

theorem positive_roundWithAccuracy (m : Nat) (e : Int) (accuracy : Accuracy) :
    Positive (roundWithAccuracy Format.binary64 .positive m e accuracy) := by
  unfold roundWithAccuracy
  dsimp only
  split <;> exact rfl

theorem within_ofNat {n : Nat} (h : n < 2 ^ 53) : Within 1 (ofNat Format.binary64 n) := by
  by_cases hzero : n = 0
  · subst hzero
    exact rfl
  · have hcompare : compare (n : Int) 0 = .gt := by
      rw [Int.compare_eq_gt]
      omega
    rw [ofNat, ofInt, UnpackedFloat.normalize, hcompare]
    dsimp only
    rw [UnpackedFloat.round, decreaseExponent]
    dsimp only
    refine within_roundWithAccuracy .exact (by decide) (by omega) ?_
    generalize (0 - _ : Int).toNat = k
    refine lt_of_lt_pow (k := k) ?_ (by omega)
    rw [Nat.shiftLeft_eq]
    exact Nat.mul_lt_mul_of_pos_right (by simpa using h) (by positivity)

theorem Within.pack_lt {bound : Int} {f : UnpackedFloat} (h : Within bound f)
    (hlow : -1074 ≤ bound) (hhigh : bound ≤ 971) :
    (pack Format.binary64 f).toNat < (bound + 1076).toNat * Nat.pow 2 52 := by
  cases f with
  | zero s =>
    obtain rfl : s = .positive := h
    exact packComponents_lt (by show 0 < _; omega) _
  | finite s m e hm =>
    obtain ⟨rfl, he⟩ := h
    have hbias : (Format.binary64.exponentBias : Int) = 1023 := rfl
    rw [pack]
    dsimp only
    rw [hbias, if_neg (by norm_num; omega)]
    split
    · refine packComponents_lt ?_ _
      rw [BitVec.toNat_ofNat]
      exact (Nat.mod_le _ _).trans_lt (by omega)
    · exact packComponents_lt (by show 0 < _; omega) _
  | _ => exact h.elim

theorem toBits_mul (x y : Float) : (x * y).toBits.toBitVec =
    pack Format.binary64 (mul Format.binary64 (unpack Format.binary64 x.toBits.toBitVec)
      (unpack Format.binary64 y.toBits.toBitVec)) := rfl

theorem toBits_div (x y : Float) : (x / y).toBits.toBitVec =
    pack Format.binary64 (div Format.binary64 (unpack Format.binary64 x.toBits.toBitVec)
      (unpack Format.binary64 y.toBits.toBitVec)) := rfl

theorem toBits_toFloat (n : UInt64) :
    n.toFloat.toBits.toBitVec = pack Format.binary64 (ofNat Format.binary64 n.toNat) := rfl

theorem powersOfTen : ∀ x ∈ Float.exactlyRepresentablePowersOfTen,
    1000 * Nat.pow 2 52 ≤ x.toBits.toNat ∧ x.toBits.toNat < 1100 * Nat.pow 2 52 := by
  decide

/-- Digits that a double holds are scaled by a power of ten that a double holds. -/
theorem toBits_ofScientific_fast {m e : Nat} (h : m < 2 ^ 53 ∧ e ≤ 22) (s : Bool) :
    ∃ f, Within 971 f ∧ (Float.ofScientific m s e).toBits.toBitVec = pack Format.binary64 f := by
  have hsize : e < Float.exactlyRepresentablePowersOfTen.size := by
    have := h.2
    simp [Float.exactlyRepresentablePowersOfTen]
    omega
  obtain ⟨hlow, hhigh⟩ := powersOfTen _ (Array.getElem_mem hsize)
  rw [Float.ofScientific, dif_pos h]
  dsimp only
  generalize Float.exactlyRepresentablePowersOfTen[e] = power at hlow hhigh
  -- Both factors are far from the ends of the range, so bounds on their exponents are enough.
  have hpower := stored_unpack (b := power.toBits.toBitVec) (hhigh.trans (by decide))
  have hcount : m.toUInt64.toFloat.toBits.toBitVec.toNat < 1077 * Nat.pow 2 52 := by
    have hm : m.toUInt64.toNat = m := Nat.mod_eq_of_lt (h.1.trans (by decide))
    rw [toBits_toFloat, hm]
    exact (within_ofNat h.1).pack_lt (by decide) (by decide)
  have hdigits := stored_unpack (hcount.trans (by decide))
  have hdigits_le : m.toUInt64.toFloat.toBits.toBitVec.toNat / Nat.pow 2 52 ≤ 1100 :=
    (Nat.div_lt_of_lt_mul (by rwa [mul_comm] at hcount)).le.trans (by decide)
  have hpower_le : power.toBits.toBitVec.toNat / Nat.pow 2 52 ≤ 1100 :=
    (Nat.div_lt_of_lt_mul (by rwa [mul_comm] at hhigh)).le
  have hpower_ge : 1000 ≤ power.toBits.toBitVec.toNat / Nat.pow 2 52 :=
    (Nat.le_div_iff_mul_le (by decide)).mpr hlow
  cases s with
  | false => exact ⟨_, within_mul hdigits hpower hdigits_le hpower_le, toBits_mul _ _⟩
  | true => exact ⟨_, within_div hdigits hpower hdigits_le hpower_ge, toBits_div _ _⟩

/-- All other digits are scaled before they are rounded. -/
theorem toBits_ofScientific_slow {m e : Nat} (h : ¬(m < 2 ^ 53 ∧ e ≤ 22)) (s : Bool) :
    (Float.ofScientific m s e).toBits.toBitVec = pack Format.binary64
      (ofScientific Format.binary64 m (if s then Int.negOfNat e else Int.ofNat e)) := by
  rw [Float.ofScientific, dif_neg h]
  rfl

theorem positive_ofScientific (m : Nat) (e : Int) :
    Positive (ofScientific Format.binary64 m e) := by
  unfold ofScientific
  split
  · exact rfl
  · split
    · exact rfl
    · split
      · exact rfl
      · split
        · exact positive_roundWithAccuracy _ _ _
        · exact positive_roundWithAccuracy _ _ _

def Double.largest : Nat := (2 ^ 53 - 1) * 2 ^ 971

/-- The greatest number of twelve digits that is not beyond the largest double. -/
def Decimal.greatest : Nat := 179769313486 * 10 ^ 297

/-- The largest double is less than half a unit of the twelfth digit above the number. -/
theorem Double.two_mul_largest_lt : 2 * Double.largest < (2 * 179769313486 + 1) * 10 ^ 297 := by
  decide +kernel

theorem Decimal.le_greatest : 10 ^ 12 ≤ Decimal.greatest := by
  have hpow : 0 < 10 ^ 296 := by positivity
  rw [Decimal.greatest, pow_succ 10 296]
  generalize 10 ^ 296 = t at *
  omega

theorem Decimal.greatest_lt : Decimal.greatest < (2 ^ 53 - 1) * 2 ^ (971 : Int).toNat := by
  decide +kernel

theorem within_shiftLeft {bound : Int} {m p : Nat} (k : Nat) (hbound : 0 ≤ bound)
    (h : m * p < (2 ^ 53 - 1) * 2 ^ bound.toNat) :
    Within bound (roundWithAccuracy Format.binary64 .positive (m <<< k * p) (-k + 0) .exact) := by
  refine within_roundWithAccuracy .exact (by omega) (by omega) ?_
  have hexponent : (bound - (-k + 0)).toNat = bound.toNat + k := by omega
  rw [hexponent, pow_add, ← mul_assoc, Nat.shiftLeft_eq, Nat.mul_right_comm]
  exact Nat.mul_lt_mul_of_pos_right h (by positivity)

theorem within_ofScientific_of_nonneg {m : Nat} {e : Int} (hpos : 0 ≤ e) (he : e ≤ 400)
    (h : m * 10 ^ e.toNat < (2 ^ 53 - 1) * 2 ^ (971 : Int).toNat) :
    Within 971 (ofScientific Format.binary64 m e) := by
  unfold ofScientific
  split
  · exact rfl
  · rw [if_neg (by norm_num; omega), if_neg (by norm_num; omega)]
    exact within_shiftLeft 53 (by decide) h

theorem within_ofScientific {m : Nat} {e : Int} (hm : m ≤ 10 ^ 12) (he : e ≤ 400)
    (h : m * 10 ^ e.toNat ≤ Decimal.greatest) : Within 971 (ofScientific Format.binary64 m e) := by
  by_cases hpos : 0 ≤ e
  · exact within_ofScientific_of_nonneg hpos he (h.trans_lt Decimal.greatest_lt)
  · unfold ofScientific
    split
    · exact rfl
    · rw [if_neg (by norm_num; omega)]
      split
      · exact rfl
      · refine within_div_finite _ _ (by decide) ?_
        have hroom : 10 ^ 12 < (2 ^ 53 - 1) * 2 ^ (971 - (0 - 0) : Int).toNat :=
          Nat.lt_of_lt_of_le (by norm_num) (Nat.le_mul_of_pos_right _ (Nat.two_pow_pos _))
        exact hm.trans_lt hroom

theorem Double.isFinite_of_toBits {x : Float} {f : UnpackedFloat} (hf : Within 971 f)
    (h : x.toBits.toBitVec = pack Format.binary64 f) : x.isFinite = true := by
  change (unpack Format.binary64 x.toBits.toBitVec).isFinite = true
  rw [h]
  exact hf.isFinite_pack

theorem Double.isFinite_ofNat {n : Nat} (h : n < Double.largest) :
    (Float.ofNat n).isFinite = true := by
  change (Float.ofScientific n false 0).isFinite = true
  by_cases hfast : n < 2 ^ 53 ∧ 0 ≤ 22
  · obtain ⟨f, hf, hbits⟩ := toBits_ofScientific_fast hfast false
    exact Double.isFinite_of_toBits hf hbits
  · refine Double.isFinite_of_toBits ?_ (toBits_ofScientific_slow hfast false)
    refine within_ofScientific_of_nonneg (by decide) (by decide) ?_
    rw [Double.largest] at h
    have hexponent : (Int.ofNat 0).toNat = 0 := rfl
    have hbound : (971 : Int).toNat = 971 := rfl
    rwa [if_neg Bool.false_ne_true, hexponent, hbound, pow_zero, mul_one]

def Double.Unsigned (x : Float) : Prop := x.toBits.toNat < Nat.pow 2 63

/-- A finite double without a minus sign, as numerals are read. -/
def Double.Plain (x : Float) : Prop := x.isFinite = true ∧ Unsigned x

theorem Double.unsigned_of_toBits {x : Float} {f : UnpackedFloat} (hf : Positive f)
    (h : x.toBits.toBitVec = pack Format.binary64 f) : Unsigned x := by
  change x.toBits.toBitVec.toNat < _
  rw [h]
  exact hf.pack_lt

theorem Double.unsigned_zero : Double.Unsigned 0 := by
  unfold Double.Unsigned
  decide

namespace Numeral

theorem unsigned_nearest (coefficient : Nat) (unit : Int) :
    Double.Unsigned (nearest coefficient unit) := by
  have hinfinity : Double.Unsigned Double.infinity := by
    unfold Double.Unsigned
    decide
  unfold nearest
  dsimp only
  split
  · exact Double.unsigned_zero
  · split
    · exact hinfinity
    · by_cases hfast : coefficient < 2 ^ 53 ∧ unit.natAbs ≤ 22
      · obtain ⟨f, hf, hbits⟩ := toBits_ofScientific_fast hfast (unit < 0)
        exact Double.unsigned_of_toBits hf.positive hbits
      · exact Double.unsigned_of_toBits (positive_ofScientific _ _)
          (toBits_ofScientific_slow hfast _)

theorem isFinite_nearest {coefficient : Nat} {unit : Int} (hcoefficient : coefficient ≤ 10 ^ 12)
    (h : (coefficient : ℚ) * 10 ^ unit ≤ Decimal.greatest) :
    (nearest coefficient unit).isFinite = true := by
  unfold nearest
  dsimp only
  split
  · decide
  · rename_i hsize
    have hpos : 1 ≤ coefficient := by omega
    have hunit : unit < 309 := by
      have hnat : Decimal.greatest < 10 ^ 309 := by
        rw [Decimal.greatest, show 309 = 12 + 297 from rfl, pow_add]
        exact Nat.mul_lt_mul_of_pos_right (by norm_num) (by positivity)
      have hpow : (10 : ℚ) ^ unit < 10 ^ (309 : Int) :=
        calc (10 : ℚ) ^ unit ≤ coefficient * 10 ^ unit :=
              le_mul_of_one_le_left (by positivity) (by exact_mod_cast hpos)
          _ ≤ Decimal.greatest := h
          _ < 10 ^ (309 : Int) := by
              rw [show (309 : Int) = (309 : Nat) from rfl, zpow_natCast]
              exact_mod_cast hnat
      exact (zpow_lt_zpow_iff_right₀ (by norm_num)).mp hpow
    have hlength : (Nat.toDigits 10 coefficient).length ≤ 13 := by
      rw [Nat.length_toDigits_le_iff (by decide) (by decide)]
      omega
    have hvalue : coefficient * 10 ^ unit.toNat ≤ Decimal.greatest := by
      by_cases hneg : unit < 0
      · rw [Int.toNat_of_nonpos hneg.le, pow_zero, mul_one]
        exact hcoefficient.trans Decimal.le_greatest
      · rw [← Int.toNat_of_nonneg (Int.not_lt.mp hneg), zpow_natCast] at h
        exact_mod_cast h
    rw [if_neg (by omega)]
    by_cases hfast : coefficient < 2 ^ 53 ∧ unit.natAbs ≤ 22
    · obtain ⟨f, hf, hbits⟩ := toBits_ofScientific_fast hfast (unit < 0)
      exact Double.isFinite_of_toBits hf hbits
    · have hsigned : (if decide (unit < 0) = true then Int.negOfNat unit.natAbs
          else Int.ofNat unit.natAbs) = unit := by
        by_cases hneg : unit < 0
        · rw [if_pos (by simpa using hneg), Int.negOfNat_eq]
          exact (Int.eq_neg_natAbs_of_nonpos hneg.le).symm
        · rw [if_neg (by simpa using hneg)]
          exact Int.natAbs_of_nonneg (Int.not_lt.mp hneg)
      have hbits := toBits_ofScientific_slow hfast (unit < 0)
      rw [hsigned] at hbits
      exact Double.isFinite_of_toBits (within_ofScientific hcoefficient (by omega) hvalue) hbits

end Numeral

end MatrixCalculator
