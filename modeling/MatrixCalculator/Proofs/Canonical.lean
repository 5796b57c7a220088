import Mathlib
import MatrixCalculator.Proofs.Rounding

namespace MatrixCalculator

open Float.Model (Format UnpackedFloat)
open Float.Model.UnpackedFloat

/-- A number as the bits of a double hold it. -/
def Canonical : UnpackedFloat → Prop
  | .finite _ m e _ => m < 2 ^ 53 ∧ -1074 ≤ e ∧ e ≤ 971 ∧ (2 ^ 52 ≤ m ∨ e = -1074)
  | _ => True

theorem toNat_one_append (b : BitVec 52) : (1#1 ++ b).toNat = 2 ^ 52 + b.toNat := by
  rw [BitVec.toNat_append, ← Nat.shiftLeft_add_eq_or_of_lt b.isLt]
  rfl

theorem canonical_unpack (b : BitVec Format.binary64.numBits) :
    Canonical (unpack Format.binary64 b) := by
  have hmantissa := toNat_unpackMantissa_lt b
  have hlt : (unpackExponent b).toNat < 2048 := (unpackExponent b).isLt
  have hbias : (Format.binary64.exponentBias : Int) = 1023 := rfl
  unfold unpack
  dsimp only
  rw [hbias]
  split
  · split
    · trivial
    · trivial
  · rename_i hones
    rw [exponent_eq_ones_iff] at hones
    split
    · rename_i hzero
      split
      · trivial
      · rw [hzero]
        exact ⟨hmantissa.trans (by decide), by decide, by decide, .inr rfl⟩
    · rename_i hzero
      have hpos : (unpackExponent b).toNat ≠ 0 := by
        rwa [← BitVec.toNat_inj] at hzero
      refine ⟨(1#1 ++ unpackMantissa b).isLt, by omega, by omega, .inl ?_⟩
      rw [toNat_one_append]
      omega

theorem ofBitVec_unpackSign (s : Float.Model.UnpackedFloat.Sign)
    (e : BitVec Format.binary64.exponentBits)
    (m : BitVec Format.binary64.mantissaBitsWithoutImplicit) :
    Float.Model.UnpackedFloat.Sign.ofBitVec
      (unpackSign (packComponents Format.binary64 s e m)) = s := by
  simp only [unpackSign, packComponents, BitVec.extractLsb]
  rw [BitVec.extractLsb'_append_eq_of_le (by decide),
    BitVec.extractLsb'_append_eq_of_le (by decide)]
  cases s <;> rfl

theorem unpack_pack_normal (s : Float.Model.UnpackedFloat.Sign) {m : Nat} {e : Int} (hm : 0 < m)
    (hlow : 2 ^ 52 ≤ m) (hhigh : m < 2 ^ 53) (he : -1074 ≤ e) (he' : e ≤ 971) :
    unpack Format.binary64 (pack Format.binary64 (.finite s m e hm)) = .finite s m e hm := by
  have hbias : (Format.binary64.exponentBias : Int) = 1023 := rfl
  have hbits : Format.binary64.mantissaBits = 53 := rfl
  have hlog : m.log2 + 1 = 53 := by
    have := (Nat.le_log2 hm.ne').mpr hlow
    have := (Nat.log2_lt hm.ne').mpr hhigh
    omega
  have hexponent : (BitVec.ofNat 11 (e + 1023 + (52 : Nat)).toNat).toNat =
      (e + 1023 + (52 : Nat)).toNat := by
    rw [BitVec.toNat_ofNat, Nat.mod_eq_of_lt (by omega)]
  have hrest : (1#1 ++ BitVec.ofNat 52 m).toNat = m := by
    rw [toNat_one_append, BitVec.toNat_ofNat]
    omega
  unfold pack
  dsimp only
  rw [hbias, hbits, if_neg (by norm_num; omega), if_pos hlog]
  unfold unpack
  simp only [unpackMantissa_packComponents, unpackExponent_packComponents, ofBitVec_unpackSign]
  rw [if_neg (by rw [exponent_eq_ones_iff, hexponent]; omega),
    if_neg (by rw [← BitVec.toNat_inj, hexponent, BitVec.toNat_zero]; omega)]
  simp only [hexponent, hbias, hrest]
  congr 1
  omega

theorem unpack_pack_subnormal (s : Float.Model.UnpackedFloat.Sign) {m : Nat} (hm : 0 < m)
    (hlt : m < 2 ^ 52) :
    unpack Format.binary64 (pack Format.binary64 (.finite s m (-1074) hm)) =
      .finite s m (-1074) hm := by
  have hbias : (Format.binary64.exponentBias : Int) = 1023 := rfl
  have hbits : Format.binary64.mantissaBits = 53 := rfl
  have hlog : m.log2 + 1 ≠ 53 := by
    have := (Nat.log2_lt hm.ne').mpr hlt
    omega
  have hrest : (BitVec.ofNat 52 m).toNat = m := by
    rw [BitVec.toNat_ofNat, Nat.mod_eq_of_lt hlt]
  unfold pack
  dsimp only
  rw [hbias, hbits, if_neg (by norm_num), if_neg hlog]
  unfold unpack
  simp only [unpackMantissa_packComponents, unpackExponent_packComponents, ofBitVec_unpackSign]
  rw [if_neg (by decide), if_pos trivial,
    dif_neg (by rw [← BitVec.toNat_inj, hrest, BitVec.toNat_zero]; omega)]
  simp only [hrest]
  rfl

theorem unpack_pack {f : UnpackedFloat} (h : Canonical f) :
    unpack Format.binary64 (pack Format.binary64 f) = f := by
  cases f with
  | infinity s => cases s <;> rfl
  | notANumber => rfl
  | zero s => cases s <;> rfl
  | finite s m e hm =>
    obtain ⟨hmantissa, hlow, hhigh, hnormal⟩ := h
    by_cases hle : 2 ^ 52 ≤ m
    · exact unpack_pack_normal s hm hle hmantissa hlow hhigh
    · obtain rfl : e = -1074 := hnormal.resolve_left hle
      exact unpack_pack_subnormal s hm (not_le.mp hle)

theorem shiftRight_exact (m k : Nat) :
    (⟨m * 2 ^ k, false, false⟩ : ExtendedMantissa) >>> k = ⟨m, false, false⟩ := by
  induction k generalizing m with
  | zero => rw [pow_zero, mul_one]; rfl
  | succ k ih =>
    change ExtendedMantissa.shiftRightOne
      ((⟨m * 2 ^ (k + 1), false, false⟩ : ExtendedMantissa) >>> k) = _
    rw [pow_succ', ← mul_assoc, ih (m * 2), ExtendedMantissa.shiftRightOne]
    simp

theorem log2_mul_two_pow {m : Nat} (hm : 0 < m) (k : Nat) : (m * 2 ^ k).log2 = m.log2 + k := by
  induction k with
  | zero => rw [pow_zero, mul_one, add_zero]
  | succ k ih =>
    rw [pow_succ', Nat.mul_left_comm, Nat.log2_two_mul (by positivity), ih, add_assoc]

theorem shiftToTargetExponent_exact {s : Float.Model.UnpackedFloat.Sign} {m : Nat} {e : Int}
    {hm : 0 < m} (h : Canonical (.finite s m e hm)) (k : Nat) :
    shiftToTargetExponent Format.binary64 (m * 2 ^ k) (e - k) .exact = (⟨m, false, false⟩, e) := by
  obtain ⟨hmantissa, hlow, -, hnormal⟩ := h
  have hlog : m.log2 < 53 := (Nat.log2_lt hm.ne').mpr hmantissa
  have htarget : Format.binary64.targetExponent
      (Float.Model.totalExponent (m * 2 ^ k) (e - k)) = e := by
    rw [targetExponent_eq, log2_mul_two_pow hm]
    rcases hnormal with hle | rfl
    · have := (Nat.le_log2 hm.ne').mpr hle
      omega
    · omega
  have hshift : (e - (e - k)).toNat = k := by omega
  rw [shiftToTargetExponent, htarget, shiftToExponent, hshift]
  exact Prod.ext (shiftRight_exact m k) (by dsimp only; omega)

/-- Rounding keeps a number that a double holds. -/
theorem roundWithAccuracy_exact (s : Float.Model.UnpackedFloat.Sign) {m : Nat} {e : Int}
    {hm : 0 < m} (h : Canonical (.finite s m e hm)) (k : Nat) :
    roundWithAccuracy Format.binary64 s (m * 2 ^ k) (e - k) .exact = .finite s m e hm := by
  have hagain := shiftToTargetExponent_exact h 0
  rw [pow_zero, mul_one, Nat.cast_zero, sub_zero] at hagain
  have hrounded : (⟨m, false, false⟩ : ExtendedMantissa).roundedMantissa = m := rfl
  rw [roundWithAccuracy, shiftToTargetExponent_exact h k]
  dsimp only
  rw [hrounded, hagain]
  exact dif_neg hm.ne'

theorem mul_one_canonical {f : UnpackedFloat} (h : Canonical f) :
    mul Format.binary64 f (.finite .positive (2 ^ 52) (-52) (by decide)) = f := by
  cases f with
  | infinity s => cases s <;> rfl
  | notANumber => rfl
  | zero s => cases s <;> rfl
  | finite s m e hm =>
    have hsign : s * .positive = s := by cases s <;> rfl
    rw [mul, hsign]
    exact roundWithAccuracy_exact s h 52

theorem mul_comm_unpacked (f g : UnpackedFloat) :
    mul Format.binary64 f g = mul Format.binary64 g f := by
  have hsign : ∀ s t : Float.Model.UnpackedFloat.Sign, s * t = t * s := by
    intro s t
    cases s <;> cases t <;> rfl
  cases f <;> cases g <;> simp [mul, hsign, Nat.mul_comm, Int.add_comm]

theorem div_self_finite (s : Float.Model.UnpackedFloat.Sign) {m : Nat} {e : Int} (hm : 0 < m) :
    div Format.binary64 (.finite s m e hm) (.finite s m e hm) =
      .finite .positive (2 ^ 52) (-52) (by decide) := by
  rw [div, divCore]
  have htarget : min (e - e) (Format.binary64.targetExponent
    (Float.Model.totalExponent m e - Float.Model.totalExponent m e)) = -53 := by
    rw [sub_self, sub_self]
    rfl
  dsimp only
  rw [htarget]
  have hshift : (e - e - -53).toNat = 53 := by omega
  rw [hshift, Nat.shiftLeft_eq, Nat.mul_div_cancel_left _ hm, Nat.mul_mod_right,
    accuracyOfFraction, if_pos rfl]
  cases s <;> rfl

theorem sub_self_cases (f : UnpackedFloat) :
    sub Format.binary64 f f = .zero .positive ∨ sub Format.binary64 f f = .notANumber := by
  cases f with
  | infinity s => cases s <;> exact .inr rfl
  | notANumber => exact .inr rfl
  | zero s => cases s <;> exact .inl rfl
  | finite s m e hm =>
    left
    rw [sub]
    dsimp only
    rw [Int.sub_self]
    rfl

namespace Double

def unpacked (x : Float) : UnpackedFloat := x.toModel.unpack

theorem isNaN_iff {x : Float} : x.isNaN = true ↔ unpacked x = .notANumber := by
  change (unpacked x).isNaN = true ↔ _
  cases unpacked x <;> simp [UnpackedFloat.isNaN]

theorem isZero_iff {x : Float} : Arithmetic.isZero x = true ↔ ∃ s, unpacked x = .zero s :=
  beq_zero_iff

theorem lt_iff {x y : Float} : x < y ↔ (unpacked x).compare (unpacked y) = some .lt := by
  change decide ((unpacked x).lt (unpacked y) = true) = true ↔ _
  rw [decide_eq_true_iff, UnpackedFloat.lt, beq_iff_eq]

theorem canonical_unpacked (x : Float) : Canonical (unpacked x) := canonical_unpack _

theorem unpacked_sub {x y : Float} {f : UnpackedFloat} (hf : Canonical f)
    (h : sub Format.binary64 (unpacked x) (unpacked y) = f) : unpacked (x - y) = f := by
  rw [← unpack_pack hf, ← h]
  rfl

theorem unpacked_mul {x y : Float} {f : UnpackedFloat} (hf : Canonical f)
    (h : mul Format.binary64 (unpacked x) (unpacked y) = f) : unpacked (x * y) = f := by
  rw [← unpack_pack hf, ← h]
  rfl

theorem unpacked_div {x y : Float} {f : UnpackedFloat} (hf : Canonical f)
    (h : div Format.binary64 (unpacked x) (unpacked y) = f) : unpacked (x / y) = f := by
  rw [← unpack_pack hf, ← h]
  rfl

theorem unpacked_one : unpacked 1 = .finite .positive (2 ^ 52) (-52) (by decide) := rfl

theorem canonical_zero (s : Float.Model.UnpackedFloat.Sign) : Canonical (.zero s) := trivial

theorem canonical_notANumber : Canonical .notANumber := trivial

theorem unpacked_ne_notANumber {x : Float} (h : x.isNaN = false) : unpacked x ≠ .notANumber := by
  intro hx
  rw [isNaN_iff.mpr hx] at h
  contradiction

theorem unpacked_mul_zero {z : Float} (hz : ∃ s, unpacked z = .zero s) (y : Float) :
    unpacked (y * z) = .notANumber ∨ ∃ s, unpacked (y * z) = .zero s := by
  obtain ⟨s, hs⟩ := hz
  cases hy : unpacked y with
  | infinity t => exact .inl (unpacked_mul canonical_notANumber (by rw [hy, hs]; rfl))
  | notANumber => exact .inl (unpacked_mul canonical_notANumber (by rw [hy, hs]; rfl))
  | zero t => exact .inr ⟨_, unpacked_mul (canonical_zero _) (by rw [hy, hs, mul])⟩
  | finite t m e hm => exact .inr ⟨_, unpacked_mul (canonical_zero _) (by rw [hy, hs, mul])⟩

theorem unpacked_sub_notANumber {x y : Float}
    (h : unpacked x = .notANumber ∨ unpacked y = .notANumber) : unpacked (x - y) = .notANumber := by
  apply unpacked_sub canonical_notANumber
  rcases h with hx | hy
  · rw [hx]
    cases unpacked y <;> rfl
  · rw [hy]
    cases unpacked x <;> rfl

end Double

end MatrixCalculator
