import Mathlib
import MatrixCalculator.Builtin

namespace MatrixCalculator

open Float.Model (Format)
open Float.Model.UnpackedFloat

section Format

variable {b : BitVec Format.binary64.numBits}

theorem exponent_eq_ones_iff (e : BitVec Format.binary64.exponentBits) :
    e = -1#_ ↔ e.toNat = 2047 := by
  rw [← BitVec.toNat_inj]
  rfl

theorem toNat_unpackExponent (b : BitVec Format.binary64.numBits) :
    (unpackExponent b).toNat = b.toNat / Nat.pow 2 52 % Nat.pow 2 11 := by
  change (b.toNat >>> 52) % Nat.pow 2 11 = _
  rw [Nat.shiftRight_eq_div_pow]

theorem isFinite_unpack :
    (unpack Format.binary64 b).isFinite = true ↔ (unpackExponent b).toNat ≠ 2047 := by
  rw [Ne, ← exponent_eq_ones_iff]
  unfold unpack
  dsimp only
  by_cases hexponent : unpackExponent b = -1#_
  · rw [if_pos hexponent]
    split <;> simp only [isFinite, hexponent, not_true, Bool.false_eq_true]
  · rw [if_neg hexponent]
    split
    · split <;> simp only [isFinite, hexponent, not_false_eq_true]
    · simp only [isFinite, hexponent, not_false_eq_true]

theorem exponent_lt_of_unpack {s : Float.Model.UnpackedFloat.Sign} {m : Nat} {e : Int} {hm : 0 < m}
    (h : unpack Format.binary64 b = .finite s m e hm) : (e + 1023 + 52).toNat < 2047 := by
  have hlt : (unpackExponent b).toNat < 2048 := (unpackExponent b).isLt
  have hfinite : (unpackExponent b).toNat ≠ 2047 := isFinite_unpack.mp (by rw [h]; rfl)
  have hbias : (Format.binary64.exponentBias : Int) = 1023 := rfl
  unfold unpack at h
  dsimp only at h
  split at h
  · split at h <;> contradiction
  · split at h
    · rename_i hzero
      split at h
      · contradiction
      · obtain ⟨_, _, rfl⟩ := finite.inj h
        rw [hzero, hbias, BitVec.toNat_zero]
        decide
    · obtain ⟨_, _, rfl⟩ := finite.inj h
      rw [hbias]
      omega

theorem isFinite_pack {s : Float.Model.UnpackedFloat.Sign} {m : Nat} {e : Int} {hm : 0 < m}
    (h : (e + 1023 + 52).toNat < 2047) :
    (unpack Format.binary64 (pack Format.binary64 (.finite s m e hm))).isFinite = true := by
  have hbias : (Format.binary64.exponentBias : Int) = 1023 := rfl
  rw [isFinite_unpack]
  unfold pack
  dsimp only
  rw [hbias, if_neg (by simpa using h)]
  split
  · rw [unpackExponent_packComponents, BitVec.toNat_ofNat]
    omega
  · rw [unpackExponent_packComponents]
    decide

end Format

theorem isFinite_neg (x : Float) : (-x).isFinite = x.isFinite := by
  change (unpack Format.binary64
    (pack Format.binary64 x.toModel.unpack.neg)).isFinite = x.toModel.unpack.isFinite
  cases hx : x.toModel.unpack with
  | infinity s => cases s <;> decide
  | notANumber => decide
  | zero s => cases s <;> decide
  | finite s m e hm => exact isFinite_pack (exponent_lt_of_unpack hx)

theorem beq_zero_iff {x : Float} : (x == 0) = true ↔ ∃ s, x.toModel.unpack = .zero s := by
  change (x.toModel.unpack.compare (.zero .positive) == some .eq) = true ↔ _
  cases x.toModel.unpack with
  | zero s => exact ⟨fun _ => ⟨s, rfl⟩, fun _ => rfl⟩
  | infinity s => cases s <;> simp [Float.Model.UnpackedFloat.compare]
  | notANumber => simp [Float.Model.UnpackedFloat.compare]
  | finite s m e hm => cases s <;> simp [Float.Model.UnpackedFloat.compare]

theorem abs_eq_zero_of_beq_zero {x : Float} (hx : (x == 0) = true) : x.abs = 0 := by
  obtain ⟨s, hs⟩ := beq_zero_iff.mp hx
  change Float.ofModel (Float.Model.pack x.toModel.unpack.abs) = _
  rw [hs]
  rfl

/-- A double that equals zero lies below every positive bound. -/
theorem abs_lt_of_beq_zero {x tolerance : Float} (hx : (x == 0) = true) (h : 0 < tolerance) :
    x.abs < tolerance := by
  rwa [abs_eq_zero_of_beq_zero hx]

theorem Double.isSome_parts? (x : Float) : (Double.parts? x).isSome = x.isFinite := by
  have hfinite : x.isFinite = true ↔ x.toBits.toNat / Nat.pow 2 52 % Nat.pow 2 11 ≠ 2047 := by
    have hunpack := isFinite_unpack (b := x.toBits.toBitVec)
    rwa [toNat_unpackExponent] at hunpack
  unfold Double.parts?
  dsimp only
  split
  · rename_i hones
    cases hx : x.isFinite with
    | false => rfl
    | true => exact absurd hones (hfinite.mp hx)
  · rename_i hones
    rw [hfinite.mpr hones]
    split <;> rfl

end MatrixCalculator
