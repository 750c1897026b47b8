import EcmaScript.Proofs.Number.Rounding
import Mathlib

namespace EcmaScript

/-!
# The fields of a double

Arithmetic on doubles takes them apart into a sign, a mantissa and an exponent, and puts the result
together again. The parts are the ones that the digits of a number are printed from.

* `Number.unpacked` — a number in parts;
* `Number.toFloat_unpack` — these are the parts that arithmetic works on.
-/

open Float.Model Float.Model.UnpackedFloat

namespace Number

variable (n : Number)

/-- The sign in front of a number. -/
def unpackedSign : Sign := if n.isNegative then .negative else .positive

/-- A number in parts. -/
def unpacked : UnpackedFloat :=
  if n.isNaN then .notANumber
  else if n.isFinite then
    if hzero : n.isZero then .zero n.unpackedSign
    else .finite n.unpackedSign n.magnitude.mantissa n.magnitude.exponent
      (mantissa_pos (Bool.eq_false_iff.2 hzero))
  else .infinity n.unpackedSign

/-! ### Fields -/

theorem unpackExponent_toNat :
    (@unpackExponent Format.binary64 n.bits.toBitVec).toNat = n.exponentField := by
  rw [unpackExponent_def, BitVec.extractLsb'_toNat, exponentField_eq, Nat.shiftRight_eq_div_pow]
  rfl

theorem unpackMantissa_toNat :
    (@unpackMantissa Format.binary64 n.bits.toBitVec).toNat = n.fractionField := by
  rw [unpackMantissa_def, BitVec.extractLsb'_toNat, fractionField_eq, Nat.shiftRight_eq_div_pow]
  simp

theorem ofBitVec_unpackSign :
    Sign.ofBitVec (@unpackSign Format.binary64 n.bits.toBitVec) = n.unpackedSign := by
  have hsign : (@unpackSign Format.binary64 n.bits.toBitVec).toNat
      = n.bits.toNat / 2 ^ 63 % 2 := by
    rw [unpackSign_def, BitVec.extractLsb'_toNat, Nat.shiftRight_eq_div_pow]
    rfl
  have hlt := n.bits.toNat_lt
  have hzero : @unpackSign Format.binary64 n.bits.toBitVec = 0#1
      ↔ n.bits.toNat / 2 ^ 63 % 2 = 0 := by
    rw [← hsign, ← BitVec.toNat_inj]
    rfl
  unfold Sign.ofBitVec unpackedSign
  rw [isNegative_eq]
  by_cases hneg : 2 ^ 63 ≤ n.bits.toNat
  · rw [if_neg (by rw [hzero]; omega), if_pos (decide_eq_true hneg)]
  · rw [if_pos (by rw [hzero]; omega), if_neg (by simpa using hneg)]

/-- The mantissa of a normal number is its fraction behind a one. -/
theorem one_append_toNat (v : BitVec 52) : (1#1 ++ v).toNat = v.toNat + 0x10000000000000 := by
  have hone : (1#1 ++ v).toNat = 2 ^ 52 ||| v.toNat := rfl
  rw [hone, Nat.or_comm, Nat.or_two_pow_eq_add_of_lt v.isLt]

/-- The bits of a number are taken apart into its parts. -/
theorem unpack_bits : UnpackedFloat.unpack Format.binary64 n.bits.toBitVec = n.unpacked := by
  have hexponent := n.unpackExponent_toNat
  have hmantissa := n.unpackMantissa_toNat
  have hones : @unpackExponent Format.binary64 n.bits.toBitVec = -1#_
      ↔ n.exponentField = 0x7ff := by
    rw [← hexponent, ← BitVec.toNat_inj]
    rfl
  have hnone : @unpackExponent Format.binary64 n.bits.toBitVec = 0#_
      ↔ n.exponentField = 0 := by
    rw [← hexponent, ← BitVec.toNat_inj]
    rfl
  have hfraction : @unpackMantissa Format.binary64 n.bits.toBitVec = 0#_
      ↔ n.fractionField = 0 := by
    rw [← hmantissa, ← BitVec.toNat_inj]
    rfl
  unfold UnpackedFloat.unpack unpacked
  simp only [ofBitVec_unpackSign, isNaN, isFinite, isZero, hones, hnone, hfraction, hexponent,
    hmantissa, one_append_toNat]
  have hbias : (Format.binary64.exponentBias : Int) = 1023 := rfl
  by_cases hspecial : n.exponentField = 0x7ff
  · by_cases hzero : n.fractionField = 0 <;> simp [hspecial, hzero]
  by_cases hsmall : n.exponentField = 0
  · by_cases hzero : n.fractionField = 0 <;> simp [hsmall, hzero, magnitude, hbias]
  · simp [hspecial, hsmall, magnitude, hbias]

/-- Nothing gets lost when parts are put together that bits were taken apart into. -/
theorem unpack_pack_unpack (b : BitVec Format.binary64.numBits) :
    UnpackedFloat.unpack Format.binary64
      (UnpackedFloat.pack Format.binary64 (UnpackedFloat.unpack Format.binary64 b))
      = UnpackedFloat.unpack Format.binary64 b := by
  rw [pack_unpack b]
  split
  next hnan =>
    simp only [isNaNBits, decide_eq_true_eq] at hnan
    rw [unpack_packedNaN, UnpackedFloat.unpack, if_pos hnan.1, if_neg hnan.2]
  next => rfl

/-- **The parts that arithmetic works on are the ones of the number.** -/
theorem toFloat_unpack : n.toFloat.toModel.unpack = n.unpacked :=
  (unpack_pack_unpack _).trans n.unpack_bits

end Number

end EcmaScript
