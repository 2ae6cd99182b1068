import Formula.Double.Exact
import Mathlib

namespace Formula.Double

open Float.Model
open Float.Model.UnpackedFloat (Sign unpackSign unpackExponent unpackMantissa)

section Patterns

variable (b : BitVec Format.binary64.numBits)

theorem unpackSign_toNat : (unpackSign b).toNat = b.toNat / 2 ^ 63 := by
  have hlt : b.toNat < 2 ^ 64 := b.isLt
  simp only [unpackSign, BitVec.toNat_cast, BitVec.extractLsb_toNat, Nat.shiftRight_eq_div_pow]
  show b.toNat / 2 ^ 63 % 2 ^ 1 = b.toNat / 2 ^ 63
  omega

theorem unpackExponent_toNat : (unpackExponent b).toNat = b.toNat / 2 ^ 52 % 2 ^ 11 := by
  simp [unpackExponent, BitVec.extractLsb_toNat, Nat.shiftRight_eq_div_pow]

theorem unpackMantissa_toNat : (unpackMantissa b).toNat = b.toNat % 2 ^ 52 := by
  simp [unpackMantissa, BitVec.extractLsb_toNat, Nat.shiftRight_eq_div_pow]

/-- The leading bit of a mantissa stands in front of those the pattern has. -/
theorem leading_append_toNat : (1#1 ++ unpackMantissa b).toNat = 2 ^ 52 + b.toNat % 2 ^ 52 := by
  rw [BitVec.toNat_append, ← Nat.shiftLeft_add_eq_or_of_lt (unpackMantissa b).isLt,
    unpackMantissa_toNat, Nat.shiftLeft_eq]
  rfl

theorem unpackSign_eq_zero : unpackSign b = 0#1 ↔ b.toNat < 2 ^ 63 := by
  rw [← BitVec.toNat_inj, unpackSign_toNat]
  exact Nat.div_eq_zero_iff_lt (by decide)

theorem unpackExponent_eq_ones : unpackExponent b = -1#11 ↔ b.toNat / 2 ^ 52 % 2 ^ 11 = 2047 := by
  rw [← unpackExponent_toNat, ← BitVec.toNat_inj]
  rfl

theorem unpackExponent_eq_zero : unpackExponent b = 0#11 ↔ b.toNat / 2 ^ 52 % 2 ^ 11 = 0 := by
  rw [← unpackExponent_toNat, ← BitVec.toNat_inj]
  rfl

theorem unpackMantissa_eq_zero : unpackMantissa b = 0#52 ↔ b.toNat % 2 ^ 52 = 0 := by
  rw [← unpackMantissa_toNat, ← BitVec.toNat_inj]
  rfl

end Patterns

/-- An unpacked double and an exact value of the same class. -/
inductive SameClass : UnpackedFloat → Double → Prop
  | infinite (sign : Sign) (negative : Bool) : SameClass (.infinity sign) (.infinite negative)
  | nan : SameClass .notANumber .nan
  | zero (sign : Sign) (negative : Bool) (exponent : Int) :
      SameClass (.zero sign) (.finite negative 0 exponent)
  | finite (sign : Sign) {mantissa significand : Nat} (exponent exponent' : Int)
      (hpos : 0 < mantissa) (negative : Bool) : significand ≠ 0 →
      SameClass (.finite sign mantissa exponent hpos) (.finite negative significand exponent')

theorem sameClass_ofFloat (x : Float) : SameClass x.toModel.unpack (ofFloat x) := by
  have hbits : x.toBits.toNat = x.toModel.toBits.toBitVec.toNat := rfl
  simp only [ofFloat, Float.Model.unpack, UnpackedFloat.unpack, hbits, Nat.pow_eq]
  generalize x.toModel.toBits.toBitVec = b
  split
  next hones =>
    rw [if_pos ((unpackExponent_eq_ones b).mp hones)]
    split
    next hzero =>
      rw [if_pos ((unpackMantissa_eq_zero b).mp hzero)]
      exact .infinite _ _
    next hzero =>
      rw [if_neg (mt (unpackMantissa_eq_zero b).mpr hzero)]
      exact .nan
  next hones =>
    rw [if_neg (mt (unpackExponent_eq_ones b).mpr hones)]
    split
    next hleast =>
      rw [if_pos ((unpackExponent_eq_zero b).mp hleast)]
      split
      next hzero =>
        rw [(unpackMantissa_eq_zero b).mp hzero]
        exact .zero _ _ _
      next hzero => exact .finite _ _ _ _ _ (mt (unpackMantissa_eq_zero b).mpr hzero)
    next hleast =>
      rw [if_neg (mt (unpackExponent_eq_zero b).mpr hleast)]
      exact .finite _ _ _ _ _ (by omega)

namespace SameClass

variable {u : UnpackedFloat} {d : Double}

theorem finite_of_isFinite (h : SameClass u d) (hu : u.isFinite = true) :
    ∃ negative significand exponent, d = .finite negative significand exponent := by
  cases h with
  | infinite | nan => cases hu
  | zero _ negative exponent => exact ⟨negative, 0, exponent, rfl⟩
  | @finite _ _ significand _ exponent _ negative => exact ⟨negative, significand, exponent, rfl⟩

theorem isInf_of_infinite {negative : Bool} (h : SameClass u (.infinite negative)) :
    u.isInf = true := by
  cases h with
  | infinite => rfl

theorem zero_of_significand {negative : Bool} {exponent : Int}
    (h : SameClass u (.finite negative 0 exponent)) : ∃ sign, u = .zero sign := by
  cases h with
  | zero sign => exact ⟨sign, rfl⟩
  | finite _ _ _ _ _ hne => exact absurd rfl hne

end SameClass

variable {x : Float}

theorem beq_zero_iff : (x == 0) = true ↔ ∃ sign, x.toModel.unpack = .zero sign := by
  have hbeq : (x == 0) = x.toModel.unpack.beq (.zero .positive) := rfl
  rw [hbeq]
  cases hx : x.toModel.unpack with
  | finite sign => cases sign <;> simp [UnpackedFloat.beq, UnpackedFloat.compare]
  | infinity sign => cases sign <;> simp [UnpackedFloat.beq, UnpackedFloat.compare]
  | notANumber => simp [UnpackedFloat.beq, UnpackedFloat.compare]
  | zero sign => simp [UnpackedFloat.beq, UnpackedFloat.compare]

theorem not_lt_zero (h : 0 ≤ x) : ¬ x < 0 := by
  have hle : UnpackedFloat.le (.zero .positive) x.toModel.unpack = true :=
    of_decide_eq_true h
  intro hlt
  have hlt : UnpackedFloat.lt x.toModel.unpack (.zero .positive) = true :=
    of_decide_eq_true hlt
  cases hx : x.toModel.unpack with
  | finite sign =>
    cases sign <;> simp_all [UnpackedFloat.le, UnpackedFloat.lt, UnpackedFloat.compare]
  | infinity sign =>
    cases sign <;> simp_all [UnpackedFloat.le, UnpackedFloat.lt, UnpackedFloat.compare]
  | notANumber => simp_all [UnpackedFloat.le, UnpackedFloat.compare]
  | zero sign => simp_all [UnpackedFloat.lt, UnpackedFloat.compare]

end Formula.Double
