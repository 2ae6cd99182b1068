import Formula.Double.Integer
import Formula.Proofs.DoubleClasses

namespace Formula.Double

open Float.Model
open Float.Model.UnpackedFloat (Sign unpackSign unpackExponent unpackMantissa)

def unpackedValue : UnpackedFloat → Option ℚ
  | .finite sign mantissa exponent _ => some (sign.apply mantissa * 2 ^ exponent)
  | .zero _ => some 0
  | .infinity _ | .notANumber => none

/-- The number a double stands for; an infinite one and NaN stand for none. -/
def value (x : Float) : Option ℚ :=
  unpackedValue x.toModel.unpack

def signed (negative : Bool) (size : Nat) : ℤ :=
  if negative then -size else size

def exactValue : Double → Option ℚ
  | .finite negative significand exponent => some (signed negative significand * 2 ^ exponent)
  | .infinite _ | .nan => none

theorem signed_zero (negative : Bool) : signed negative 0 = 0 := by
  cases negative <;> rfl

theorem signed_natAbs (negative : Bool) (size : Nat) : (signed negative size).natAbs = size := by
  cases negative <;> simp [signed]

variable (b : BitVec Format.binary64.numBits)

theorem sign_apply (size : Nat) :
    (Sign.ofBitVec (unpackSign b)).apply size = signed (decide (2 ^ 63 ≤ b.toNat)) size := by
  by_cases hnegative : 2 ^ 63 ≤ b.toNat
  · have hsign : ¬ unpackSign b = 0#1 := mt (unpackSign_eq_zero b).mp (not_lt.mpr hnegative)
    rw [Sign.ofBitVec, if_neg hsign, decide_eq_true hnegative]
    rfl
  · have hsign : unpackSign b = 0#1 := (unpackSign_eq_zero b).mpr (not_le.mp hnegative)
    rw [Sign.ofBitVec, if_pos hsign, decide_eq_false hnegative]
    rfl

theorem value_eq_exactValue (x : Float) : value x = exactValue (ofFloat x) := by
  have hbits : x.toBits.toNat = x.toModel.toBits.toBitVec.toNat := rfl
  have hbias : (Format.binary64.exponentBias : ℤ) = 1023 := rfl
  simp only [value, ofFloat, Float.Model.unpack, UnpackedFloat.unpack, hbits, Nat.pow_eq]
  generalize x.toModel.toBits.toBitVec = b
  split
  next hones =>
    rw [if_pos ((unpackExponent_eq_ones b).mp hones)]
    split <;> split <;> rfl
  next hones =>
    rw [if_neg (mt (unpackExponent_eq_ones b).mpr hones)]
    split
    next hleast =>
      rw [if_pos ((unpackExponent_eq_zero b).mp hleast)]
      split
      next hzero =>
        rw [(unpackMantissa_eq_zero b).mp hzero]
        simp [exactValue, unpackedValue, signed_zero]
      next hzero =>
        simp only [exactValue, unpackedValue, sign_apply, unpackMantissa_toNat, hleast, hbias]
        rfl
    next hleast =>
      rw [if_neg (mt (unpackExponent_eq_zero b).mpr hleast)]
      have hmantissa := leading_append_toNat b
      simp only [exactValue, unpackedValue, sign_apply, unpackExponent_toNat, hbias]
      rw [hmantissa]
      rfl

theorem SameClass.isFinite_eq {u : UnpackedFloat} {d : Double} (h : SameClass u d) :
    u.isFinite = (exactValue d).isSome := by
  cases h <;> rfl

/-- The integer next to a number on the side of zero. -/
def towardZero (q : ℚ) : ℤ :=
  if q < 0 then ⌈q⌉ else ⌊q⌋

/-- The number as a 64-bit integer, where it is one when rounded toward zero; otherwise -2^63. -/
def pinned : Option ℚ → ℤ
  | some q => if -2 ^ 63 ≤ towardZero q ∧ towardZero q < 2 ^ 63 then towardZero q else -2 ^ 63
  | none => -2 ^ 63

theorem towardZero_neg (q : ℚ) : towardZero (-q) = -towardZero q := by
  unfold towardZero
  rcases lt_trichotomy q 0 with hneg | rfl | hpos
  · rw [if_pos hneg, if_neg (neg_pos.mpr hneg).not_gt, Int.floor_neg]
  · rfl
  · rw [if_pos (neg_lt_zero.mpr hpos), if_neg hpos.not_gt, Int.ceil_neg]

theorem two_zpow_eq_div (exponent : ℤ) :
    (2 : ℚ) ^ exponent = 2 ^ exponent.toNat / 2 ^ (-exponent).toNat := by
  rw [← zpow_natCast, ← zpow_natCast, ← zpow_sub₀ (by norm_num)]
  congr 1
  omega

theorem towardZero_exact (negative : Bool) (significand : Nat) (exponent : ℤ) :
    towardZero (signed negative significand * 2 ^ exponent) =
      signed negative (significand * 2 ^ exponent.toNat / 2 ^ (-exponent).toNat) := by
  have hsize : towardZero (significand * 2 ^ exponent) =
      (significand * 2 ^ exponent.toNat / 2 ^ (-exponent).toNat : Nat) := by
    have hquotient : (significand : ℚ) * 2 ^ exponent =
        (significand * 2 ^ exponent.toNat : Nat) / (2 ^ (-exponent).toNat : Nat) := by
      rw [two_zpow_eq_div]
      push_cast
      ring
    have hnonneg : ¬ (significand : ℚ) * 2 ^ exponent < 0 := by
      rw [not_lt]
      positivity
    rw [towardZero, if_neg hnonneg, hquotient, Rat.floor_natCast_div_natCast]
    rfl
  cases negative with
  | false => exact hsize
  | true =>
    have hopposite : ((signed true significand : ℤ) : ℚ) * 2 ^ exponent =
        -(significand * 2 ^ exponent) := by
      simp [signed]
    rw [hopposite, towardZero_neg, hsize]
    rfl

theorem toInt64_eq_pinned (x : Float) : toInt64 x = .ok (pinned (value x)) := by
  have hfinite : x.isFinite = (exactValue (ofFloat x)).isSome := (sameClass_ofFloat x).isFinite_eq
  rw [toInt64, value_eq_exactValue, hfinite]
  cases hx : ofFloat x with
  | nan => rfl
  | infinite negative => rfl
  | finite negative significand exponent =>
    have htruncated : truncate x =
        .ok (towardZero (signed negative significand * 2 ^ exponent)) := by
      rw [towardZero_exact, truncate, hx]
      rfl
    rw [htruncated]
    rfl

theorem pinned_range (v : Option ℚ) : -2 ^ 63 ≤ pinned v ∧ pinned v < 2 ^ 63 := by
  cases v with
  | none => decide
  | some q =>
    rw [pinned]
    split
    next h => exact h
    next => decide

end Formula.Double
