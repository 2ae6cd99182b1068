namespace Formula

/-- A double as a value; a finite one is `significand * 2 ^ exponent`, negated if `negative`. -/
inductive Double where
  | nan
  | infinite (negative : Bool)
  | finite (negative : Bool) (significand : Nat) (exponent : Int)
deriving Repr, DecidableEq

namespace Double

/-- Splits the bit pattern into sign, exponent field and fraction. -/
def ofFloat (x : Float) : Double :=
  let bits : Nat := x.toBits.toNat
  let negative := decide (Nat.pow 2 63 ≤ bits)
  let field : Nat := bits / Nat.pow 2 52 % Nat.pow 2 11
  let fraction : Nat := bits % Nat.pow 2 52
  if field = 2047 then
    if fraction = 0 then .infinite negative else .nan
  else if field = 0 then
    .finite negative fraction (-1074)
  else
    .finite negative (Nat.pow 2 52 + fraction) (field - 1075)

/-- The integer nearest to `numerator / denominator`, the even one of two equally near. -/
def roundEven (numerator denominator : Nat) : Nat :=
  let quotient := numerator / denominator
  let rest := numerator % denominator
  if 2 * rest < denominator then quotient
  else if denominator < 2 * rest then quotient + 1
  else quotient + quotient % 2

/-- The exponent of the spacing of doubles around `numerator / denominator`: the quotient has 53
bits in front of it, or fewer at the least spacing. -/
def spacing (numerator denominator : Nat) : Int :=
  let guess : Int := numerator.log2 - denominator.log2 - 53
  let short :=
    numerator * Nat.pow 2 (-guess).toNat < Nat.pow 2 53 * (denominator * Nat.pow 2 guess.toNat)
  max (if short then guess else guess + 1) (-1074)

/-- The bit pattern, without sign, of the double nearest to `numerator / denominator`. A
significand that rounds up to 2^53 carries into the exponent field by the same addition. -/
def magnitudeBits (numerator denominator : Nat) : Nat :=
  if numerator = 0 then 0
  else
    let exponent := spacing numerator denominator
    let significand :=
      roundEven (numerator * Nat.pow 2 (-exponent).toNat) (denominator * Nat.pow 2 exponent.toNat)
    min ((exponent + 1074).toNat * Nat.pow 2 52 + significand) (2047 * Nat.pow 2 52)

/-- The double nearest to `numerator / denominator`, ties to even, negated if `negative`. -/
def nearest (negative : Bool) (numerator denominator : Nat) : Float :=
  Float.ofBits (UInt64.ofNat
    ((if negative then Nat.pow 2 63 else 0) + magnitudeBits numerator denominator))

/-- The double nearest to an integer. -/
def ofInt (n : Int) : Float :=
  nearest (decide (n < 0)) n.natAbs 1

def infinity : Float := Float.ofBits 0x7FF0000000000000

def notANumber : Float := Float.ofBits 0x7FF8000000000000

end Double

end Formula
