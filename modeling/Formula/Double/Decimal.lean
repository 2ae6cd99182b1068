import Formula.Double.Exact

namespace Formula

/-- The number `digits * 10 ^ exponent`. -/
structure Decimal where
  digits : Nat
  exponent : Int
deriving Repr, DecidableEq

namespace Decimal

/-- The number of decimal digits, one for zero. -/
def width (n : Nat) : Nat :=
  (Nat.toDigits 10 n).length

/-- The nearest double. Beyond 10^310 that is infinity and below 10^-330 it is zero, whatever the
digits, so the powers computed stay small. -/
def toFloat (negative : Bool) (d : Decimal) : Float :=
  let size := width d.digits + d.exponent
  if d.digits = 0 ∨ size < -330 then Double.nearest negative 0 1
  else if 310 < size then Double.nearest negative (Nat.pow 10 310) 1
  else
    Double.nearest negative (d.digits * Nat.pow 10 d.exponent.toNat)
      (Nat.pow 10 (-d.exponent).toNat)

/-- The value of a list of digits, the most significant first. -/
def value (digits : List Nat) : Nat :=
  digits.foldl (fun n digit => 10 * n + digit) 0

/-- The decimal with these digits before and after the point, times a power of ten. -/
def ofParts (whole fraction : List Nat) (exponent : Int) : Decimal :=
  ⟨value (whole ++ fraction), exponent - fraction.length⟩

end Decimal

end Formula
