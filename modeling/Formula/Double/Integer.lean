import Formula.Double.Exact
import Formula.Fault

namespace Formula.Double

/-- Rounds a finite double toward zero. -/
def truncate (x : Float) : Except Fault Int :=
  match ofFloat x with
  | .finite negative significand exponent =>
    let size : Nat := significand * Nat.pow 2 exponent.toNat / Nat.pow 2 (-exponent).toNat
    .ok (if negative then -size else size)
  | _ => .error .integerOfNonFinite

/-- Rounds toward zero where the result fits 64 bits; everything else becomes -2^63. -/
def toInt64 (x : Float) : Except Fault Int :=
  if x.isFinite then do
    let n ← truncate x
    return if -Nat.pow 2 63 ≤ n ∧ n < Nat.pow 2 63 then n else -Nat.pow 2 63
  else
    return -Nat.pow 2 63

/-- The number from -2^63 up to 2^63 that agrees with `n` modulo 2^64. -/
def wrapInt64 (n : Int) : Int :=
  n.bmod (Nat.pow 2 64)

/-- A negative count stands for the unsigned number with the same pattern. -/
def shiftCount (x : Float) : Except Fault Int := do
  return (← toInt64 x) % Nat.pow 2 64

def shiftLeftBy (n count : Int) : Except Fault Int :=
  if count < 0 then .error .negativeShift else .ok (n <<< count.toNat)

def shiftRightBy (n count : Int) : Except Fault Int :=
  if count < 0 then .error .negativeShift else .ok (n >>> count.toNat)

/-- From 64 places on nothing of the pattern is left. -/
def shiftLeft (a b : Float) : Except Fault Float := do
  let count ← shiftCount b
  if 64 ≤ count then return 0
  else return ofInt (wrapInt64 (← shiftLeftBy (← toInt64 a) count))

/-- From 64 places on only the sign is left. -/
def shiftRight (a b : Float) : Except Fault Float := do
  let n ← toInt64 a
  let count ← shiftCount b
  if 64 ≤ count then return if n < 0 then -1 else 0
  else return ofInt (← shiftRightBy n count)

/-- The bits of an integer in two's complement, flipped if it is negative, so that they end. -/
def endingBits : Int → Nat
  | .ofNat n => n
  | .negSucc n => n

/-- The integer with these bits, all of them flipped if it is negative. -/
def ofEndingBits (negative : Bool) (bits : Nat) : Int :=
  if negative then .negSucc bits else .ofNat bits

/-- Combines integers bit by bit, in two's complement without end. -/
def combine (bit : Bool → Bool → Bool) (m n : Int) : Int :=
  let sign := bit (m < 0) (n < 0)
  let flipped := fun x y => bit (x ^^ decide (m < 0)) (y ^^ decide (n < 0)) ^^ sign
  ofEndingBits sign (Nat.bitwise flipped (endingBits m) (endingBits n))

def complement (x : Float) : Except Fault Float := do
  return ofInt (~~~(← toInt64 x))

/-- Bits of 64-bit integers, combined. -/
def bitwise (bit : Bool → Bool → Bool) (a b : Float) : Except Fault Float := do
  return ofInt (combine bit (← toInt64 a) (← toInt64 b))

def bitAnd : Float → Float → Except Fault Float := bitwise and

def bitXor : Float → Float → Except Fault Float := bitwise xor

def bitOr : Float → Float → Except Fault Float := bitwise or

end Formula.Double
