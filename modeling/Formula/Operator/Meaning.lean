import Formula.Double.Arithmetic
import Formula.Double.Integer
import Formula.Operator

namespace Formula

/-- Truth values are 1 and 0, and every number but 0 counts as true. -/
def truth (b : Bool) : Float :=
  if b then 1 else 0

/-- A root of NaN or of a negative number is NaN. -/
def UnaryOp.apply (op : UnaryOp) (x : Float) : Except Fault Float :=
  match op with
  | negate => .ok (-x)
  | logicalNot => .ok (truth (x == 0))
  | bitwiseNot => Double.complement x
  | sqrt => if 0 ≤ x then Double.squareRoot x else .ok Double.notANumber

namespace BinaryOp

/-- Whether the right operand is evaluated first, and the left one not at all if that is zero. -/
def isDivision : BinaryOp → Bool
  | divide | remainder => true
  | _ => false

/-- Division by zero gives 0; the remainder of an infinite dividend is NaN. -/
def apply (op : BinaryOp) (a b : Float) : Except Fault Float :=
  match op with
  | multiply => .ok (a * b)
  | divide => if b == 0 then .ok 0 else Double.quotient a b
  | remainder =>
    if b == 0 then .ok 0
    else if a.isInf then .ok Double.notANumber
    else Double.remainder a b
  | add => .ok (a + b)
  | subtract => .ok (a - b)
  | shiftLeft => Double.shiftLeft a b
  | shiftRight => Double.shiftRight a b
  | less => .ok (truth (a < b))
  | lessEqual => .ok (truth (a ≤ b))
  | greater => .ok (truth (b < a))
  | greaterEqual => .ok (truth (b ≤ a))
  | equal => .ok (truth (a == b))
  | notEqual => .ok (truth (a != b))
  | bitwiseAnd => Double.bitAnd a b
  | bitwiseXor => Double.bitXor a b
  | bitwiseOr => Double.bitOr a b
  | logicalAnd => .ok (truth (a != 0 && b != 0))
  | logicalOr => .ok (truth (a != 0 || b != 0))

end BinaryOp

end Formula
