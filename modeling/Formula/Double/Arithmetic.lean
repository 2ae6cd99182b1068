import Formula.Double.Exact
import Formula.Fault

namespace Formula.Double

def quotient (a b : Float) : Except Fault Float :=
  if b == 0 then .error .divisionByZero else .ok (a / b)

/-- `a - n * b`, exactly, for the integer `n` nearest to `a / b`, ties to even. A zero has the sign
of `a`. -/
def remainder (a b : Float) : Except Fault Float :=
  match ofFloat a, ofFloat b with
  | .nan, _ => .ok notANumber
  | _, .nan => .ok notANumber
  | .infinite _, _ => .error .remainderUndefined
  | .finite .., .infinite _ => .ok a
  | .finite negative m p, .finite _ n q =>
    if n = 0 then .error .remainderUndefined
    else
      let unit := min p q
      let dividend := m * Nat.pow 2 (p - unit).toNat
      let divisor := n * Nat.pow 2 (q - unit).toNat
      let rest : Int := dividend - roundEven dividend divisor * divisor
      let turned := decide (rest < 0)
      .ok (nearest (negative != turned) (rest.natAbs * Nat.pow 2 unit.toNat)
        (Nat.pow 2 (-unit).toNat))

def squareRoot (x : Float) : Except Fault Float :=
  if x < 0 then .error .rootOfNegative else .ok x.sqrt

end Formula.Double
