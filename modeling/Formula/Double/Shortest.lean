import Formula.Double.Decimal

namespace Formula.Double

/-- The reals that round to a finite positive double, and the double itself, in units of
`10 ^ exponent`. The ends belong to it if `closed`. -/
structure Catchment where
  low : Nat
  centre : Nat
  high : Nat
  closed : Bool
  exponent : Int

namespace Catchment

/-- The ends lie halfway to the neighbours; below a power of two the neighbour is half as far. -/
def of (significand : Nat) (exponent : Int) : Catchment :=
  let quarter := exponent - 2
  let unit := Nat.pow 2 quarter.toNat * Nat.pow 5 (-quarter).toNat
  let below := if significand = Nat.pow 2 52 ∧ -1074 < exponent then 1 else 2
  { low := (4 * significand - below) * unit
    centre := 4 * significand * unit
    high := (4 * significand + 2) * unit
    closed := significand % 2 == 0
    exponent := min quarter 0 }

def holds (c : Catchment) (n : Nat) : Bool :=
  if c.closed then c.low ≤ n && n ≤ c.high else c.low < n && n < c.high

/-- The multiple of `unit` inside that is nearest to the centre, the even one of two. Only the two
neighbours of the centre need a look. -/
def onGrid? (c : Catchment) (unit : Nat) : Option Nat :=
  let down := c.centre / unit
  let up := down + 1
  match c.holds (down * unit), c.holds (up * unit) with
  | false, false => none
  | true, false => some down
  | false, true => some up
  | true, true => some (roundEven c.centre unit)

/-- The first hit on grids of `10 ^ cut`, `10 ^ (cut - 1)`, …; the finest grid has the centre. -/
def coarsest (c : Catchment) : Nat → Decimal
  | 0 => ⟨c.centre, c.exponent⟩
  | cut + 1 =>
    match c.onGrid? (Nat.pow 10 (cut + 1)) with
    | some digits => ⟨digits, c.exponent + (cut + 1)⟩
    | none => c.coarsest cut

end Catchment

/-- The fewest digits that read back as the double `significand * 2 ^ exponent`. -/
def shortest (significand : Nat) (exponent : Int) : Decimal :=
  let c := Catchment.of significand exponent
  c.coarsest (Decimal.width c.centre - 1)

end Formula.Double
