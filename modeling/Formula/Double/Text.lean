import Formula.Double.Shortest

namespace Formula.Double

/-- The exponent of ten that belongs to the first digit is written out in at least two digits. -/
def exponentText (exponent : Int) : List Char :=
  let digits := Nat.toDigits 10 exponent.natAbs
  'e' :: (if exponent < 0 then '-' else '+') :: (List.replicate (2 - digits.length) '0' ++ digits)

/-- Lays out digits, none of them a trailing zero, whose first stands for `10 ^ exponent`. -/
def layout (digits : List Char) (exponent : Int) : List Char :=
  if exponent < -4 ∨ 16 ≤ exponent then
    let mantissa := match digits with
      | [] => []
      | [digit] => [digit]
      | digit :: rest => digit :: '.' :: rest
    mantissa ++ exponentText exponent
  else if exponent < 0 then
    '0' :: '.' :: (List.replicate (-exponent - 1).toNat '0' ++ digits)
  else
    let size := exponent.toNat + 1
    let whole := digits.take size ++ List.replicate (size - digits.length) '0'
    let fraction := digits.drop size
    whole ++ '.' :: (if fraction.isEmpty then ['0'] else fraction)

/-- Zero, and each finite double without its sign. -/
def magnitudeText (significand : Nat) (exponent : Int) : List Char :=
  if significand = 0 then ['0', '.', '0']
  else
    let decimal := shortest significand exponent
    let digits := Nat.toDigits 10 decimal.digits
    let trimmed := (digits.reverse.dropWhile (· == '0')).reverse
    layout trimmed (decimal.exponent + digits.length - 1)

def textChars (x : Float) : List Char :=
  match ofFloat x with
  | .nan => ['n', 'a', 'n']
  | .infinite negative => (if negative then ['-'] else []) ++ ['i', 'n', 'f']
  | .finite negative significand exponent =>
    (if negative then ['-'] else []) ++ magnitudeText significand exponent

def text (x : Float) : String :=
  String.ofList (textChars x)

end Formula.Double
