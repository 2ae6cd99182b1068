import Formula.Double.Decimal
import Formula.Text.Blank
import Formula.Text.Digit

namespace Formula.Double

/-- Digits of all scripts become ASCII digits, and blanks beyond ASCII become spaces. -/
def plainChar (c : Char) : Char :=
  if c.toNat < 127 then c
  else if Text.isBlank c then ' '
  else match Text.digit? c with
    | some digit => Char.ofNat (48 + digit)
    | none => c

def isEdge (c : Char) : Bool :=
  c == ' ' || (9 ≤ c.toNat && c.toNat ≤ 13)

def strip (s : List Char) : List Char :=
  ((s.dropWhile isEdge).reverse.dropWhile isEdge).reverse

/-- Takes out underscores, each of which must stand between two digits. -/
def joinDigits? (afterDigit : Bool) : List Char → Option (List Char)
  | [] => some []
  | c :: rest =>
    if c = '_' then
      if afterDigit && rest.head?.any Char.isDigit then joinDigits? false rest else none
    else (joinDigits? c.isDigit rest).map (c :: ·)

def digitValues (s : List Char) : List Nat :=
  s.map (fun c => c.toNat - 48)

/-- One or more digits and nothing else. -/
def natural? (s : List Char) : Option Nat :=
  if !s.isEmpty && s.all Char.isDigit then some (Decimal.value (digitValues s)) else none

def exponent? : List Char → Option Int
  | '-' :: rest => (natural? rest).map (fun n => -n)
  | '+' :: rest => (natural? rest).map (fun n => n)
  | s => (natural? s).map (fun n => n)

/-- Digits with at most one point among them, then an optional exponent. -/
def decimal? (s : List Char) : Option Decimal :=
  let whole := s.takeWhile Char.isDigit
  let (fraction, rest) := match s.dropWhile Char.isDigit with
    | '.' :: rest => (rest.takeWhile Char.isDigit, rest.dropWhile Char.isDigit)
    | rest => ([], rest)
  if whole.isEmpty && fraction.isEmpty then none
  else
    let scaled := Decimal.ofParts (digitValues whole) (digitValues fraction)
    match rest with
    | [] => some (scaled 0)
    | c :: rest => if c = 'e' ∨ c = 'E' then (exponent? rest).map scaled else none

def unsigned? (negative : Bool) (s : List Char) : Option Float :=
  let lower := s.map Char.toLower
  if lower = ['n', 'a', 'n'] then some notANumber
  else if lower = ['i', 'n', 'f'] ∨ lower = ['i', 'n', 'f', 'i', 'n', 'i', 't', 'y'] then
    some (if negative then -infinity else infinity)
  else (decimal? s).map (Decimal.toFloat negative)

def signed? : List Char → Option Float
  | '-' :: rest => unsigned? true rest
  | '+' :: rest => unsigned? false rest
  | s => unsigned? false s

def readChars? (s : List Char) : Option Float :=
  (joinDigits? false (strip (s.map plainChar))).bind signed?

/-- An optional sign before `inf`, `infinity`, `nan`, in any case, or a decimal. -/
def read? (s : String) : Option Float :=
  readChars? s.toList

end Formula.Double
