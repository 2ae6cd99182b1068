namespace Formula

/-- A primitive is used outside its domain, or a function on arguments that it is not made for. -/
inductive Fault where
  | missingArgument (index : Nat)
  | argumentCount (count : Nat)
  | divisionByZero
  | rootOfNegative
  | remainderUndefined
  | integerOfNonFinite
  | negativeShift
deriving Repr, DecidableEq

end Formula
