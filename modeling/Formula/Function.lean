import Formula.Action
import Formula.Table

namespace Formula

/-- A function with its own name and the number of arguments it takes, any number if `none`. The
body is given the number of arguments of the call. -/
structure Function where
  name : Option String
  arity : Option Nat
  body : Nat → Action Float

/-- The functions by the key under which formulas call them. -/
abbrev Functions := Table String Function

namespace Function

/-- Whether a call with this many arguments is admissible. -/
def takes (f : Function) (count : Nat) : Bool :=
  f.arity.all (· == count)

def nameText (f : Function) : String :=
  f.name.getD "None"

def arityText (f : Function) : String :=
  match f.arity with
  | some n => toString n
  | none => "None"

def shown (f : Function) : String :=
  "Function(" ++ f.nameText ++ ", arity=" ++ f.arityText ++ ")"

/-- How a call of the function is shown; a question mark stands for a missing name. -/
def callName (f : Function) : String :=
  match f.name with
  | some name => if name = "" then "?" else name
  | none => "?"

/-- Evaluates all arguments from left to right and returns the last value, 0 if there is none. -/
def last : Function where
  name := some "last"
  arity := none
  body := fun count => do return (← Action.evalFrom 0 count).getLast?.getD 0

end Function

end Formula
