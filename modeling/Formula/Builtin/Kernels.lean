import Formula.Builtin

namespace Formula.Builtin

/-- The greater of two numbers, the left one of equals; NaN if either is. -/
def greater (a b : Float) : Float :=
  if a.isNaN then a else if b.isNaN then b else if a < b then b else a

/-- The lesser of two numbers, the left one of equals; NaN if either is. -/
def lesser (a b : Float) : Float :=
  if a.isNaN then a else if b.isNaN then b else if b < a then b else a

/-- The upper bound wins where the bounds cross. -/
def clampTo (x low high : Float) : Float :=
  lesser (greater x low) high

/-- The exponent one half asks for the square root, also where powers differ from it. -/
def power (x y : Float) : Float :=
  if y == 0.5 then x.sqrt else x.pow y

def Kernels.standard : Kernels where
  sin := Float.sin
  cos := Float.cos
  tan := Float.tan
  exp := Float.exp
  log := Float.log
  log10 := Float.log10
  abs := Float.abs
  floor := Float.floor
  ceil := Float.ceil
  pow := power
  atan2 := Float.atan2
  clip := clampTo
  least values := values.tail.foldl lesser (values.headD 0)
  greatest values := values.tail.foldl greater (values.headD 0)

/-- The built-in functions as formulas call them, over the kernels at hand. -/
def functions : Functions :=
  table .standard

def function? (name : String) : Option Function :=
  functions.find? name

/-- The number of arguments of a built-in function that takes a fixed one. -/
def argumentCount? (name : String) : Option Nat :=
  (function? name).bind Function.arity

end Formula.Builtin
