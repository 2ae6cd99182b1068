import Formula.Double.Arithmetic
import Formula.Function
import Formula.Operator.Meaning
import Formula.Variables

namespace Formula.Builtin

/-- Numerical functions, to which built-in ones do no more than pass the values of their arguments.
The least and the greatest are taken of one number at least. -/
structure Kernels where
  sin : Float → Float
  cos : Float → Float
  tan : Float → Float
  exp : Float → Float
  log : Float → Float
  log10 : Float → Float
  abs : Float → Float
  floor : Float → Float
  ceil : Float → Float
  pow : Float → Float → Float
  atan2 : Float → Float → Float
  clip : Float → Float → Float → Float
  least : List Float → Float
  greatest : List Float → Float

def lerp (a b t : Float) : Float :=
  a + t * (b - a)

/-- Rises smoothly from 0 at the first edge to 1 at the second; a step where the edges meet. -/
def smoothstep (kernels : Kernels) (edge0 edge1 x : Float) : Except Fault Float := do
  if edge1 == edge0 then return truth (edge0 ≤ x)
  else
    let t := kernels.clip (← Double.quotient (x - edge0) (edge1 - edge0)) 0 1
    return t * t * (3 - 2 * t)

/-- A function of the values of its arguments, which it has evaluated from left to right. -/
def pointwise (name : String) (count : Nat) (compute : List Float → Except Fault Float) :
    Function where
  name := some name
  arity := some count
  body := fun given => do Action.ofExcept (compute (← Action.evalFrom 0 given))

def ofNumber (name : String) (f : Float → Float) : Function :=
  pointwise name 1 fun
    | [a] => .ok (f a)
    | values => .error (.argumentCount values.length)

def ofTwo (name : String) (f : Float → Float → Float) : Function :=
  pointwise name 2 fun
    | [a, b] => .ok (f a b)
    | values => .error (.argumentCount values.length)

def ofThree (name : String) (f : Float → Float → Float → Except Fault Float) : Function :=
  pointwise name 3 fun
    | [a, b, c] => f a b c
    | values => .error (.argumentCount values.length)

/-- A function of any number of values; of none it is 0. -/
def ofMany (name : String) (f : List Float → Float) : Function where
  name := some name
  arity := none
  body := fun count => do
    match ← Action.evalFrom 0 count with
    | [] => return 0
    | values => return f values

/-- Evaluates the condition and then one of the branches only. -/
def conditional : Function where
  name := some "if"
  arity := some 3
  body := fun count =>
    if count = 3 then do
      let condition ← Action.eval 0
      if condition != 0 then Action.eval 1 else Action.eval 2
    else .fail (.argumentCount count)

def all (kernels : Kernels) : List Function :=
  [ofNumber "sin" kernels.sin, ofNumber "cos" kernels.cos, ofNumber "tan" kernels.tan,
    ofNumber "exp" kernels.exp, ofNumber "log" kernels.log, ofNumber "log10" kernels.log10,
    ofNumber "abs" kernels.abs, ofNumber "floor" kernels.floor, ofNumber "ceil" kernels.ceil,
    ofTwo "pow" kernels.pow, ofTwo "atan2" kernels.atan2,
    ofThree "clamp" (fun x low high => .ok (kernels.clip x low high)),
    ofThree "lerp" (fun a b t => .ok (lerp a b t)), ofThree "smoothstep" (smoothstep kernels),
    ofMany "min" kernels.least, ofMany "max" kernels.greatest, conditional]

/-- The built-in functions, each under its own name. -/
def table (kernels : Kernels) : Functions :=
  .ofList ((all kernels).filterMap (fun f => f.name.map (·, f)))

def constants : List (String × Float) :=
  [("pi", 3.141592653589793), ("e", 2.718281828459045), ("tau", 6.283185307179586)]

/-- Variables that hold the constants; they may be written like others. -/
def «variables» : Variables :=
  constants.foldl (fun vars entry => vars.define entry.1 entry.2 true) .empty

end Formula.Builtin
