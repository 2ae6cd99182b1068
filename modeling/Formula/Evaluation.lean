import Formula.Operator.Meaning
import Formula.Tree

namespace Formula

/-- What a call keeps from one evaluation to the next. -/
abbrev Environment := Table String Float

/-- The environments of the calls in a tree; one never written is empty. -/
abbrev Memory := Table Path Environment

namespace Memory

def environment (memory : Memory) (site : Path) : Environment :=
  (memory.find? site).getD .empty

def write (memory : Memory) (site : Path) (key : String) (value : Float) : Memory :=
  memory.insert site ((memory.environment site).insert key value)

end Memory

/-- What evaluation reads and writes. -/
structure Store where
  values : Values
  memory : Memory

/-- Evaluation of something over a store. What it has written before a fault stays written. -/
abbrev Eval := EStateM Fault Store

namespace Eval

def read (cell : Cell) : Eval Float := do
  return (← get).values.read cell

def write (cell : Cell) (value : Float) : Eval Unit :=
  modify (fun store => { store with values := store.values.write cell value })

def fetch (site : Path) (key : String) : Eval (Option Float) := do
  return ((← get).memory.environment site).find? key

def keep (site : Path) (key : String) (value : Float) : Eval Unit :=
  modify (fun store => { store with memory := store.memory.write site key value })

def fail {α : Type} (fault : Fault) : Eval α :=
  throw fault

def ofExcept {α : Type} : Except Fault α → Eval α
  | .ok result => return result
  | .error fault => fail fault

/-- What an evaluation comes to. -/
def outcome {α : Type} : EStateM.Result Fault Store α → Except Fault α
  | .ok result _ => .ok result
  | .error fault _ => .error fault

/-- The store that an evaluation leaves behind, whether it fails or not. -/
def behind {α : Type} : EStateM.Result Fault Store α → Store
  | .ok _ later => later
  | .error _ left => left

end Eval

/-- Runs an action at a call: `args` evaluates its arguments. -/
def Action.run {α : Type} (args : List (Eval Float)) (site : Path) : Action α → Eval α
  | .done result => return result
  | .argument index next =>
    match args[index]? with
    | some arg => do
      let value ← arg
      (next value).run args site
    | none => Eval.fail (.missingArgument index)
  | .fetch key next => do
    let value ← Eval.fetch site key
    (next value).run args site
  | .keep key value next => do
    Eval.keep site key value
    next.run args site
  | .fail fault => Eval.fail fault

namespace Tree

mutual

/-- The value of the tree whose root is at `path`. Operands are evaluated from left to right, but a
division begins with its divisor. -/
def evalAt (path : Path) : Tree → Eval Float
  | const value => return value
  | var cell => Eval.read cell
  | unary op operand => do
    let x ← operand.evalAt (0 :: path)
    Eval.ofExcept (op.apply x)
  | binary op left right =>
    if op.isDivision then do
      let divisor ← right.evalAt (1 :: path)
      if divisor == 0 then return 0
      else
        let dividend ← left.evalAt (0 :: path)
        Eval.ofExcept (op.apply dividend divisor)
    else do
      let a ← left.evalAt (0 :: path)
      let b ← right.evalAt (1 :: path)
      Eval.ofExcept (op.apply a b)
  | assign target value => do
    let x ← value.evalAt (1 :: path)
    Eval.write target x
    Eval.read target
  | call function args => (function.body args.length).run (argsFrom path 0 args) path

/-- The evaluations of arguments, of which the first has position `index`. -/
def argsFrom (path : Path) (index : Nat) : List Tree → List (Eval Float)
  | [] => []
  | tree :: rest => tree.evalAt (index :: path) :: argsFrom path (index + 1) rest

end

theorem length_argsFrom (path : Path) (index : Nat) (args : List Tree) :
    (argsFrom path index args).length = args.length := by
  induction args generalizing index with
  | nil => rfl
  | cons tree rest ih => simp [argsFrom, ih]

def eval (tree : Tree) : Eval Float :=
  tree.evalAt []

/-- Evaluates a tree some times over and lists the values. -/
def evalTimes (tree : Tree) : Nat → Eval (List Float)
  | 0 => return []
  | times + 1 => do
    let value ← tree.eval
    return value :: (← tree.evalTimes times)

/-- The environments of all calls in the order of the walk. -/
def environments (memory : Memory) (tree : Tree) : List Environment :=
  (tree.sites []).map memory.environment

end Tree

end Formula
