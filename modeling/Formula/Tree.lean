import Formula.Double.Text
import Formula.Function
import Formula.Operator
import Formula.Variables

namespace Formula

/-- A formula as a tree. Cells are referred to by identity, so that trees may share them. The left
operand of an assignment is a cell and nothing else. -/
inductive Tree where
  | const (value : Float)
  | var (cell : Cell)
  | unary (op : UnaryOp) (operand : Tree)
  | binary (op : BinaryOp) (left right : Tree)
  | assign (target : Cell) (value : Tree)
  | call (function : Function) (args : List Tree)

/-- The place of a node in a tree: the positions of children on the way to it, the last first. -/
abbrev Path := List Nat

namespace Cell

def shown (values : Values) (cell : Cell) : String :=
  let value := Double.text (values.read cell)
  match cell.name with
  | some name => "Variable(" ++ name ++ "=" ++ value ++ ")"
  | none => "Variable(" ++ value ++ ")"

end Cell

namespace Tree

def children : Tree → List Tree
  | const _ => []
  | var _ => []
  | unary _ operand => [operand]
  | binary _ left right => [left, right]
  | assign target value => [var target, value]
  | call _ args => args

mutual

/-- The tree as text, with the values that the cells have now. -/
def shown (values : Values) : Tree → String
  | const value => "Constant(" ++ Double.text value ++ ")"
  | var cell => cell.shown values
  | unary op operand => "Unary(" ++ op.kind ++ ", " ++ operand.shown values ++ ")"
  | binary op left right =>
    "Binary(" ++ op.kind ++ ", " ++ left.shown values ++ ", " ++ right.shown values ++ ")"
  | assign target value =>
    "Binary(assign, " ++ target.shown values ++ ", " ++ value.shown values ++ ")"
  | call function args =>
    "Call(" ++ function.callName ++ ", [" ++ String.intercalate ", " (shownAll values args) ++ "])"

def shownAll (values : Values) : List Tree → List String
  | [] => []
  | tree :: rest => tree.shown values :: shownAll values rest

end

/-- A node as text, without its children. -/
def label (values : Values) : Tree → String
  | const value => "Constant(" ++ Double.text value ++ ")"
  | var cell => cell.shown values
  | unary op _ => "Unary " ++ op.kind
  | binary op _ _ => "Binary " ++ op.kind
  | assign _ _ => "Binary assign"
  | call function args => "Call " ++ function.callName ++ "/" ++ toString args.length

mutual

/-- The number of nodes. -/
def size : Tree → Nat
  | const _ => 1
  | var _ => 1
  | unary _ operand => operand.size + 1
  | binary _ left right => left.size + right.size + 1
  | assign _ value => value.size + 2
  | call _ args => sizeAll args + 1

def sizeAll : List Tree → Nat
  | [] => 0
  | tree :: rest => tree.size + sizeAll rest

end

theorem sizeAll_append (first second : List Tree) :
    sizeAll (first ++ second) = sizeAll first + sizeAll second := by
  induction first with
  | nil => simp [sizeAll]
  | cons tree rest ih => simp [sizeAll, ih, Nat.add_assoc]

theorem sizeAll_children_lt (tree : Tree) : sizeAll tree.children < tree.size := by
  cases tree <;> simp [children, size, sizeAll]
  omega

/-- The nodes of the trees on a stack, each before its children, which go on the stack in front of
what is left. -/
def walkStack : List Tree → List Tree
  | [] => []
  | tree :: rest => tree :: walkStack (tree.children ++ rest)
termination_by stack => sizeAll stack
decreasing_by
  have := sizeAll_children_lt tree
  rw [sizeAll_append, sizeAll]
  omega

/-- All nodes, depth first, each before its children and these from left to right. -/
def walk (tree : Tree) : List Tree :=
  walkStack [tree]

/-- The names of the cells in a tree, ascending, each once. -/
def variableNames (tree : Tree) : List String :=
  let names := tree.walk.filterMap (fun
    | var cell => cell.name
    | _ => none)
  names.eraseDups.mergeSort (fun a b => decide (a ≤ b))

mutual

/-- The places of the calls in a tree whose root is at `path`, in the order of the walk. -/
def sites (path : Path) : Tree → List Path
  | const _ => []
  | var _ => []
  | unary _ operand => operand.sites (0 :: path)
  | binary _ left right => left.sites (0 :: path) ++ right.sites (1 :: path)
  | assign _ value => value.sites (1 :: path)
  | call _ args => path :: sitesFrom path 0 args

def sitesFrom (path : Path) (index : Nat) : List Tree → List Path
  | [] => []
  | tree :: rest => tree.sites (index :: path) ++ sitesFrom path (index + 1) rest

end

end Tree

end Formula
