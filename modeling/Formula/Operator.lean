namespace Formula

inductive UnaryOp where
  | negate
  | logicalNot
  | bitwiseNot
  | sqrt
deriving Repr, DecidableEq

inductive BinaryOp where
  | multiply
  | divide
  | remainder
  | add
  | subtract
  | shiftLeft
  | shiftRight
  | less
  | lessEqual
  | greater
  | greaterEqual
  | equal
  | notEqual
  | bitwiseAnd
  | bitwiseXor
  | bitwiseOr
  | logicalAnd
  | logicalOr
deriving Repr, DecidableEq

/-- Assignment stands apart: its left operand is a cell to write and not a value. -/
inductive Operator where
  | unary (op : UnaryOp)
  | binary (op : BinaryOp)
  | assign
deriving Repr, DecidableEq

namespace UnaryOp

def all : List UnaryOp := [negate, logicalNot, bitwiseNot, sqrt]

def kind : UnaryOp → String
  | negate => "negate"
  | logicalNot => "logical_not"
  | bitwiseNot => "bitwise_not"
  | sqrt => "sqrt"

/-- Negation has a spelling of its own in tokens, since a minus sign in a text may stand for
either operator. -/
def lexemeChars : UnaryOp → List Char
  | negate => ['-', 'u']
  | logicalNot => ['!']
  | bitwiseNot => ['~']
  | sqrt => ['√']

end UnaryOp

namespace BinaryOp

def all : List BinaryOp :=
  [multiply, divide, remainder, add, subtract, shiftLeft, shiftRight, less, lessEqual, greater,
    greaterEqual, equal, notEqual, bitwiseAnd, bitwiseXor, bitwiseOr, logicalAnd, logicalOr]

def kind : BinaryOp → String
  | multiply => "multiply"
  | divide => "divide"
  | remainder => "remainder"
  | add => "add"
  | subtract => "subtract"
  | shiftLeft => "shift_left"
  | shiftRight => "shift_right"
  | less => "less"
  | lessEqual => "less_equal"
  | greater => "greater"
  | greaterEqual => "greater_equal"
  | equal => "equal"
  | notEqual => "not_equal"
  | bitwiseAnd => "bitwise_and"
  | bitwiseXor => "bitwise_xor"
  | bitwiseOr => "bitwise_or"
  | logicalAnd => "logical_and"
  | logicalOr => "logical_or"

def lexemeChars : BinaryOp → List Char
  | multiply => ['*']
  | divide => ['/']
  | remainder => ['%']
  | add => ['+']
  | subtract => ['-']
  | shiftLeft => ['<', '<']
  | shiftRight => ['>', '>']
  | less => ['<']
  | lessEqual => ['<', '=']
  | greater => ['>']
  | greaterEqual => ['>', '=']
  | equal => ['=', '=']
  | notEqual => ['!', '=']
  | bitwiseAnd => ['&']
  | bitwiseXor => ['^']
  | bitwiseOr => ['|']
  | logicalAnd => ['&', '&']
  | logicalOr => ['|', '|']

def precedence : BinaryOp → Nat
  | multiply | divide | remainder => 2
  | add | subtract => 3
  | shiftLeft | shiftRight => 4
  | less | lessEqual | greater | greaterEqual => 5
  | equal | notEqual => 6
  | bitwiseAnd => 7
  | bitwiseXor => 8
  | bitwiseOr => 9
  | logicalAnd => 10
  | logicalOr => 11

end BinaryOp

namespace Operator

/-- The whole table, the tightest operators first. -/
def all : List Operator :=
  UnaryOp.all.map unary ++ BinaryOp.all.map binary ++ [assign]

def kind : Operator → String
  | unary op => op.kind
  | binary op => op.kind
  | assign => "assign"

def lexemeChars : Operator → List Char
  | unary op => op.lexemeChars
  | binary op => op.lexemeChars
  | assign => ['=']

def lexeme (op : Operator) : String :=
  String.ofList op.lexemeChars

def isUnary : Operator → Bool
  | unary _ => true
  | _ => false

def arity (op : Operator) : Nat :=
  if op.isUnary then 1 else 2

/-- The binding level; 1 binds tightest. -/
def precedence : Operator → Nat
  | unary _ => 1
  | binary op => op.precedence
  | assign => 12

def isRightAssociative : Operator → Bool
  | unary _ => true
  | binary _ => false
  | assign => true

/-- Whether the operator on the stack takes its operands before the incoming one is pushed. -/
def yieldsTo (incoming stacked : Operator) : Bool :=
  stacked.precedence < incoming.precedence ||
    (stacked.precedence == incoming.precedence && !incoming.isRightAssociative)

def ofLexeme? (text : String) : Option Operator :=
  all.find? (fun op => op.lexeme == text)

def ofKind? (kind : String) : Option Operator :=
  all.find? (fun op => op.kind == kind)

theorem mem_all (op : Operator) : op ∈ all := by
  cases op with
  | unary op => cases op <;> decide
  | binary op => cases op <;> decide
  | assign => decide

theorem lexemeChars_ne_nil (op : Operator) : op.lexemeChars ≠ [] := by
  cases op with
  | unary op => cases op <;> simp [lexemeChars, UnaryOp.lexemeChars]
  | binary op => cases op <;> simp [lexemeChars, BinaryOp.lexemeChars]
  | assign => simp [lexemeChars]

end Operator

section Longest

variable {α : Type} (spelling : α → List Char)

/-- Sorts by length, the longest spelling first; equally long ones keep their order. -/
def longestFirst (items : List α) : List α :=
  items.mergeSort (fun a b => (spelling b).length ≤ (spelling a).length)

/-- The first candidate whose spelling stands at the front of the text. -/
def firstMatch? (candidates : List α) (text : List Char) : Option α :=
  candidates.find? (fun item => (spelling item).isPrefixOf text)

end Longest

/-- The first of the lexemes that the text has at a position, which may be its end. -/
def lexemeAt? (candidates : List String) (text : String) (position : Nat) : Option String :=
  if position ≤ text.toList.length then
    firstMatch? String.toList candidates (text.toList.drop position)
  else none

/-- All lexemes of the operator table, the longest first. -/
def operatorLexemes : List String :=
  longestFirst String.toList (Operator.all.map Operator.lexeme)

end Formula
