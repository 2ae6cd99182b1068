import Formula.Double.Reading
import Formula.Proofs.TokenPlaces
import Formula.Tree

namespace Formula

namespace Operator

/-- Whether a left operand with this precedence on top has to stand in parentheses. -/
def parenthesizesLeft (op : Operator) (level : Nat) : Bool :=
  op.precedence < level || (op.precedence == level && op.isRightAssociative)

/-- Whether a right operand, or the operand of a prefix operator, has to stand in parentheses. -/
def parenthesizesRight (op : Operator) (level : Nat) : Bool :=
  op.precedence < level || (op.precedence == level && !op.isRightAssociative)

end Operator

/-- Expressions without the parentheses that only keep operators together; a group holds entries of
its own. -/
inductive Expr where
  | number (text : String)
  | name (text : String)
  | unary (op : UnaryOp) (operand : Expr)
  | binary (op : BinaryOp) (left right : Expr)
  | assign (target : String) (value : Expr)
  | call (key : String) (args : List Expr)
  | group (entries : List Expr)

def Token.parenthesized (needed : Bool) (tokens : List Token) : List Token :=
  if needed then Token.opening :: (tokens ++ [Token.closing]) else tokens

namespace Expr

/-- The precedence of the operator on top, 0 if there is none. -/
def level : Expr → Nat
  | unary op _ => (Operator.unary op).precedence
  | binary op _ _ => (Operator.binary op).precedence
  | assign _ _ => Operator.assign.precedence
  | _ => 0

mutual

def tokens : Expr → List Token
  | number text => [⟨.number, text⟩]
  | name text => [⟨.identifier, text⟩]
  | unary op operand =>
    .ofOperator (.unary op) ::
      Token.parenthesized ((Operator.unary op).parenthesizesRight operand.level) operand.tokens
  | binary op left right =>
    Token.parenthesized ((Operator.binary op).parenthesizesLeft left.level) left.tokens ++
      .ofOperator (.binary op) ::
        Token.parenthesized ((Operator.binary op).parenthesizesRight right.level) right.tokens
  | assign target value =>
    ⟨.identifier, target⟩ :: .ofOperator .assign ::
      Token.parenthesized (Operator.assign.parenthesizesRight value.level) value.tokens
  | call key args => ⟨.identifier, key⟩ :: .opening :: (tokensAll args ++ [.closing])
  | group entries => .opening :: (tokensAll entries ++ [.closing])

/-- The tokens of entries, with commas between them. -/
def tokensAll : List Expr → List Token
  | [] => []
  | [entry] => entry.tokens
  | entry :: next :: rest => entry.tokens ++ .comma :: tokensAll (next :: rest)

end

def text (e : Expr) : String :=
  String.ofList (e.tokens.flatMap Token.written)

mutual

/-- Numbers and names are spelled as such, names are no functions, and a call has as many arguments
as its function takes. A group has at least two entries. -/
def Valid (functions : Functions) : Expr → Prop
  | number text => Lexer.IsNumber text.toList
  | name text => Lexer.IsIdentifier text.toList ∧ functions.find? text = none
  | unary _ operand => operand.Valid functions
  | binary _ left right => left.Valid functions ∧ right.Valid functions
  | assign target value =>
    (Lexer.IsIdentifier target.toList ∧ functions.find? target = none) ∧ value.Valid functions
  | call key args =>
    (Lexer.IsIdentifier key.toList ∧ ∃ f, functions.find? key = some f ∧ f.takes args.length) ∧
      AllValid functions args
  | group entries => 2 ≤ entries.length ∧ AllValid functions entries

def AllValid (functions : Functions) : List Expr → Prop
  | [] => True
  | entry :: rest => entry.Valid functions ∧ AllValid functions rest

end

mutual

/-- The tree of an expression over the cells that its names stand for. -/
def tree? (functions : Functions) (cells : Table String Cell) : Expr → Option Tree
  | number text => (Double.read? text).map .const
  | name text => (cells.find? text).map .var
  | unary op operand => (operand.tree? functions cells).map (.unary op)
  | binary op left right => do
    return .binary op (← left.tree? functions cells) (← right.tree? functions cells)
  | assign target value => do
    return .assign (← cells.find? target) (← value.tree? functions cells)
  | call key args => do return .call (← functions.find? key) (← trees? functions cells args)
  | group entries => (trees? functions cells entries).map (.call Function.last)

def trees? (functions : Functions) (cells : Table String Cell) : List Expr → Option (List Tree)
  | [] => some []
  | entry :: rest => do return (← entry.tree? functions cells) :: (← trees? functions cells rest)

end

end Expr

end Formula
