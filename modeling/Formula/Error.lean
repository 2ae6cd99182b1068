import Formula.Token.Lexer
import Formula.Tree

namespace Formula

/-- A step on the parser's stacks that their invariants rule out. -/
inductive Breach where
  | markerIsNoOperator
  | markerIsNoCall
  | markerIsNoGroup
  | resultIsBoundary
  | resultIsMissing
deriving Repr, DecidableEq

/-- Why a sequence of tokens is no formula. -/
inductive ParseError where
  | unmatched
  | unclosed
  | callExpected (key got : String)
  | wrongCount (function : Function) (count : Nat)
  | notAssignable (target : Tree)
  | unknownOperator (text : String)
  | missingOperand (op : Operator)
  | badNumber (text : String)
  | breach (breach : Breach)

inductive ErrorKind where
  | parenthesisMismatch
  | badCall
  | badAssignment
  | badOperator
  | operandMissing
  | unexpectedNumber
  | unexpectedIdentifier
  | badNumber
  | breach
  | fault
deriving Repr, DecidableEq

namespace LexError

def kind : LexError → ErrorKind
  | unexpectedNumber _ => .unexpectedNumber
  | unexpectedIdentifier _ => .unexpectedIdentifier
  | unknownOperator _ => .badOperator
  | missingOperand _ => .operandMissing

def message : LexError → String
  | unexpectedNumber rest => "Unexpected number at " ++ Text.quoted (String.ofList rest)
  | unexpectedIdentifier rest => "Unexpected identifier at " ++ Text.quoted (String.ofList rest)
  | unknownOperator rest => "Unknown operator at " ++ Text.quoted (String.ofList rest)
  | missingOperand op => "Missing operand before " ++ Text.quoted op.lexeme

end LexError

namespace ParseError

def kind : ParseError → ErrorKind
  | unmatched => .parenthesisMismatch
  | unclosed => .parenthesisMismatch
  | callExpected .. => .badCall
  | wrongCount .. => .badCall
  | notAssignable _ => .badAssignment
  | unknownOperator _ => .badOperator
  | missingOperand _ => .operandMissing
  | badNumber _ => .badNumber
  | breach _ => .breach

/-- Trees in messages are shown with the values that the cells have now. -/
def message (values : Values) : ParseError → String
  | unmatched => "Unmatched ')' or ','"
  | unclosed => "Unclosed '('"
  | callExpected key got => "Expected '(' after " ++ key ++ ", got " ++ Text.quoted got
  | wrongCount function count =>
    function.nameText ++ " expects " ++ function.arityText ++ " args, got " ++ toString count
  | notAssignable target => "Cannot assign to " ++ target.shown values
  | unknownOperator text => "Unknown operator: " ++ text
  | missingOperand op => "Missing operand for " ++ Text.quoted op.lexeme
  | badNumber text => "could not convert string to float: " ++ Text.quoted text
  | breach _ => "Broken parser state"

end ParseError

end Formula
