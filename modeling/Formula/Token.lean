import Formula.Text.Quoted

namespace Formula

inductive TokenKind where
  | number
  | identifier
  | operator
  | opening
  | closing
  | comma
deriving Repr, DecidableEq

structure Token where
  kind : TokenKind
  text : String
deriving Repr, DecidableEq

namespace TokenKind

def all : List TokenKind := [number, identifier, operator, opening, closing, comma]

def name : TokenKind → String
  | number => "NUMBER"
  | identifier => "IDENTIFIER"
  | operator => "OPERATOR"
  | opening => "OPEN"
  | closing => "CLOSE"
  | comma => "COMMA"

def ofName? (name : String) : Option TokenKind :=
  all.find? (fun kind => kind.name == name)

end TokenKind

namespace Token

def opening : Token := ⟨.opening, "("⟩

def closing : Token := ⟨.closing, ")"⟩

def comma : Token := ⟨.comma, ","⟩

def shown (t : Token) : String :=
  "Token(" ++ t.kind.name ++ ", " ++ Text.quoted t.text ++ ")"

end Token

end Formula
