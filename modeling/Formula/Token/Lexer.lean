import Formula.Operator
import Formula.Token
import Formula.Text.Blank
import Formula.Text.Digit
import Formula.Text.Letter
import Formula.Text.Numeral

namespace Formula

/-- Why a text is no sequence of tokens; `rest` is the text from the failing position on. -/
inductive LexError where
  | unexpectedNumber (rest : List Char)
  | unexpectedIdentifier (rest : List Char)
  | unknownOperator (rest : List Char)
  | missingOperand (op : Operator)
deriving Repr, DecidableEq

namespace Lexer

/-- What may follow the first letter of an identifier. -/
def isWordChar (c : Char) : Bool :=
  Text.isLetter c || Text.isDigit c || Text.isNumeral c || c == '_'

/-- Splits off the longest number: digits with at most one point after the first of them. -/
def splitNumber (s : List Char) : List Char × List Char :=
  let digits := s.takeWhile Text.isDigit
  match s.dropWhile Text.isDigit with
  | '.' :: rest => (digits ++ '.' :: rest.takeWhile Text.isDigit, rest.dropWhile Text.isDigit)
  | rest => (digits, rest)

/-- A minus sign negates where a value is expected and subtracts elsewhere. -/
def minus (expectsValue : Bool) : Operator :=
  if expectsValue then .unary .negate else .binary .subtract

/-- Punctuation, and whether a value is expected behind it. -/
def punctuation? : Char → Option (Token × Bool)
  | '(' => some (Token.opening, true)
  | ')' => some (Token.closing, false)
  | ',' => some (Token.comma, true)
  | _ => none

/-- The longest operator at the front of a text; only a unary one may stand where a value is
expected. -/
def operatorToken (candidates : List Operator) (expectsValue : Bool) (s : List Char) :
    Except LexError (Token × Bool × List Char) :=
  match firstMatch? Operator.lexemeChars candidates s with
  | none => .error (.unknownOperator s)
  | some op =>
    if expectsValue && !op.isUnary then .error (.missingOperand op)
    else .ok (⟨.operator, op.lexeme⟩, true, s.drop op.lexemeChars.length)

/-- The token at the front of a text that does not start with a blank, whether a value is expected
behind it, and the text behind it. -/
def nextToken (candidates : List Operator) (expectsValue : Bool) (c : Char) (rest : List Char) :
    Except LexError (Token × Bool × List Char) :=
  if Text.isDigit c then
    if expectsValue then
      let number := splitNumber (c :: rest)
      .ok (⟨.number, String.ofList number.1⟩, false, number.2)
    else .error (.unexpectedNumber (c :: rest))
  else if Text.isLetter c then
    if expectsValue then
      .ok (⟨.identifier, String.ofList (c :: rest.takeWhile isWordChar)⟩, false,
        rest.dropWhile isWordChar)
    else .error (.unexpectedIdentifier (c :: rest))
  else match punctuation? c with
    | some (token, expectsNext) => .ok (token, expectsNext, rest)
    | none =>
      if c = '-' then .ok (⟨.operator, (minus expectsValue).lexeme⟩, true, rest)
      else operatorToken candidates expectsValue (c :: rest)

theorem splitNumber_shorter {c : Char} (rest : List Char) (h : Text.isDigit c = true) :
    (splitNumber (c :: rest)).2.length < (c :: rest).length := by
  have behind := (List.dropWhile_sublist (l := rest) Text.isDigit).length_le
  simp only [splitNumber, List.dropWhile_cons, h, ↓reduceIte, List.length_cons]
  split
  next after hafter =>
    have := (List.dropWhile_sublist (l := after) Text.isDigit).length_le
    rw [hafter, List.length_cons] at behind
    simp only
    omega
  next =>
    simp only
    omega

theorem operatorToken_shorter {candidates : List Operator} {expectsValue expectsNext : Bool}
    {c : Char} {rest after : List Char} {token : Token}
    (h : operatorToken candidates expectsValue (c :: rest) = .ok (token, expectsNext, after)) :
    after.length < (c :: rest).length := by
  unfold operatorToken at h
  split at h
  · cases h
  next op _ =>
    split at h
    · cases h
    · cases h
      have := List.length_pos_iff.mpr op.lexemeChars_ne_nil
      simp only [List.length_cons, List.length_drop]
      omega

/-- Each token takes at least one character, so scanning ends. -/
theorem nextToken_shorter {candidates : List Operator} {expectsValue expectsNext : Bool} {c : Char}
    {rest after : List Char} {token : Token}
    (h : nextToken candidates expectsValue c rest = .ok (token, expectsNext, after)) :
    after.length < (c :: rest).length := by
  unfold nextToken at h
  split at h
  next digit =>
    split at h
    · cases h
      exact splitNumber_shorter rest digit
    · cases h
  · split at h
    · split at h
      · cases h
        have := (List.dropWhile_sublist (l := rest) isWordChar).length_le
        simp only [List.length_cons]
        omega
      · cases h
    · split at h
      · cases h
        simp
      · split at h
        · cases h
          simp
        · exact operatorToken_shorter h

def tokensFrom (candidates : List Operator) (expectsValue : Bool) :
    List Char → Except LexError (List Token)
  | [] => .ok []
  | c :: rest =>
    if Text.isBlank c then tokensFrom candidates expectsValue rest
    else match _h : nextToken candidates expectsValue c rest with
      | .error error => .error error
      | .ok (token, expectsNext, after) =>
        (tokensFrom candidates expectsNext after).map (token :: ·)
termination_by s => s.length
decreasing_by
  · simp
  · exact nextToken_shorter ‹_›

end Lexer

/-- The tokens of a text, with operators from a part of the operator table. -/
def tokenizeWith (table : List Operator) (text : String) : Except LexError (List Token) :=
  Lexer.tokensFrom (longestFirst Operator.lexemeChars table) true text.toList

def tokenize (text : String) : Except LexError (List Token) :=
  tokenizeWith Operator.all text

end Formula
