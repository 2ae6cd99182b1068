import Formula.Proofs.CharacterClasses
import Formula.Proofs.OperatorSpelling
import Formula.Token.Lexer
import Mathlib.Data.List.Chain
import Mathlib.Data.List.TakeWhile

namespace Formula

namespace Lexer

/-- Digits with at most one point, which does not stand in front. -/
inductive DigitsWithPoint (isDigit : Char → Bool) : List Char → Prop
  | whole {digits : List Char} : digits ≠ [] → (∀ c ∈ digits, isDigit c = true) →
      DigitsWithPoint isDigit digits
  | fraction {digits more : List Char} : digits ≠ [] → (∀ c ∈ digits, isDigit c = true) →
      (∀ c ∈ more, isDigit c = true) → DigitsWithPoint isDigit (digits ++ '.' :: more)

def IsNumber (s : List Char) : Prop :=
  DigitsWithPoint Text.isDigit s

def IsIdentifier : List Char → Prop
  | [] => False
  | c :: rest => Text.isLetter c = true ∧ ∀ d ∈ rest, isWordChar d = true

end Lexer

/-- Negation stands only where a value is expected and infix operators only where none is; the
other prefix operators may stand behind a value, too. -/
def Operator.FitsWhere (expected : Bool) : Operator → Prop
  | .unary .negate => expected = true
  | .unary _ => True
  | .binary _ | .assign => expected = false

/-- What a class of items splits off a list. -/
theorem span_append {α : Type} {p : α → Bool} {s : List α} (after : List α)
    (hs : ∀ c ∈ s, p c = true) (ha : ∀ c ∈ after.head?, p c = false) :
    (s ++ after).takeWhile p = s ∧ (s ++ after).dropWhile p = after := by
  rw [List.takeWhile_append_of_pos hs, List.dropWhile_append_of_pos hs]
  cases after with
  | nil => simp
  | cons c after => simp [ha c rfl]

namespace Lexer.DigitsWithPoint

variable {isDigit : Char → Bool} {s : List Char}

theorem head (h : DigitsWithPoint isDigit s) : ∃ c rest, s = c :: rest ∧ isDigit c = true := by
  cases h with
  | whole hne hall =>
    obtain ⟨c, rest, rfl⟩ := List.exists_cons_of_ne_nil hne
    exact ⟨c, rest, rfl, hall c (by simp)⟩
  | @fraction digits more hne hall _ =>
    obtain ⟨c, rest, rfl⟩ := List.exists_cons_of_ne_nil hne
    exact ⟨c, rest ++ '.' :: more, rfl, hall c (by simp)⟩

theorem digit_or_point (h : DigitsWithPoint isDigit s) : ∀ c ∈ s, isDigit c = true ∨ c = '.' := by
  intro c hc
  cases h with
  | whole _ hall => exact .inl (hall c hc)
  | fraction _ hall hmore =>
    rcases List.mem_append.mp hc with hc | hc
    · exact .inl (hall c hc)
    · exact (List.mem_cons.mp hc).symm.imp_left (hmore c)

theorem map {isOther : Char → Bool} {f : Char → Char} (h : DigitsWithPoint isDigit s)
    (hf : ∀ c, isDigit c = true → isOther (f c) = true) (hpoint : f '.' = '.') :
    DigitsWithPoint isOther (s.map f) := by
  have mapped : ∀ {t : List Char}, (∀ c ∈ t, isDigit c = true) →
      ∀ c ∈ t.map f, isOther c = true := by
    intro t ht c hc
    obtain ⟨d, hd, rfl⟩ := List.mem_map.mp hc
    exact hf d (ht d hd)
  cases h with
  | whole hne hall => exact .whole (by simpa using hne) (mapped hall)
  | fraction hne hall hmore =>
    rw [List.map_append, List.map_cons, hpoint]
    exact .fraction (by simpa using hne) (mapped hall) (mapped hmore)

end Lexer.DigitsWithPoint

theorem Operator.fitsWhere_iff {expected : Bool} {op : Operator} (h : op ≠ .unary .negate) :
    op.FitsWhere expected ↔ (expected && !op.isUnary) = false := by
  cases op with
  | unary kind => cases kind <;> simp_all [FitsWhere, isUnary]
  | binary kind => simp [FitsWhere, isUnary]
  | assign => simp [FitsWhere, isUnary]

namespace Token

/-- The token of an operator. -/
def ofOperator (op : Operator) : Token := ⟨.operator, op.lexeme⟩

/-- A token as it stands in a text, where negation is a minus sign. -/
def written (t : Token) : List Char :=
  if t = ofOperator (.unary .negate) then ['-'] else t.text.toList

/-- Whether a value is expected behind the token. -/
def expectsValue (t : Token) : Bool :=
  match t.kind with
  | .opening | .comma | .operator => true
  | .number | .identifier | .closing => false

def IsLexical (t : Token) : Prop :=
  match t.kind with
  | .number => Lexer.IsNumber t.text.toList
  | .identifier => Lexer.IsIdentifier t.text.toList
  | .operator => ∃ op, t = ofOperator op
  | .opening => t = opening
  | .closing => t = closing
  | .comma => t = comma

/-- Whether the token may stand where a value is expected, or where none is. -/
def FitsWhere (expected : Bool) (t : Token) : Prop :=
  match t.kind with
  | .number | .identifier => expected = true
  | .operator => ∀ op, t = ofOperator op → op.FitsWhere expected
  | .opening | .closing | .comma => True

end Token

/-- Each token fits behind the one before it, and the first one where a value is expected or not. -/
def AdjoinedFrom (expected : Bool) (tokens : List Token) : Prop :=
  (∀ t ∈ tokens.head?, t.FitsWhere expected) ∧
    tokens.IsChain (fun before t => t.FitsWhere before.expectsValue)

def WellAdjoined (tokens : List Token) : Prop :=
  AdjoinedFrom true tokens

/-- The text holds the written tokens in order, with blanks before, between and behind them. -/
inductive Renders : List Token → List Char → Prop
  | nil : Renders [] []
  | blank {tokens : List Token} {c : Char} {text : List Char} : Text.isBlank c = true →
      Renders tokens text → Renders tokens (c :: text)
  | token (t : Token) {tokens : List Token} {text : List Char} : Renders tokens text →
      Renders (t :: tokens) (t.written ++ text)

theorem adjoinedFrom_cons {expected : Bool} {t : Token} {tokens : List Token} :
    AdjoinedFrom expected (t :: tokens) ↔
      t.FitsWhere expected ∧ AdjoinedFrom t.expectsValue tokens := by
  simp [AdjoinedFrom, List.isChain_cons]

theorem adjoinedFrom_nil (expected : Bool) : AdjoinedFrom expected [] := by
  simp [AdjoinedFrom]

/-- Whether a value is expected behind tokens. -/
def expectsBehind (tokens : List Token) : Bool :=
  (tokens.getLast?.map Token.expectsValue).getD true

theorem wellAdjoined_append {before after : List Token} {t : Token}
    (h : WellAdjoined (before ++ t :: after)) :
    WellAdjoined before ∧ t.FitsWhere (expectsBehind before) := by
  obtain ⟨hhead, hchain⟩ := h
  obtain ⟨hbefore, _, hbetween⟩ := List.isChain_append.mp hchain
  cases before using List.reverseRecOn with
  | nil => exact ⟨adjoinedFrom_nil true, hhead t rfl⟩
  | append_singleton before last =>
    refine ⟨⟨fun u hu => hhead u ?_, hbefore⟩, ?_⟩
    · rw [List.head?_append, Option.mem_def.mp hu]
      rfl
    · simpa [expectsBehind] using hbetween last (by simp) t (by simp)

namespace Token

theorem ofOperator_injective {a b : Operator} (h : ofOperator a = ofOperator b) : a = b :=
  Operator.lexeme_injective (congrArg Token.text h)

theorem ofOperator_fitsWhere {expected : Bool} {op : Operator} :
    (ofOperator op).FitsWhere expected ↔ op.FitsWhere expected := by
  constructor
  · exact fun h => h op rfl
  · intro h other same
    exact ofOperator_injective same ▸ h

theorem written_ofOperator {op : Operator} (h : op ≠ .unary .negate) :
    (ofOperator op).written = op.lexemeChars := by
  have other : ofOperator op ≠ ofOperator (.unary .negate) :=
    fun same => h (ofOperator_injective same)
  rw [written, if_neg other]
  exact String.toList_ofList

theorem written_of_kind_ne {t : Token} (h : t.kind ≠ .operator) : t.written = t.text.toList := by
  have other : t ≠ ofOperator (.unary .negate) := fun same => h (same ▸ rfl)
  simp [written, other]

end Token

end Formula
