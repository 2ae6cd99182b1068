import Formula.Proofs.NestingSteps
import Formula.Proofs.NumberReading
import Formula.Proofs.OperandCounts
import Formula.Proofs.OperatorSpelling
import Mathlib.Data.List.Forall2

namespace Formula.Parser

/-- The values and the infix operators that a group has so far, a group inside as one value. -/
structure Tally where
  values : Nat
  infixes : Nat

/-- The tally of the innermost open group and those of the groups around it, and last that of all
that stands around the outermost group. -/
structure Tallies where
  current : Tally
  outer : List Tally

namespace Tallies

def addValue (s : Tallies) : Tallies :=
  { s with current := { s.current with values := s.current.values + 1 } }

def addInfix (s : Tallies) : Tallies :=
  { s with current := { s.current with infixes := s.current.infixes + 1 } }

def read (functions : Functions) (s : Tallies) (t : Token) : Tallies :=
  match t.kind with
  | .number => s.addValue
  | .identifier => if functions.contains t.text then s else s.addValue
  | .operator => if (Operator.ofLexeme? t.text).all Operator.isUnary then s else s.addInfix
  | .opening => ⟨⟨0, 0⟩, s.current :: s.outer⟩
  | .closing =>
    match s.outer with
    | [] => s
    | next :: outer => (Tallies.mk next outer).addValue
  | .comma => s

/-- The tallies behind tokens that stand in a group of their own. -/
def behind (functions : Functions) (tokens : List Token) : Tallies :=
  tokens.foldl (read functions) ⟨⟨0, 0⟩, [⟨0, 0⟩]⟩

theorem behind_snoc (functions : Functions) (tokens : List Token) (t : Token) :
    behind functions (tokens ++ [t]) = (behind functions tokens).read functions t := by
  simp [behind]

end Tallies

/-- Each value and each waiting infix operator is accounted for, and the operators that wait have
their trees apart from the last one. -/
def Level.Fits (l : Level) (tally : Tally) : Prop :=
  l.trees.length + tally.infixes = tally.values + Parser.infixes l.operators ∧
    Parser.infixes l.operators ≤ l.trees.length

/-- What counting says about a nesting behind tokens: all levels fit their tallies, behind a value
there is a tree for each operator, and operators wait behind an operator and neither behind an
opening parenthesis nor behind a comma. -/
structure Counted (functions : Functions) (tokens : List Token) (n : Nesting) : Prop where
  levels : List.Forall₂ Level.Fits (n.current :: n.outer)
    ((Tallies.behind functions tokens).current :: (Tallies.behind functions tokens).outer)
  ready : n.awaited = none → expectsBehind tokens = false →
    infixes n.current.operators + 1 ≤ n.current.trees.length
  waiting : ∀ t ∈ tokens.getLast?, t.kind = .operator → n.current.operators ≠ []
  idle : (∀ t ∈ tokens.getLast?, t.kind = .opening ∨ t.kind = .comma) → n.current.operators = []

/-- An operator's token is the one with its spelling. -/
theorem eq_ofOperator {t : Token} {op : Operator} (hk : t.kind = .operator)
    (hop : Operator.ofLexeme? t.text = some op) : t = .ofOperator op := by
  obtain ⟨kind, text⟩ := t
  cases hk
  rw [Token.ofOperator, Operator.lexeme_of_ofLexeme? hop]

/-- An infix operator stands behind a value. -/
theorem expected_of_not_unary {t : Token} {op : Operator} {expected : Bool}
    (hk : t.kind = .operator) (hfits : t.FitsWhere expected)
    (hop : Operator.ofLexeme? t.text = some op) (hunary : op.isUnary = false) :
    expected = false := by
  rw [eq_ofOperator hk hop] at hfits
  have hplace := Token.ofOperator_fitsWhere.mp hfits
  cases op with
  | unary kind => simp [Operator.isUnary] at hunary
  | binary kind => exact hplace
  | assign => exact hplace

namespace Counted

variable {functions : Functions} {tokens : List Token} {n next : Nesting} {t : Token}

theorem start (functions : Functions) (vars : Variables) :
    Counted functions [] (Nesting.start vars []).openGroup where
  levels := .cons ⟨rfl, Nat.le_refl _⟩ (.cons ⟨rfl, Nat.le_refl _⟩ .nil)
  ready := fun _ h => by simp [expectsBehind] at h
  waiting := by simp
  idle := fun _ => rfl

theorem snoc
    (hlevels : List.Forall₂ Level.Fits (next.current :: next.outer)
      (((Tallies.behind functions tokens).read functions t).current ::
        ((Tallies.behind functions tokens).read functions t).outer))
    (hready : next.awaited = none → t.expectsValue = false →
      infixes next.current.operators + 1 ≤ next.current.trees.length)
    (hwaiting : t.kind = .operator → next.current.operators ≠ [])
    (hidle : t.kind = .opening ∨ t.kind = .comma → next.current.operators = []) :
    Counted functions (tokens ++ [t]) next where
  levels := by
    rw [Tallies.behind_snoc]
    exact hlevels
  ready := by simpa [expectsBehind] using hready
  waiting := by simpa using hwaiting
  idle := by simpa using hidle

/-- A value more on the innermost level. -/
theorem push (h : Counted functions tokens n) {tree : Tree}
    (hread : (Tallies.behind functions tokens).read functions t =
      (Tallies.behind functions tokens).addValue)
    (hkind : t.kind = .number ∨ t.kind = .identifier) (hcurrent : next.current = n.current.push tree)
    (houter : next.outer = n.outer) : Counted functions (tokens ++ [t]) next := by
  obtain ⟨hfits, hrest⟩ := List.forall₂_cons.mp h.levels
  obtain ⟨hcount, hle⟩ := hfits
  refine snoc ?_ ?_ ?_ ?_
  · rw [hread, hcurrent, houter]
    refine .cons ⟨?_, ?_⟩ hrest
    · simp only [Level.push, Tallies.addValue, List.length_cons]
      omega
    · simp only [Level.push, List.length_cons]
      omega
  · intro _ _
    rw [hcurrent]
    simp only [Level.push, List.length_cons]
    omega
  · intro hk
    rcases hkind with hkind | hkind <;> simp [hk] at hkind
  · intro hk
    rcases hkind with hkind | hkind <;> simp [hkind] at hk

theorem accept (h : Counted functions tokens n) (hfits : t.FitsWhere (expectsBehind tokens))
    (hnext : n.accept functions t = .ok next) :
    Counted functions (tokens ++ [t]) next := by
  obtain ⟨⟨hcount, hle⟩, hrest⟩ := List.forall₂_cons.mp h.levels
  cases Nesting.accepts_of_ok hnext with
  | opening hk =>
    have hexpects : t.expectsValue = true := by simp [Token.expectsValue, hk]
    refine snoc ?_ (by simp [hexpects]) (by simp [hk]) (fun _ => rfl)
    simp only [Tallies.read, hk]
    exact .cons ⟨rfl, Nat.le_refl _⟩ h.levels
  | @closing made tree level outer hk hn houter hmade htree =>
    rw [houter] at hrest
    obtain ⟨tally, tallies, ⟨hcount', hle'⟩, hrest', htallies⟩ := List.forall₂_cons_left_iff.mp hrest
    refine snoc ?_ ?_ (by simp [hk]) (by simp [hk])
    · simp only [Tallies.read, hk, htallies]
      refine .cons ⟨?_, ?_⟩ hrest'
      · simp only [Level.push, Tallies.addValue, List.length_cons]
        omega
      · simp only [Level.push, List.length_cons]
        omega
    · intro _ _
      simp only [Level.push, List.length_cons]
      omega
  | @comma made hk hn hopen hmade =>
    have hlength := (reduceAll_length hmade).1
    have hexpects : t.expectsValue = true := by simp [Token.expectsValue, hk]
    refine snoc ?_ (by simp [hexpects]) (by simp [hk]) (fun _ => rfl)
    simp only [Tallies.read, hk]
    refine .cons ⟨?_, Nat.zero_le _⟩ hrest
    have hnone : infixes [] = 0 := rfl
    simp only
    omega
  | number hk hn hvalue => exact h.push (by simp [Tallies.read, hk]) (.inl hk) rfl rfl
  | key hk hn hf =>
    refine snoc ?_ (by simp) (by simp [hk]) (by simp [hk])
    simp only [Tallies.read, hk, Table.contains, hf, Option.isSome_some, ↓reduceIte]
    exact h.levels
  | name hk hn hf =>
    refine h.push ?_ (.inr hk) rfl rfl
    simp [Tallies.read, hk, Table.contains, hf]
  | @operator op level hk hn hop hlevel =>
    have hlength := Level.pushOperator_length hlevel
    have hexpects : t.expectsValue = true := by simp [Token.expectsValue, hk]
    refine snoc ?_ (by simp [hexpects]) (fun _ => Level.pushOperator_waits hlevel) (by simp [hk])
    simp only [Tallies.read, hk, hop, Option.all_some]
    cases hunary : op.isUnary with
    | true =>
      have hnone : infixes [op] = 0 := by simp [infixes, hunary]
      rw [Level.pushOperator_of_isUnary hunary] at hlevel
      cases hlevel
      have hcons := infixes_cons op n.current.operators
      refine .cons ⟨?_, ?_⟩ hrest
      · simp only [↓reduceIte]
        omega
      · simp only
        omega
    | false =>
      have hone : infixes [op] = 1 := by simp [infixes, hunary]
      have hready := h.ready hn (expected_of_not_unary hk hfits hop hunary)
      refine .cons ⟨?_, ?_⟩ hrest
      · simp only [Tallies.addInfix, Bool.false_eq_true, ↓reduceIte]
        omega
      · omega

/-- Counting goes on from one token to the next. -/
theorem acceptAll {vars : Variables} (hadjoined : WellAdjoined tokens)
    (h : (Nesting.start vars []).openGroup.acceptAll functions tokens = .ok n) :
    Counted functions tokens n := by
  induction tokens using List.reverseRecOn generalizing n with
  | nil =>
    cases h
    exact start functions vars
  | append_singleton before t ih =>
    obtain ⟨m, hbefore, ht⟩ := Nesting.acceptAll_snoc_ok h
    obtain ⟨hadjoinedBefore, hfits⟩ := wellAdjoined_append hadjoined
    exact (ih hadjoinedBefore hbefore).accept hfits ht

end Counted

/-- Why a token may be refused behind tokens of a text. An operand is missing only to an operator in
front of a comma or a closing parenthesis, whose group has no more values than infix operators. -/
inductive Failure (functions : Functions) (tokens : List Token) (n : Nesting) (t : Token) :
    ParseError → Prop
  | call {key : String} {f : Function} : n.awaited = some (key, f) → t.kind ≠ .opening →
      Failure functions tokens n t (.callExpected key t.text)
  | unmatched : t.kind = .closing ∨ t.kind = .comma → n.outer = [] →
      Failure functions tokens n t .unmatched
  | count {f : Function} {count : Nat} : f.takes count = false →
      Failure functions tokens n t (.wrongCount f count)
  | assignment {target : Tree} : Failure functions tokens n t (.notAssignable target)
  | missing {u : Token} {op : Operator} : t.kind = .closing ∨ t.kind = .comma →
      tokens.getLast? = some u → u.kind = .operator →
      (Tallies.behind functions tokens).current.values ≤
        (Tallies.behind functions tokens).current.infixes →
      Failure functions tokens n t (.missingOperand op)

/-- Where operators wait behind anything but an operator, they wait behind a value. -/
theorem Counted.behind_value {functions : Functions} {tokens : List Token} {n : Nesting}
    (h : Counted functions tokens n) (hne : n.current.operators ≠ [])
    (hlast : ∀ u ∈ tokens.getLast?, u.kind ≠ .operator) : expectsBehind tokens = false := by
  cases hend : tokens.getLast? with
  | none => exact absurd (h.idle (by simp [hend])) hne
  | some u =>
    have hu := hlast u hend
    cases hexpects : u.expectsValue with
    | false => simp [expectsBehind, hend, hexpects]
    | true =>
      have hidle : u.kind = .opening ∨ u.kind = .comma := by
        cases hkind : u.kind <;> simp [Token.expectsValue, hkind] at hexpects hu ⊢
      exact absurd (h.idle (by simpa [hend] using hidle)) hne

/-- Operators that wait and lack a tree wait behind an operator. -/
theorem Counted.last_of_short {functions : Functions} {tokens : List Token} {n : Nesting}
    (h : Counted functions tokens n) (hn : n.awaited = none) (hne : n.current.operators ≠ [])
    (hlack : n.current.trees.length ≤ infixes n.current.operators) :
    ∃ u, tokens.getLast? = some u ∧ u.kind = .operator := by
  by_contra hnot
  have hlast : ∀ u ∈ tokens.getLast?, u.kind ≠ .operator :=
    fun u hu hkind => hnot ⟨u, hu, hkind⟩
  have hready := h.ready hn (h.behind_value hne hlast)
  omega

theorem Counted.refused {functions : Functions} {tokens : List Token} {n : Nesting} {t : Token}
    {e : ParseError} (h : Counted functions tokens n) (hlexical : t.IsLexical)
    (hfits : t.FitsWhere (expectsBehind tokens)) (herror : n.accept functions t = .error e) :
    Failure functions tokens n t e := by
  obtain ⟨⟨hcount, hle⟩, _⟩ := List.forall₂_cons.mp h.levels
  cases Nesting.refuses_of_error herror with
  | call hn hk => exact .call hn hk
  | entry hk hn hreduce =>
    rcases reduceAll_error hreduce with ⟨target, rfl⟩ | ⟨op, rfl⟩
    · exact .assignment
    · obtain ⟨hne, hlack⟩ := short_of_missing hreduce
      obtain ⟨u, hlast, hu⟩ := h.last_of_short hn hne hlack
      exact .missing hk hlast hu (by omega)
  | unmatched hk hn houter hmade => exact .unmatched hk houter
  | result hk hn houter hmade hresult =>
    obtain ⟨f, count, rfl, htakes⟩ := Level.result_error hresult
    exact .count htakes
  | number hk hn hread =>
    simp only [Token.IsLexical, hk] at hlexical
    obtain ⟨value, hvalue⟩ := Double.read?_of_isNumber hlexical
    simp [hvalue] at hread
  | unknown hk hn hop =>
    simp only [Token.IsLexical, hk] at hlexical
    obtain ⟨op, rfl⟩ := hlexical
    exact absurd ((Operator.ofLexeme?_lexeme op).symm.trans hop) (by simp)
  | @operator op _ hk hn hop hlevel =>
    cases hunary : op.isUnary with
    | true => simp [Level.pushOperator_of_isUnary hunary] at hlevel
    | false =>
      have hready := h.ready hn (expected_of_not_unary hk hfits hop hunary)
      rcases Level.pushOperator_of_enough op hready with ⟨next, hnext⟩ | ⟨e, hbad, target, rfl⟩
      · simp [hnext] at hlevel
      · rw [hbad] at hlevel
        cases hlevel
        exact .assignment

end Formula.Parser
