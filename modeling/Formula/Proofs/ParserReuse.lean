import Formula.Proofs.NumberReading
import Formula.Proofs.ParserWork
import Formula.Proofs.Tokenizing
import Formula.Formulas

namespace Formula

open Formula.Parser

/-- Kinds of errors that tell of the order of tokens, whatever these are. -/
def ErrorKind.orderKinds : List ErrorKind :=
  [.parenthesisMismatch, .badCall, .badAssignment, .operandMissing]

/-- What tokens may be refused for. Spellings that stand for nothing are those of a token. -/
inductive ParseError.TellsOf (tokens : List Token) : ParseError → Prop
  | order {e : ParseError} : e.kind ∈ ErrorKind.orderKinds → TellsOf tokens e
  | unknownOperator {text : String} : ⟨.operator, text⟩ ∈ tokens →
      Operator.ofLexeme? text = none → TellsOf tokens (.unknownOperator text)
  | badNumber {text : String} : ⟨.number, text⟩ ∈ tokens →
      Double.read? text = none → TellsOf tokens (.badNumber text)

namespace ParseError.TellsOf

variable {tokens more : List Token} {e : ParseError}

theorem mono (h : e.TellsOf tokens) (hmore : tokens ⊆ more) : e.TellsOf more := by
  cases h with
  | order hkind => exact .order hkind
  | unknownOperator ht hop => exact .unknownOperator (hmore ht) hop
  | badNumber ht hread => exact .badNumber (hmore ht) hread

theorem of_operand (h : OperandError e) : e.TellsOf tokens := by
  refine .order ?_
  rcases h with h | h <;> simp [h, ErrorKind.orderKinds]

theorem not_breach {breach : Breach} : ¬ (ParseError.breach breach).TellsOf tokens := by
  rintro (hkind | _ | _)
  simp [kind, ErrorKind.orderKinds] at hkind

/-- Neither spelling is that of the closing parenthesis behind all tokens. -/
theorem of_closing (h : e.TellsOf (tokens ++ [Token.closing])) : e.TellsOf tokens := by
  cases h with
  | order hkind => exact .order hkind
  | unknownOperator ht hop => exact .unknownOperator (by simpa [Token.closing] using ht) hop
  | badNumber ht hread => exact .badNumber (by simpa [Token.closing] using ht) hread

/-- The tokens of a text all stand for something. -/
theorem of_lexical (h : e.TellsOf tokens) (hlexical : ∀ t ∈ tokens, t.IsLexical) :
    e.kind ∈ ErrorKind.orderKinds := by
  cases h with
  | order hkind => exact hkind
  | @unknownOperator text ht hop =>
    obtain ⟨op, hsame⟩ := hlexical _ ht
    cases hsame
    rw [Operator.ofLexeme?_lexeme] at hop
    cases hop
  | @badNumber text ht hread =>
    obtain ⟨value, hvalue⟩ := Double.read?_of_isNumber (hlexical _ ht)
    rw [hvalue] at hread
    cases hread

end ParseError.TellsOf

namespace Parser

variable {functions : Functions} {s : ParserState} {t : Token} {tokens : List Token}

/-- A call takes the innermost entries, if it takes so many. -/
theorem pushCall_leads (function : Function) (s : ParserState) :
    Leads (do pushValue (← MonadExcept.ofExcept (function.apply (← popEntries)))) s
      (fun _ next => next.markers = s.markers ∧ TreeOnTop next)
      (fun e left => left.markers = s.markers ∧ e.kind = .badCall) := by
  have hpop : Leads popEntries s (fun _ next => next.markers = s.markers)
      (fun e left => left.markers = s.markers ∧ e.kind = .badCall) := rfl
  refine hpop.bind fun entries next hnext => ?_
  unfold Function.apply
  split
  · exact ⟨hnext, _, _, rfl⟩
  · exact ⟨hnext, rfl⟩

theorem endGroup_leads (h : CallsCovered s.markers) (htop : callOnTop s.markers = false) :
    Leads endGroup s
      (fun _ next => CallsCovered next.markers ∧ callOnTop next.markers = false ∧ TreeOnTop next)
      (fun e left => CallsCovered left.markers ∧ e.TellsOf tokens) := by
  refine ((endEntry_leads rfl h htop).mono (fun _ _ h => h) ?_).bind ?_
  · rintro e left ⟨hleft, he | rfl⟩
    · exact ⟨h.suffix hleft, .of_operand he⟩
    · exact ⟨h.suffix hleft, .order (by decide)⟩
  rintro _ ⟨_, values, vars, created⟩ ⟨hnext, rest, rfl⟩
  have hcovered := h.suffix hnext
  match rest with
  | [] | .group :: outer | .operator op :: outer => exact ⟨hcovered.tail, rfl, _, _, rfl⟩
  | .call key function :: outer =>
    -- The call goes together with its group, and none was waiting below it.
    have houter : CallsCovered outer := hcovered.tail.tail
    have hnone : callOnTop outer = false := hcovered.tail.below (by simp)
    refine (pushCall_leads function ⟨outer, values, vars, created⟩).mono ?_ ?_
    · rintro _ next ⟨rfl, htree⟩
      exact ⟨houter, hnone, htree⟩
    · rintro e left ⟨rfl, he⟩
      exact ⟨houter, .order (by simp [he, ErrorKind.orderKinds])⟩

theorem acceptOperator_leads (h : CallsCovered s.markers) (htop : callOnTop s.markers = false)
    (text : String) :
    Leads (acceptOperator text) s
      (fun _ next => CallsCovered next.markers ∧ callOnTop next.markers = false)
      (fun e left => CallsCovered left.markers ∧ e.TellsOf [⟨.operator, text⟩]) := by
  unfold acceptOperator
  split
  next hop => exact ⟨h, .unknownOperator (by simp) hop⟩
  next op hop =>
    refine ((applyTighter_leads op s rfl).mono (fun _ _ h => h) ?_).bind ?_
    · exact fun e left hleft => ⟨h.suffix hleft.1, .of_operand hleft.2⟩
    · rintro _ next ⟨⟨applied, happlied⟩, -⟩
      have hnext : CallsCovered next.markers := h.suffix ⟨_, happlied⟩
      rw [← happlied] at h htop
      exact ⟨hnext.push (h.below_operators htop), rfl⟩

theorem refuseCall_leads (h : CallsCovered s.markers) (htop : callOnTop s.markers = true)
    (got : String) (done : Bool → ParserState → Prop) :
    Leads (refuseCall got) s done
      (fun e left => CallsCovered left.markers ∧ e.TellsOf tokens) := by
  obtain ⟨markers, values, vars, created⟩ := s
  match markers with
  | .call key function :: outer => exact ⟨h, .order (by simp [ParseError.kind, ErrorKind.orderKinds])⟩
  | [] | .group :: outer | .operator op :: outer => cases htop

theorem accept_leads {awaits : Bool} (h : CallsCovered s.markers)
    (htop : callOnTop s.markers = awaits) :
    Leads (accept functions awaits t) s
      (fun awaits' next => CallsCovered next.markers ∧ callOnTop next.markers = awaits' ∧
        (t.kind = .closing → TreeOnTop next))
      (fun e left => CallsCovered left.markers ∧ e.TellsOf [t]) := by
  obtain ⟨kind, text⟩ := t
  cases awaits with
  | true =>
    cases kind with
    | opening => exact ⟨h.group, rfl, by simp⟩
    | _ => exact refuseCall_leads h htop text _
  | false =>
    cases kind with
    | opening => exact ⟨h.group, rfl, by simp⟩
    | closing =>
      refine (endGroup_leads h htop).bind fun _ next hnext => ?_
      exact ⟨hnext.1, hnext.2.1, fun _ => hnext.2.2⟩
    | comma =>
      refine ((endEntry_leads rfl h htop).mono (fun _ _ h => h) ?_).bind ?_
      · rintro e left ⟨hleft, he | rfl⟩
        · exact ⟨h.suffix hleft, .of_operand he⟩
        · exact ⟨h.suffix hleft, .order (by decide)⟩
      · rintro _ next ⟨hnext, rest, hgroup⟩
        exact ⟨h.suffix hnext, by rw [hgroup]; rfl, by simp⟩
    | number =>
      simp only [accept, acceptNumber]
      cases hread : Double.read? text with
      | none => exact ⟨h, .badNumber (by simp) hread⟩
      | some value => exact ⟨h, htop, by simp⟩
    | identifier =>
      simp only [accept, acceptIdentifier]
      cases functions.find? text with
      | some function => exact ⟨h.push htop, rfl, by simp⟩
      | none => exact ⟨h, htop, by simp⟩
    | operator =>
      refine (acceptOperator_leads h htop text).bind fun _ next hnext => ?_
      exact ⟨hnext.1, hnext.2, by simp⟩

/-- Tokens of which the last one is a closing parenthesis leave a tree on top. -/
theorem acceptAll_leads {awaits : Bool} (h : CallsCovered s.markers)
    (htop : callOnTop s.markers = awaits) :
    Leads (acceptAll functions awaits (tokens ++ [Token.closing])) s
      (fun _ next => CallsCovered next.markers ∧ TreeOnTop next)
      (fun e left => CallsCovered left.markers ∧ e.TellsOf (tokens ++ [Token.closing])) := by
  induction tokens generalizing s awaits with
  | nil => exact (accept_leads h htop).bind fun _ next hnext => ⟨hnext.1, hnext.2.2 rfl⟩
  | cons t tokens ih =>
    refine ((accept_leads h htop).mono (fun _ _ h => h) ?_).bind fun _ next hnext => ?_
    · exact fun e left hleft => ⟨hleft.1, hleft.2.mono (by simp)⟩
    · refine (ih hnext.1 hnext.2.1).mono (fun _ _ h => h) ?_
      exact fun e left hleft => ⟨hleft.1, hleft.2.mono (by simp)⟩

/-- The stacks may be as an earlier parse has left them: the first token opens a group. -/
theorem parse_leads (h : CallsCovered s.markers) :
    Leads (parse functions tokens) s
      (fun tree next => next.markers = [] ∧ ∃ rest, next.values = some tree :: rest)
      (fun e left => CallsCovered left.markers ∧ e.TellsOf tokens) := by
  have hopen : Leads (accept functions false .opening) s
      (fun awaits next => CallsCovered next.markers ∧ callOnTop next.markers = awaits)
      (fun e left => CallsCovered left.markers ∧ e.TellsOf tokens) := ⟨h.group, rfl⟩
  have hread : Leads (acceptAll functions false (Token.opening :: tokens ++ [Token.closing])) s
      (fun _ next => CallsCovered next.markers ∧ TreeOnTop next)
      (fun e left => CallsCovered left.markers ∧ e.TellsOf tokens) := by
    refine hopen.bind fun awaits next hnext => ?_
    refine (acceptAll_leads hnext.1 hnext.2).mono (fun _ _ h => h) ?_
    exact fun e left hleft => ⟨hleft.1, hleft.2.of_closing⟩
  refine hread.bind fun _ next hnext => ?_
  have hrest : Leads (applyRest next.markers) next
      (fun _ last => last.markers = [] ∧ TreeOnTop last)
      (fun e left => CallsCovered left.markers ∧ e.TellsOf tokens) := by
    refine (applyRest_leads next rfl hnext.2).mono (fun _ _ h => h) ?_
    rintro e left ⟨hleft, he | rfl⟩
    · exact ⟨hnext.1.suffix hleft, .of_operand he⟩
    · exact ⟨hnext.1.suffix hleft, .order (by decide)⟩
  refine hrest.bind (f := fun _ => result) fun _ last hlast => ?_
  obtain ⟨_, _, vars, created⟩ := last
  obtain ⟨rfl, tree, rest, rfl⟩ := hlast
  exact ⟨rfl, rest, rfl⟩

end Parser

/-- Feeds lists of tokens to one parser, each with the stacks that the one before it leaves. -/
def ParserState.parseEach (s : ParserState) (functions : Functions) : List (List Token) → List Attempt
  | [] => []
  | tokens :: rest =>
    let attempt := s.parseTokens functions tokens
    attempt :: attempt.parser.parseEach functions rest

/-- An attempt at tokens that ends with the tree on top of the values and no marker left, or with an
error that tells what is wrong with the tokens. -/
structure Attempt.Regular (tokens : List Token) (attempt : Attempt) : Prop where
  ends :
    (∃ tree rest, attempt.outcome = .ok tree ∧ attempt.parser.markers = [] ∧
      attempt.parser.values = some tree :: rest) ∨
    ∃ e, attempt.outcome = .error (.parse e) ∧ e.TellsOf tokens
  unbroken : ∀ breach, attempt.outcome ≠ .error (.parse (.breach breach))
  covered : CallsCovered attempt.parser.markers
  ofText : ∀ text, tokenize text = .ok tokens → ∀ e, attempt.outcome = .error (.parse e) →
    e.kind ∈ ErrorKind.orderKinds

section Attempts

variable {functions : Functions} {s : ParserState} {tokens : List Token}

theorem parseTokens_regular (functions : Functions) (h : CallsCovered s.markers)
    (tokens : List Token) : (s.parseTokens functions tokens).Regular tokens := by
  have hparse : Leads (Parser.parse functions tokens) s _ _ := parse_leads h
  unfold Leads at hparse
  unfold ParserState.parseTokens
  cases hrun : (Parser.parse functions tokens).run s with
  | ok tree next =>
    rw [hrun] at hparse
    obtain ⟨hmarkers, rest, hvalues⟩ := hparse
    exact ⟨.inl ⟨tree, rest, rfl, hmarkers, hvalues⟩, by simp, by simp [hmarkers, CallsCovered],
      by simp⟩
  | error e left =>
    rw [hrun] at hparse
    obtain ⟨hcovered, htells⟩ := hparse
    refine ⟨.inr ⟨e, rfl, htells⟩, ?_, hcovered, ?_⟩
    · rintro breach ⟨⟩
      exact htells.not_breach
    · rintro text htokens _ ⟨⟩
      exact htells.of_lexical (tokenize_iff.mp htokens).2.1

end Attempts

/-- A parser never breaks its own stacks, however often it is used and whatever it is fed: each parse
ends with the tree that is on top of the values, or with an error that tells what is wrong with the
tokens. The tokens of a text are never wrong for their spelling. -/
theorem parseEach_regular (functions : Functions) (vars : Variables) (inputs : List (List Token)) :
    List.Forall₂ Attempt.Regular inputs ((ParserState.start vars).parseEach functions inputs) := by
  have hcovered : CallsCovered (ParserState.start vars).markers := .nil
  generalize ParserState.start vars = s at hcovered ⊢
  induction inputs generalizing s with
  | nil => exact .nil
  | cons tokens rest ih =>
    have hfirst := parseTokens_regular functions hcovered tokens
    exact .cons hfirst (ih _ hfirst.covered)

/-- The call that the first parse leaves waiting is taken by the group of the second one, which then
finds the group of the first one open. -/
example : ((ParserState.start .empty).parseEach ⟨[("f", Function.last)]⟩
    [[⟨.identifier, "f"⟩], []]).map (fun attempt => attempt.parser.markers.length) = [2, 0] := by
  rfl

end Formula
