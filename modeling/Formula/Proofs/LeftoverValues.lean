import Formula.Proofs.GroupRuns
import Formula.Proofs.ParserReuse

namespace Formula

open Formula.Parser

/-- The attempt of a parser that has something on its stacks, against that of a new one over the same
variables: the same outcome, on top of what was there before. -/
structure Attempt.Continues (s : ParserState) (attempt fresh : Attempt) : Prop where
  outcome : attempt.outcome = fresh.outcome
  markers : attempt.parser.markers = []
  values : attempt.parser.values = fresh.parser.values ++ s.values
  «variables» : attempt.parser.variables = fresh.parser.variables
  created : attempt.parser.created = s.created ++ fresh.parser.created

section OneFormula

variable {functions : Functions} {s : ParserState} {tokens : List Token} {tree : Tree}

/-- Tokens that a new parser accepts are accepted on top of any values. -/
theorem parseTokens_continues (hmarkers : s.markers = [])
    (h : ((ParserState.start s.variables).parseTokens functions tokens).outcome = .ok tree) :
    (s.parseTokens functions tokens).Continues s
      ((ParserState.start s.variables).parseTokens functions tokens) := by
  obtain ⟨markers, values, vars, created⟩ := s
  cases hmarkers
  obtain ⟨n, hread, hfinish⟩ := bind_eq_ok (parseTokens_ok_iff.mp h)
  obtain ⟨rest, hlast⟩ := Nesting.finished_of_ok hfinish
  have hfresh := parse_ok [] hread hlast
  -- Names on record do not change how the tokens are read.
  have hrecorded : (Nesting.start vars created).readGroup functions tokens =
      .ok (n.recorded created) := by
    have hstart : (Nesting.start vars []).recorded created = Nesting.start vars created := by
      simp [Nesting.recorded, Nesting.start]
    rw [← hstart]
    exact Nesting.recorded_ok created hread
  have hrun := parse_ok values hrecorded hlast
  unfold ParserState.parseTokens ParserState.start
  rw [hfresh, hrun]
  exact ⟨rfl, rfl, by simp, rfl, rfl⟩

/-- The same holds for the tokens of a text. -/
theorem parseText_continues {text : String} (hmarkers : s.markers = [])
    (h : (parse functions s.variables text).outcome = .ok tree) :
    (s.parseText functions text).Continues s (parse functions s.variables text) := by
  obtain ⟨tokens, _, htokens, -, -⟩ := parse_readings h
  have halone : parse functions s.variables text =
      (ParserState.start s.variables).parseTokens functions tokens :=
    parse_of_tokenize htokens
  have hsame : s.parseText functions text = s.parseTokens functions tokens := by
    simp only [ParserState.parseText, htokens]
  rw [halone] at h
  rw [hsame, halone]
  exact parseTokens_continues hmarkers h

end OneFormula

/-- Gives texts to a parser in turn, each with the stacks that the one before it leaves. -/
def ParserState.parseTexts (s : ParserState) (functions : Functions) : List String → List Attempt
  | [] => []
  | text :: rest =>
    let attempt := s.parseText functions text
    attempt :: attempt.parser.parseTexts functions rest

/-- Gives each text to a new parser, over the variables that the one before it leaves. -/
def parseTextsAnew (functions : Functions) : Variables → List String → List Attempt
  | _, [] => []
  | vars, text :: rest =>
    let attempt := parse functions vars text
    attempt :: parseTextsAnew functions attempt.parser.variables rest

/-- The parser behind lists of tokens that have been given to it in turn. -/
def ParserState.afterEach (s : ParserState) (functions : Functions) (inputs : List (List Token)) :
    ParserState :=
  inputs.foldl (fun s tokens => (s.parseTokens functions tokens).parser) s

def AllAccepted (attempts : List Attempt) : Prop :=
  ∀ attempt ∈ attempts, ∃ tree, attempt.outcome = .ok tree

section InTurn

variable {functions : Functions} {s : ParserState}

/-- No marker is left if the last parse of all has succeeded, whatever was left before. -/
theorem markers_of_accepted {tokens : List Token} {tree : Tree} (hcovered : CallsCovered s.markers)
    (h : (s.parseTokens functions tokens).outcome = .ok tree) :
    (s.parseTokens functions tokens).parser.markers = [] := by
  rcases (parseTokens_regular functions hcovered tokens).ends with
    ⟨_, _, _, hmarkers, _⟩ | ⟨e, herror, _⟩
  · exact hmarkers
  · rw [h] at herror
    cases herror

theorem markers_afterEach {inputs : List (List Token)} (hmarkers : s.markers = [])
    (h : AllAccepted (s.parseEach functions inputs)) :
    (s.afterEach functions inputs).markers = [] := by
  induction inputs generalizing s with
  | nil => exact hmarkers
  | cons tokens rest ih =>
    obtain ⟨⟨tree, hfirst⟩, hrest⟩ := List.forall_mem_cons.mp h
    have hcovered : CallsCovered s.markers := by
      rw [hmarkers]
      exact .nil
    exact ih (markers_of_accepted hcovered hfirst) hrest

theorem parseTexts_continue {texts : List String} (hmarkers : s.markers = [])
    (h : AllAccepted (parseTextsAnew functions s.variables texts)) :
    List.Forall₂ (fun attempt fresh => ∃ before, attempt.Continues before fresh)
      (s.parseTexts functions texts) (parseTextsAnew functions s.variables texts) := by
  induction texts generalizing s with
  | nil => exact .nil
  | cons text rest ih =>
    obtain ⟨⟨tree, hfirst⟩, hrest⟩ := List.forall_mem_cons.mp h
    have hcontinues := parseText_continues hmarkers hfirst
    rw [← hcontinues.variables] at hrest
    have hlater := ih hcontinues.markers hrest
    rw [hcontinues.variables] at hlater
    exact .cons ⟨s, hcontinues⟩ hlater

end InTurn

/-- Values left over from earlier parses are harmless. What a new parser accepts has the same tree on
top of any values, which stay as they are, and no marker is left. So a parser all of whose parses
have succeeded answers texts that new parsers accept like these, however many there are. -/
theorem parse_over_leftovers (functions : Functions) :
    (∀ (s : ParserState) (tokens : List Token) (tree : Tree), s.markers = [] →
      ((ParserState.start s.variables).parseTokens functions tokens).outcome = .ok tree →
      (s.parseTokens functions tokens).Continues s
        ((ParserState.start s.variables).parseTokens functions tokens)) ∧
    ∀ (vars : Variables) (earlier : List (List Token)) (texts : List String),
      let s := (ParserState.start vars).afterEach functions earlier
      AllAccepted ((ParserState.start vars).parseEach functions earlier) →
      AllAccepted (parseTextsAnew functions s.variables texts) →
      List.Forall₂ (fun attempt fresh => ∃ before, attempt.Continues before fresh)
        (s.parseTexts functions texts) (parseTextsAnew functions s.variables texts) := by
  refine ⟨fun s tokens tree hmarkers h => parseTokens_continues hmarkers h, ?_⟩
  intro vars earlier texts s hearlier htexts
  exact parseTexts_continue (markers_afterEach rfl hearlier) htexts

/-- On top of a boundary and a value goes a formula that ends the group around it and adds behind
it; a parser that has read it goes on with a name. -/
theorem parse_over_leftovers_sum :
    let tokens := [Token.closing, .ofOperator (.binary .add), Token.opening]
    let s : ParserState := ⟨[], [none, some (.const 1)], .empty, []⟩
    let left := (ParserState.start .empty).afterEach .empty [tokens]
    s.markers = [] ∧
    ((ParserState.start s.variables).parseTokens .empty tokens).outcome =
      .ok (.binary .add (.const 0) (.const 0)) ∧
    (s.parseTokens .empty tokens).Continues s
      ((ParserState.start s.variables).parseTokens .empty tokens) ∧
    AllAccepted ((ParserState.start .empty).parseEach .empty [tokens]) ∧
    AllAccepted (parseTextsAnew .empty left.variables ["x"]) ∧
    List.Forall₂ (fun attempt fresh => ∃ before, attempt.Continues before fresh)
      (left.parseTexts .empty ["x"]) (parseTextsAnew .empty left.variables ["x"]) := by
  intro tokens s left
  have hsum : ((ParserState.start s.variables).parseTokens .empty tokens).outcome =
      .ok (.binary .add (.const 0) (.const 0)) := by
    rfl
  have hearlier : AllAccepted ((ParserState.start .empty).parseEach .empty [tokens]) := by
    intro attempt hattempt
    rw [List.mem_singleton.mp hattempt]
    exact ⟨_, hsum⟩
  have hname : tokenize "x" = .ok [⟨.identifier, "x"⟩] :=
    tokenize_identifier ⟨by decide, by simp⟩
  have htexts : AllAccepted (parseTextsAnew .empty left.variables ["x"]) := by
    intro attempt hattempt
    rw [List.mem_singleton.mp hattempt, parse_outcome hname]
    exact ⟨_, rfl⟩
  exact ⟨rfl, hsum, (parse_over_leftovers .empty).1 s tokens _ rfl hsum, hearlier, htexts,
    (parse_over_leftovers .empty).2 .empty [tokens] ["x"] hearlier htexts⟩

end Formula
