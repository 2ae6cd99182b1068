import Formula.Evaluation
import Formula.Parser

namespace Formula

/-- Why a formula has no value. -/
inductive Failure where
  | lex (error : LexError)
  | parse (error : ParseError)
  | fault (fault : Fault)

namespace Failure

def kind : Failure → ErrorKind
  | lex error => error.kind
  | parse error => error.kind
  | fault _ => .fault

def message (values : Values) : Failure → String
  | lex error => error.message
  | parse error => error.message values
  | fault _ => "Evaluation failed"

end Failure

/-- The outcome of a parse and the parser as it is left behind. -/
structure Attempt where
  outcome : Except Failure Tree
  parser : ParserState

namespace ParserState

/-- Parses tokens with this parser. -/
def parseTokens (s : ParserState) (functions : Functions) (tokens : List Token) : Attempt :=
  match (Parser.parse functions tokens).run s with
  | .ok tree s => ⟨.ok tree, s⟩
  | .error error s => ⟨.error (.parse error), s⟩

/-- Parses a text with this parser. The whole text is split into tokens first. -/
def parseText (s : ParserState) (functions : Functions) (text : String) : Attempt :=
  match tokenize text with
  | .ok tokens => s.parseTokens functions tokens
  | .error error => ⟨.error (.lex error), s⟩

end ParserState

/-- Parses a text with a new parser. -/
def parse (functions : Functions) (vars : Variables) (text : String) : Attempt :=
  (ParserState.start vars).parseText functions text

/-- The outcome of evaluations in turn, and what they leave behind, whether they fail or not. -/
structure Evaluation where
  outcome : Except Fault (List Float)
  «variables» : Variables
  memory : Memory

/-- Evaluates a tree some times over, with the environments that its calls have so far. -/
def Tree.evaluation (tree : Tree) (times : Nat) (vars : Variables) (memory : Memory) : Evaluation :=
  let result := (tree.evalTimes times).run ⟨vars.values, memory⟩
  let store := Eval.behind result
  ⟨Eval.outcome result, { vars with values := store.values }, store.memory⟩

/-- The values of a tree some times over and what is left behind, if there are values. -/
def evaluateTree (tree : Tree) (times : Nat) (vars : Variables) (memory : Memory) :
    Except Fault (List Float × Variables × Memory) :=
  let evaluation := tree.evaluation times vars memory
  evaluation.outcome.map fun values => (values, evaluation.variables, evaluation.memory)

/-- Evaluates a tree once, as if it were new. -/
def evaluateOnce (tree : Tree) (vars : Variables) : Except Failure Float × Variables :=
  let result := tree.eval.run ⟨vars.values, .empty⟩
  ((Eval.outcome result).mapError .fault, { vars with values := (Eval.behind result).values })

namespace Attempt

/-- Evaluates the tree once, if there is one. -/
def evaluate (attempt : Attempt) : Except Failure Float × Variables :=
  match attempt.outcome with
  | .ok tree => evaluateOnce tree attempt.parser.variables
  | .error failure => (.error failure, attempt.parser.variables)

end Attempt

/-- Parses a text and evaluates it once. -/
def evaluate (functions : Functions) (vars : Variables) (text : String) :
    Except Failure Float × Variables :=
  (parse functions vars text).evaluate

/-- The names of the variables in a formula, ascending. -/
def variableNames (functions : Functions) (text : String) : Except Failure (List String) :=
  (parse functions .empty text).outcome.map Tree.variableNames

end Formula
