import Formula.Builtin.Kernels
import Formula.Formulas

namespace Formula

/-- A parsed formula with the environments of its calls. -/
structure KeptFormula where
  tree : Tree
  memory : Memory

/-- Formulas that are parsed once, kept under names and evaluated many times over one set of
variables. -/
structure Session where
  «variables» : Variables
  functions : Functions
  formulas : Table String KeptFormula

/-- One request to a session. -/
inductive Request where
  | parse (formula text : String)
  | evaluate (text : String)
  | eval (formula : String) (times : Nat)
  | environments (formula : String)
  | walk (formula : String)
  | shown (formula : String)
  | set (name : String) (value : Float)
  | get (name : String)
  | remove (name : String)
  | share (name source : String)
  | useFunctions (functions : Functions)

inductive Answer where
  | done
  | skipped
  | failed (failure : Failure)
  | shown (text : String)
  | value (value : Float)
  | values (values : List Float)
  | labels (labels : List String)
  | environments (environments : List Environment)

namespace Session

def start (functions : Functions) (vars : Variables) : Session :=
  ⟨vars, functions, .empty⟩

/-- Parses a text and keeps the tree with empty environments; on failure the old one stays. -/
def parse (s : Session) (formula text : String) : Answer × Session :=
  let attempt := Formula.parse s.functions s.variables text
  let vars := attempt.parser.variables
  match attempt.outcome with
  | .ok tree =>
    (.shown (tree.shown vars.values),
      { s with «variables» := vars, formulas := s.formulas.insert formula ⟨tree, .empty⟩ })
  | .error failure => (.failed failure, { s with «variables» := vars })

def evaluate (s : Session) (text : String) : Answer × Session :=
  match Formula.evaluate s.functions s.variables text with
  | (.ok value, vars) => (.value value, { s with «variables» := vars })
  | (.error failure, vars) => (.failed failure, { s with «variables» := vars })

def eval (s : Session) (formula : String) (times : Nat) (kept : KeptFormula) : Answer × Session :=
  let evaluation := kept.tree.evaluation times s.variables kept.memory
  let answer := match evaluation.outcome with
    | .ok values => .values values
    | .error fault => .failed (.fault fault)
  (answer,
    { s with
      «variables» := evaluation.variables
      formulas := s.formulas.insert formula { kept with memory := evaluation.memory } })

/-- Answers with a formula that is kept, if it is there. -/
def withFormula (s : Session) (formula : String) (answer : KeptFormula → Answer × Session) :
    Answer × Session :=
  match s.formulas.find? formula with
  | some kept => answer kept
  | none => (.skipped, s)

/-- Answers with the cell of a name, if it has one. -/
def withCell (s : Session) (name : String) (answer : Cell → Answer × Session) :
    Answer × Session :=
  match s.variables.cells.find? name with
  | some cell => answer cell
  | none => (.skipped, s)

def step (s : Session) : Request → Answer × Session
  | .parse formula text => s.parse formula text
  | .evaluate text => s.evaluate text
  | .eval formula times => s.withFormula formula (s.eval formula times)
  | .environments formula =>
    s.withFormula formula (fun kept => (.environments (kept.tree.environments kept.memory), s))
  | .walk formula =>
    s.withFormula formula (fun kept =>
      (.labels (kept.tree.walk.map (Tree.label s.variables.values)), s))
  | .shown formula =>
    s.withFormula formula (fun kept => (.shown (kept.tree.shown s.variables.values), s))
  | .set name value =>
    s.withCell name (fun cell => (.done, { s with «variables» := s.variables.set cell value }))
  | .get name => s.withCell name (fun cell => (.value (s.variables.values.read cell), s))
  | .remove name =>
    s.withCell name (fun _ => (.done, { s with «variables» := s.variables.remove name }))
  | .share name source =>
    s.withCell source (fun cell => (.done, { s with «variables» := s.variables.point name cell }))
  | .useFunctions functions => (.done, { s with functions := functions })

/-- Takes requests in turn; each answer comes with the session after it. -/
def run (s : Session) : List Request → List (Answer × Session)
  | [] => []
  | request :: rest =>
    let (answer, next) := s.step request
    (answer, next) :: next.run rest

end Session

end Formula
