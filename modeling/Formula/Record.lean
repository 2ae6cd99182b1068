import Formula.Formulas

namespace Formula

/-- How much a record has to matter to be kept. -/
inductive Level where
  | debug
  | info
  | warning
  | error
  | critical
deriving Repr, DecidableEq

namespace Level

def all : List Level := [debug, info, warning, error, critical]

def name : Level → String
  | debug => "DEBUG"
  | info => "INFO"
  | warning => "WARNING"
  | error => "ERROR"
  | critical => "CRITICAL"

def rank : Level → Nat
  | debug => 10
  | info => 20
  | warning => 30
  | error => 40
  | critical => 50

def ofName? (name : String) : Option Level :=
  all.find? (fun level => level.name == name)

end Level

/-- What a parse does to be recorded. -/
inductive Event where
  | created (name : String)
  | parsed (text shown : String)
deriving Repr, DecidableEq

namespace Event

def level : Event → Level
  | _ => .debug

def message : Event → String
  | created name => "Creating variable " ++ Text.quoted name
  | parsed text shown => "Parsed " ++ Text.quoted text ++ " into " ++ shown

end Event

namespace Attempt

/-- The variables made, in order, and after a success the tree. -/
def events (attempt : Attempt) (text : String) : List Event :=
  attempt.parser.created.map .created ++
    match attempt.outcome with
    | .ok tree => [.parsed text (tree.shown attempt.parser.variables.values)]
    | .error _ => []

/-- The events that are kept at a level. -/
def eventsAt (attempt : Attempt) (level : Level) (text : String) : List Event :=
  (attempt.events text).filter (fun event => level.rank ≤ event.level.rank)

end Attempt

end Formula
