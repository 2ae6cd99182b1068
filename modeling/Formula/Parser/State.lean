import Formula.Tree.Building

namespace Formula

/-- An operator that waits for its last operand, a call that waits for its arguments, or an open
group. -/
inductive Marker where
  | operator (op : Operator)
  | call (key : String) (function : Function)
  | group

/-- The stacks, innermost first, with the variables and the names made for them so far. In the
stack of values `none` is a boundary. -/
structure ParserState where
  markers : List Marker
  values : List (Option Tree)
  «variables» : Variables
  created : List String

/-- Work on the state of a parser. What failing work has taken from the stacks stays taken. -/
abbrev ParserM := EStateM ParseError ParserState

namespace ParserState

/-- A parser with empty stacks. -/
def start (vars : Variables) : ParserState :=
  ⟨[], [], vars, []⟩

end ParserState

namespace Parser

def setMarkers (markers : List Marker) : ParserM Unit :=
  modify (fun s => { s with markers := markers })

def pushMarker (marker : Marker) : ParserM Unit :=
  modify (fun s => { s with markers := marker :: s.markers })

def pushValue (tree : Tree) : ParserM Unit :=
  modify (fun s => { s with values := some tree :: s.values })

/-- Opens a group on both stacks. -/
def pushGroup : ParserM Unit :=
  modify (fun s => { s with markers := .group :: s.markers, values := none :: s.values })

/-- Takes the innermost value, be it a boundary; there is none to take from an empty stack. -/
def popValue : ParserM (Option Tree) := do
  let s ← get
  match s.values with
  | [] => return none
  | value :: rest =>
    set { s with values := rest }
    return value

/-- Takes the values of the innermost group, in the order in which they were made, and its
boundary. -/
def popEntries : ParserM (List Tree) := do
  let s ← get
  set { s with values := (s.values.dropWhile Option.isSome).drop 1 }
  return ((s.values.takeWhile Option.isSome).filterMap id).reverse

/-- The cell of a name, made if it is missing. -/
def resolveName (name : String) : ParserM Cell := do
  let s ← get
  let (cell, vars) := s.variables.resolve name
  let created := if s.variables.cells.contains name then s.created else s.created ++ [name]
  set { s with «variables» := vars, created := created }
  return cell

end Parser

end Formula
