import Formula.Parser

namespace Formula

section Bind

variable {ε α β : Type} {x : Except ε α} {f : α → Except ε β}

theorem bind_eq_ok {b : β} (h : (x >>= f) = .ok b) : ∃ a, x = .ok a ∧ f a = .ok b := by
  cases x with
  | error e => cases h
  | ok a => exact ⟨a, rfl, h⟩

theorem bind_eq_error {e : ε} (h : (x >>= f) = .error e) :
    x = .error e ∨ ∃ a, x = .ok a ∧ f a = .error e := by
  cases x with
  | error e =>
    cases h
    exact .inl rfl
  | ok a => exact .inr ⟨a, rfl, h⟩

end Bind

/-- Puts an operator on trees, of which the last one made is the first. -/
def Operator.reduce (op : Operator) (trees : List Tree) : Except ParseError (List Tree) :=
  match op, trees with
  | .unary kind, operand :: rest => .ok (.unary kind operand :: rest)
  | .binary kind, right :: left :: rest => .ok (.binary kind left right :: rest)
  | .assign, right :: left :: rest => (left.assignTo right).map (· :: rest)
  | _, _ => .error (.missingOperand op)

namespace Parser

/-- Puts operators on trees one after the other. -/
def reduceAll (operators : List Operator) (trees : List Tree) : Except ParseError (List Tree) :=
  operators.foldlM (fun trees op => op.reduce trees) trees

/-- What putting any operator in place keeps, putting several in place keeps. -/
theorem reduceAll_preserves {P : List Tree → Prop}
    (hstep : ∀ {op : Operator} {trees made}, P trees → op.reduce trees = .ok made → P made)
    {operators : List Operator} {trees made : List Tree} (htrees : P trees)
    (h : reduceAll operators trees = .ok made) : P made := by
  induction operators generalizing trees with
  | nil =>
    cases h
    exact htrees
  | cons op operators ih =>
    obtain ⟨middle, hop, hrest⟩ := bind_eq_ok h
    exact ih (hstep htrees hop) hrest

/-- What has been read of a group: the operators that wait and the trees made, the last ones first,
with the call that the group belongs to. -/
structure Level where
  call : Option (String × Function)
  operators : List Operator
  trees : List Tree

namespace Level

def empty (call : Option (String × Function)) : Level :=
  ⟨call, [], []⟩

def push (l : Level) (tree : Tree) : Level :=
  { l with trees := tree :: l.trees }

/-- Puts in place the operators to which an incoming one yields, and lets that one wait. -/
def pushOperator (l : Level) (op : Operator) : Except ParseError Level := do
  let trees ← reduceAll (l.operators.takeWhile op.yieldsTo) l.trees
  return { l with operators := op :: l.operators.dropWhile op.yieldsTo, trees := trees }

def endEntry (l : Level) : Except ParseError Level := do
  let trees ← reduceAll l.operators l.trees
  return { l with operators := [], trees := trees }

/-- The tree of a group that has ended. -/
def result (l : Level) : Except ParseError Tree :=
  match l.call with
  | some (_, function) => function.apply l.trees.reverse
  | none => .ok (Tree.ofGroup l.trees.reverse)

end Level

/-- A parser between two tokens: the innermost level, those around it from the inside out, and the
call whose group has to follow. The outermost level is no group. -/
structure Nesting where
  awaited : Option (String × Function)
  current : Level
  outer : List Level
  vars : Variables
  created : List String

namespace Nesting

def start (vars : Variables) (created : List String) : Nesting :=
  ⟨none, .empty none, [], vars, created⟩

def push (n : Nesting) (tree : Tree) : Nesting :=
  { n with current := n.current.push tree }

def openGroup (n : Nesting) : Nesting :=
  { n with awaited := none, current := .empty n.awaited, outer := n.current :: n.outer }

/-- Ends an entry, which takes an open group. -/
def endEntry (n : Nesting) : Except ParseError Nesting := do
  let level ← n.current.endEntry
  match n.outer with
  | [] => .error .unmatched
  | _ :: _ => return { n with current := level }

def endGroup (n : Nesting) : Except ParseError Nesting := do
  let level ← n.current.endEntry
  match n.outer with
  | [] => .error .unmatched
  | next :: outer => return { n with current := next.push (← level.result), outer := outer }

def pushOperator (n : Nesting) (op : Operator) : Except ParseError Nesting :=
  (n.current.pushOperator op).map (fun level => { n with current := level })

/-- Pushes the cell of a name, made if it is missing. -/
def pushVariable (n : Nesting) (name : String) : Nesting :=
  let created := if n.vars.cells.contains name then n.created else n.created ++ [name]
  { n.push (.var (n.vars.resolve name).1) with
    vars := (n.vars.resolve name).2
    created := created }

theorem endEntry_reduce {call : Option (String × Function)} {operators : List Operator}
    {trees made : List Tree} {outer : List Level} {vars : Variables} {created : List String}
    (houter : outer ≠ []) (hmade : reduceAll operators trees = .ok made) :
    (Nesting.mk none ⟨call, operators, trees⟩ outer vars created).endEntry =
      .ok ⟨none, ⟨call, [], made⟩, outer, vars, created⟩ := by
  obtain ⟨next, rest, rfl⟩ := List.exists_cons_of_ne_nil houter
  simp only [endEntry, Level.endEntry, hmade]
  rfl

theorem endGroup_reduce {call : Option (String × Function)} {operators : List Operator}
    {trees made : List Tree} {tree : Tree} {next : Level} {outer : List Level} {vars : Variables}
    {created : List String} (hmade : reduceAll operators trees = .ok made)
    (htree : (Level.mk call [] made).result = .ok tree) :
    (Nesting.mk none ⟨call, operators, trees⟩ (next :: outer) vars created).endGroup =
      .ok ⟨none, next.push tree, outer, vars, created⟩ := by
  simp only [endGroup, Level.endEntry, hmade]
  exact congrArg (Except.map _) htree

def accept (functions : Functions) (n : Nesting) (t : Token) : Except ParseError Nesting :=
  match t.kind, n.awaited with
  | .opening, _ => .ok n.openGroup
  | _, some (key, _) => .error (.callExpected key t.text)
  | .closing, none => n.endGroup
  | .comma, none => n.endEntry
  | .number, none =>
    match Double.read? t.text with
    | some value => .ok (n.push (.const value))
    | none => .error (.badNumber t.text)
  | .identifier, none =>
    match functions.find? t.text with
    | some function => .ok { n with awaited := some (t.text, function) }
    | none => .ok (n.pushVariable t.text)
  | .operator, none =>
    match Operator.ofLexeme? t.text with
    | some op => n.pushOperator op
    | none => .error (.unknownOperator t.text)

def acceptAll (functions : Functions) (n : Nesting) (tokens : List Token) :
    Except ParseError Nesting :=
  tokens.foldlM (accept functions) n

/-- The last tree of the outermost level, once all groups have ended. -/
def finish (n : Nesting) : Except ParseError Tree :=
  match n.awaited with
  | some _ => .error .unclosed
  | none => do
    let trees ← reduceAll n.current.operators n.current.trees
    match n.outer, trees with
    | [], tree :: _ => .ok tree
    | [], [] => .error (.breach .resultIsMissing)
    | _ :: _, _ => .error .unclosed

/-- Reads tokens as one group. -/
def readGroup (functions : Functions) (n : Nesting) (tokens : List Token) :
    Except ParseError Nesting :=
  n.acceptAll functions (Token.opening :: tokens ++ [Token.closing])

/-- Reads the tokens of a formula, with no group open before. -/
def readFormula (functions : Functions) (vars : Variables) (tokens : List Token) :
    Except ParseError Tree := do
  ((← (start vars []).readGroup functions tokens).finish)

end Nesting

end Parser

end Formula
