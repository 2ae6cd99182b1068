import Formula.Double.Reading
import Formula.Parser.State

namespace Formula.Parser

/-- Takes the operands of an operator from the values and makes its node. -/
def takeOperands (op : Operator) : ParserM Tree :=
  match op with
  | .unary kind => do
    match ← popValue with
    | some operand => return .unary kind operand
    | none => throw (.missingOperand op)
  | .binary kind => do
    let right ← popValue
    let left ← popValue
    match left, right with
    | some left, some right => return .binary kind left right
    | _, _ => throw (.missingOperand op)
  | .assign => do
    let right ← popValue
    let left ← popValue
    match left, right with
    | some left, some right => MonadExcept.ofExcept (left.assignTo right)
    | _, _ => throw (.missingOperand op)

/-- Applies the operator in front of the other markers. -/
def applyOperator (op : Operator) (outer : List Marker) : ParserM Unit := do
  setMarkers outer
  pushValue (← takeOperands op)

/-- Applies the operators to which an incoming one yields. -/
def applyTighter (incoming : Operator) : List Marker → ParserM Unit
  | .operator stacked :: outer =>
    if incoming.yieldsTo stacked then do
      applyOperator stacked outer
      applyTighter incoming outer
    else return
  | _ => return

/-- Ends an entry: applies all operators down to the innermost open group. -/
def endEntry : List Marker → ParserM Unit
  | [] => throw .unmatched
  | .group :: _ => return
  | .operator op :: outer => do
    applyOperator op outer
    endEntry outer
  | .call .. :: outer => do
    setMarkers outer
    throw (.breach .markerIsNoOperator)

/-- Ends the innermost group. Its entries are the arguments of the call in front of it, if one
waits there. -/
def endGroup : ParserM Unit := do
  endEntry (← get).markers
  match (← get).markers with
  | .group :: .call _ function :: outer =>
    setMarkers outer
    pushValue (← MonadExcept.ofExcept (function.apply (← popEntries)))
  | .group :: outer =>
    setMarkers outer
    pushValue (Tree.ofGroup (← popEntries))
  | _ => throw (.breach .markerIsNoGroup)

def acceptOperator (text : String) : ParserM Unit := do
  match Operator.ofLexeme? text with
  | none => throw (.unknownOperator text)
  | some op =>
    applyTighter op (← get).markers
    pushMarker (.operator op)

def acceptNumber (text : String) : ParserM Unit :=
  match Double.read? text with
  | some value => pushValue (.const value)
  | none => throw (.badNumber text)

/-- Takes an identifier, as the start of a call or as a variable. Tells whether an opening
parenthesis has to follow. -/
def acceptIdentifier (functions : Functions) (name : String) : ParserM Bool := do
  match functions.find? name with
  | some function =>
    pushMarker (.call name function)
    return true
  | none =>
    pushValue (.var (← resolveName name))
    return false

/-- Something else than an opening parenthesis stands behind the name of a function. -/
def refuseCall (got : String) : ParserM Bool := do
  match (← get).markers with
  | .call key _ :: _ => throw (.callExpected key got)
  | _ => throw (.breach .markerIsNoCall)

/-- Takes a token; `awaitsGroup` tells before and after whether an opening parenthesis has to
follow. -/
def accept (functions : Functions) (awaitsGroup : Bool) (token : Token) : ParserM Bool := do
  match token.kind, awaitsGroup with
  | .opening, _ =>
    pushGroup
    return false
  | _, true => refuseCall token.text
  | .closing, false =>
    endGroup
    return false
  | .comma, false =>
    endEntry (← get).markers
    return false
  | .number, false =>
    acceptNumber token.text
    return false
  | .identifier, false => acceptIdentifier functions token.text
  | .operator, false =>
    acceptOperator token.text
    return false

def acceptAll (functions : Functions) : (awaitsGroup : Bool) → List Token → ParserM Unit
  | _, [] => return
  | awaitsGroup, token :: rest => do
    acceptAll functions (← accept functions awaitsGroup token) rest

/-- Applies the operators that are left when the tokens end. -/
def applyRest : List Marker → ParserM Unit
  | [] => return
  | .operator op :: outer => do
    applyOperator op outer
    applyRest outer
  | _ :: outer => do
    setMarkers outer
    throw .unclosed

/-- The innermost value, which stays on the stack. -/
def result : ParserM Tree := do
  match (← get).values with
  | some tree :: _ => return tree
  | none :: _ => throw (.breach .resultIsBoundary)
  | [] => throw (.breach .resultIsMissing)

/-- Parses tokens as the entries of one group around all of them. -/
def parse (functions : Functions) (tokens : List Token) : ParserM Tree := do
  acceptAll functions false (Token.opening :: tokens ++ [Token.closing])
  applyRest (← get).markers
  result

end Formula.Parser
