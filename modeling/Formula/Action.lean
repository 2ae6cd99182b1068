import Formula.Fault

namespace Formula

/-- What a function may do when it is called: have an argument evaluated, read and write its own
small environment, and return. Which arguments are evaluated, how often and in which order is up to
it. -/
inductive Action (α : Type) where
  | done (result : α)
  | argument (index : Nat) (next : Float → Action α)
  | fetch (key : String) (next : Option Float → Action α)
  | keep (key : String) (value : Float) (next : Action α)
  | fail (fault : Fault)

namespace Action

variable {α β : Type}

def bind : Action α → (α → Action β) → Action β
  | done result, f => f result
  | argument index next, f => argument index (fun value => (next value).bind f)
  | fetch key next, f => fetch key (fun value => (next value).bind f)
  | keep key value next, f => keep key value (next.bind f)
  | fail fault, _ => fail fault

instance : Monad Action where
  pure := done
  bind := bind

/-- Evaluates an argument. -/
def eval (index : Nat) : Action Float :=
  argument index done

/-- Reads the environment; a key never written has the given default. -/
def readD (key : String) (default : Float) : Action Float :=
  fetch key (fun value => done (value.getD default))

def write (key : String) (value : Float) : Action Unit :=
  keep key value (done ())

def ofExcept : Except Fault α → Action α
  | .ok result => done result
  | .error fault => fail fault

/-- Evaluates `count` arguments in order, starting with the one at `index`. -/
def evalFrom (index : Nat) : (count : Nat) → Action (List Float)
  | 0 => pure []
  | count + 1 => do
    let value ← eval index
    return value :: (← evalFrom (index + 1) count)

end Action

end Formula
