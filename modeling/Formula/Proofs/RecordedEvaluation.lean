import Formula.Evaluation

namespace Formula

/-- One evaluation of a call: the place of the call, what its function does, the values of its
arguments in the order in which it asked for them, and whether it has come to its end. -/
structure Visit where
  site : Path
  action : Action Float
  values : List Float
  finished : Bool

/-- Evaluation that lists the visits to calls, in the order in which they end, or fail. -/
def Recording (α : Type) :=
  Store → EStateM.Result Fault Store α × List Visit

namespace Recording

variable {α β : Type}

instance : Monad Recording where
  pure a := fun store => (.ok a store, [])
  bind x f := fun store =>
    match x store with
    | (.ok a middle, first) => ((f a middle).1, first ++ (f a middle).2)
    | (.error fault left, first) => (.error fault left, first)

/-- Evaluation that goes through no calls. -/
def silent (x : Eval α) : Recording α :=
  fun store => (x.run store, [])

def visited (visit : Visit) : Recording Unit :=
  fun store => (.ok () store, [visit])

/-- Evaluation during a visit, which ends if the evaluation fails. -/
def during (x : Recording α) (visit : Visit) : Recording α :=
  fun store =>
    match x store with
    | (.ok a later, visits) => (.ok a later, visits)
    | (.error fault left, visits) => (.error fault left, visits ++ [visit])

/-- The evaluation without its record. -/
def forget (x : Recording α) : Eval α :=
  fun store => (x store).1

end Recording

/-- Runs the rest of an action at a call, with the visit so far, and lists the visit as it ends. -/
def Action.record (args : List (Recording Float)) (visit : Visit) : Action Float → Recording Float
  | .done result => do
    Recording.visited { visit with finished := true }
    return result
  | .argument index next =>
    match args[index]? with
    | some arg => do
      let value ← arg.during visit
      (next value).record args { visit with values := visit.values ++ [value] }
    | none => (Recording.silent (Eval.fail (.missingArgument index))).during visit
  | .fetch key next => do
    let value ← Recording.silent (Eval.fetch visit.site key)
    (next value).record args visit
  | .keep key value next => do
    Recording.silent (Eval.keep visit.site key value)
    next.record args visit
  | .fail fault => (Recording.silent (Eval.fail fault)).during visit

namespace Tree

mutual

/-- The value of the tree whose root is at `path`, with the visits to its calls. -/
def recordAt (path : Path) : Tree → Recording Float
  | const value => return value
  | var cell => .silent (Eval.read cell)
  | unary op operand => do
    let x ← operand.recordAt (0 :: path)
    .silent (Eval.ofExcept (op.apply x))
  | binary op left right =>
    if op.isDivision then do
      let divisor ← right.recordAt (1 :: path)
      if divisor == 0 then return 0
      else
        let dividend ← left.recordAt (0 :: path)
        .silent (Eval.ofExcept (op.apply dividend divisor))
    else do
      let a ← left.recordAt (0 :: path)
      let b ← right.recordAt (1 :: path)
      .silent (Eval.ofExcept (op.apply a b))
  | assign target value => do
    let x ← value.recordAt (1 :: path)
    Recording.silent (Eval.write target x)
    .silent (Eval.read target)
  | call function args =>
    let action := function.body args.length
    action.record (recordFrom path 0 args) ⟨path, action, [], false⟩

def recordFrom (path : Path) (index : Nat) : List Tree → List (Recording Float)
  | [] => []
  | tree :: rest => tree.recordAt (index :: path) :: recordFrom path (index + 1) rest

end

def recordTimes (tree : Tree) : Nat → Recording (List Float)
  | 0 => return []
  | times + 1 => do
    let value ← tree.recordAt []
    return value :: (← tree.recordTimes times)

end Tree

namespace Recording

variable {α β : Type}

theorem bind_of_ok {x : Recording α} {f : α → Recording β} {store middle : Store} {a : α}
    {first : List Visit} (h : x store = (.ok a middle, first)) :
    (x >>= f) store = ((f a middle).1, first ++ (f a middle).2) := by
  show (match x store with
    | (.ok a middle, first) => ((f a middle).1, first ++ (f a middle).2)
    | (.error fault left, first) => (.error fault left, first)) = _
  rw [h]

theorem bind_of_error {x : Recording α} {f : α → Recording β} {store left : Store} {fault : Fault}
    {first : List Visit} (h : x store = (.error fault left, first)) :
    (x >>= f) store = (.error fault left, first) := by
  show (match x store with
    | (.ok a middle, first) => ((f a middle).1, first ++ (f a middle).2)
    | (.error fault left, first) => (.error fault left, first)) = _
  rw [h]

theorem during_of_ok {x : Recording α} {store later : Store} {a : α} {visits : List Visit}
    (h : x store = (.ok a later, visits)) (visit : Visit) :
    x.during visit store = (.ok a later, visits) := by
  unfold during
  rw [h]

theorem during_of_error {x : Recording α} {store left : Store} {fault : Fault}
    {visits : List Visit} (h : x store = (.error fault left, visits)) (visit : Visit) :
    x.during visit store = (.error fault left, visits ++ [visit]) := by
  unfold during
  rw [h]

@[simp] theorem forget_pure (a : α) : (pure a : Recording α).forget = pure a :=
  rfl

@[simp] theorem forget_silent (x : Eval α) : (silent x).forget = x :=
  rfl

@[simp] theorem forget_visited (visit : Visit) : (visited visit).forget = pure () :=
  rfl

@[simp] theorem forget_during (x : Recording α) (visit : Visit) :
    (x.during visit).forget = x.forget := by
  funext store
  unfold forget during
  split
  next h => rw [h]
  next h => rw [h]

@[simp] theorem forget_bind (x : Recording α) (f : α → Recording β) :
    (x >>= f).forget = (do (f (← x.forget)).forget) := by
  funext store
  have hforget : x.forget.run store = (x store).1 := rfl
  show ((x >>= f) store).1 = EStateM.run (do (f (← x.forget)).forget) store
  rw [EStateM.run_bind, hforget]
  rcases hx : x store with ⟨⟨a, middle⟩ | ⟨fault, left⟩, first⟩
  · rw [bind_of_ok hx]
    rfl
  · rw [bind_of_error hx]

end Recording

theorem Action.forget_record (args : List (Recording Float)) (visit : Visit)
    (action : Action Float) :
    (action.record args visit).forget = action.run (args.map Recording.forget) visit.site := by
  induction action generalizing visit with
  | done result => simp [record, run]
  | argument index next ih =>
    simp only [record, run, List.getElem?_map]
    cases args[index]? with
    | none => simp
    | some arg => simp [ih]
  | fetch key next ih => simp [record, run, ih]
  | keep key value next ih => simp [record, run, ih]
  | fail fault => simp [record, run]

namespace Tree

mutual

theorem forget_recordAt (path : Path) : (tree : Tree) →
    (tree.recordAt path).forget = tree.evalAt path
  | const value => rfl
  | var cell => rfl
  | unary op operand => by
    simp [recordAt, evalAt, forget_recordAt (0 :: path) operand]
  | binary op left right => by
    have hleft := forget_recordAt (0 :: path) left
    have hright := forget_recordAt (1 :: path) right
    rw [recordAt, evalAt]
    split
    · rw [Recording.forget_bind, hright]
      refine bind_congr fun divisor => ?_
      split
      · rfl
      · simp [hleft]
    · simp [hleft, hright]
  | assign target value => by
    simp [recordAt, evalAt, forget_recordAt (1 :: path) value]
  | call function args => by
    rw [recordAt, evalAt, Action.forget_record, forget_recordFrom path 0 args]

theorem forget_recordFrom (path : Path) (index : Nat) : (args : List Tree) →
    (recordFrom path index args).map Recording.forget = argsFrom path index args
  | [] => rfl
  | arg :: rest => by
    rw [recordFrom, argsFrom, List.map_cons, forget_recordAt (index :: path) arg,
      forget_recordFrom path (index + 1) rest]

end

/-- Evaluations some times over are recorded as they run. -/
theorem forget_recordTimes (tree : Tree) (times : Nat) :
    (tree.recordTimes times).forget = tree.evalTimes times := by
  induction times with
  | zero => rfl
  | succ times ih => simp [recordTimes, evalTimes, eval, ih, forget_recordAt]

end Tree

end Formula
