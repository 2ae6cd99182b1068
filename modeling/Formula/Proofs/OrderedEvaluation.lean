import Formula.Proofs.CellsWritten
import Formula.Proofs.EntriesInTurn
import Formula.Proofs.PostOrder

namespace Formula

/-- The function does nothing before its arguments have been evaluated from left to right, each
once, and from then on their values are all it asks for. -/
def Function.InTurn (f : Function) (count : Nat) : Prop :=
  ∀ args site, args.length = count → (f.body count).run args site =
    Eval.all args >>= fun values => (f.body count).run (values.map pure) site

namespace Eval

variable {α β : Type} {x : Eval α} {store later : Store}

theorem bind_ok {f : α → Eval β} {b : β} (h : (x >>= f).run store = .ok b later) :
    ∃ a middle, x.run store = .ok a middle ∧ (f a).run middle = .ok b later := by
  rw [EStateM.run_bind] at h
  cases hx : x.run store with
  | ok a middle =>
    rw [hx] at h
    exact ⟨a, middle, rfl, h⟩
  | error fault left =>
    rw [hx] at h
    cases h

theorem ofExcept_ok {result : Except Fault α} {a : α}
    (h : (ofExcept result).run store = .ok a later) : result = .ok a ∧ later = store := by
  cases result with
  | ok b =>
    cases h
    exact ⟨rfl, rfl⟩
  | error fault => cases h

end Eval

theorem Eval.all_pure (values : List Float) : Eval.all (values.map pure) = pure values := by
  induction values with
  | nil => rfl
  | cons value values ih => simp [Eval.all, ih]

theorem Action.run_ofExcept {α : Type} (args : List (Eval Float)) (site : Path)
    (x : Except Fault α) : (ofExcept x).run args site = Eval.ofExcept x := by
  cases x <;> rfl

theorem Eval.all_length {args : List (Eval Float)} {store later : Store} {values : List Float}
    (h : (Eval.all args).run store = .ok values later) : values.length = args.length := by
  induction args generalizing store values later with
  | nil =>
    cases h
    rfl
  | cons arg args ih =>
    obtain ⟨value, middle, -, hrest⟩ := Eval.bind_ok h
    obtain ⟨rest, last, hlist, hpure⟩ := Eval.bind_ok hrest
    cases hpure
    simp [ih hlist]

/-- A function of the list of its values. -/
theorem Function.inTurn_of_evalFrom {f : Function} {count : Nat}
    {g : List Float → Except Fault Float}
    (h : f.body count = Action.evalFrom 0 count >>= fun values => Action.ofExcept (g values)) :
    f.InTurn count := by
  have hrun (args : List (Eval Float)) (site : Path) (hargs : args.length = count) :
      (f.body count).run args site =
        Eval.all args >>= fun values => Eval.ofExcept (g values) := by
    rw [h, Action.run_evalFrom _ (by omega), List.drop_zero]
    simp only [Action.run_ofExcept]
  intro args site hargs
  rw [hrun args site hargs]
  funext store
  show (Eval.all args >>= _).run store = (Eval.all args >>= _).run store
  rw [EStateM.run_bind, EStateM.run_bind]
  cases hall : (Eval.all args).run store with
  | error fault left => rfl
  | ok values later =>
    have hvalues : (values.map pure : List (Eval Float)).length = count := by
      rw [List.length_map, Eval.all_length hall, hargs]
    show (Eval.ofExcept (g values)).run later =
      ((f.body count).run (values.map pure) site).run later
    rw [hrun _ site hvalues, Eval.all_pure, pure_bind]

/-- A function of evaluated arguments, however many of those that it takes. -/
def Function.Eager (f : Function) : Prop :=
  ∀ count, f.takes count = true → f.InTurn count

theorem Function.eager_last : last.Eager := fun _ _ =>
  inTurn_of_evalFrom (g := fun values => .ok (values.getLast?.getD 0)) rfl

namespace Builtin

variable {name : String}

theorem eager_pointwise {count : Nat} {compute : List Float → Except Fault Float} :
    (pointwise name count compute).Eager :=
  fun _ _ => Function.inTurn_of_evalFrom rfl

theorem eager_ofMany (f : List Float → Float) : (ofMany name f).Eager := by
  intro count _
  refine Function.inTurn_of_evalFrom
    (g := fun values => .ok (if values = [] then 0 else f values)) ?_
  refine congrArg _ (funext fun values => ?_)
  cases values <;> rfl

/-- Of the built-in functions only the choice leaves arguments alone. -/
theorem eager_all (kernels : Kernels) : ∀ f ∈ all kernels, f.name ≠ some "if" → f.Eager := by
  simp only [all, List.forall_mem_cons]
  exact ⟨fun _ => eager_pointwise, fun _ => eager_pointwise, fun _ => eager_pointwise,
    fun _ => eager_pointwise, fun _ => eager_pointwise, fun _ => eager_pointwise,
    fun _ => eager_pointwise, fun _ => eager_pointwise, fun _ => eager_pointwise,
    fun _ => eager_pointwise, fun _ => eager_pointwise, fun _ => eager_pointwise,
    fun _ => eager_pointwise, fun _ => eager_pointwise, fun _ => eager_ofMany _,
    fun _ => eager_ofMany _, fun hname => absurd rfl hname, by simp⟩

end Builtin

/-- A tree without divisions, over eager built-in functions and groups. -/
structure Tree.Eager (kernels : Builtin.Kernels) (tree : Tree) : Prop where
  operators (op : BinaryOp) (left right : Tree) : binary op left right ∈ tree.walk →
    op.isDivision = false
  calls (f : Function) (args : List Tree) : call f args ∈ tree.walk → f.takes args.length = true ∧
    (f = Function.last ∨ f ∈ Builtin.all kernels ∧ f.name ≠ some "if")

namespace Tree.Eager

variable {kernels : Builtin.Kernels} {tree child : Tree} {f : Function} {args : List Tree}

theorem of_walk (h : tree.Eager kernels) (hchild : child.walk ⊆ tree.walk) :
    child.Eager kernels :=
  ⟨fun op left right hbinary => h.operators op left right (hchild hbinary),
    fun f args hcall => h.calls f args (hchild hcall)⟩

theorem inTurn (h : (call f args).Eager kernels) : f.InTurn args.length := by
  obtain ⟨htakes, rfl | ⟨hbuiltin, hname⟩⟩ := h.calls f args (by simp)
  · exact Function.eager_last args.length htakes
  · exact Builtin.eager_all kernels f hbuiltin hname args.length htakes

theorem contained (h : tree.Eager kernels) : tree.Contained := by
  intro f args hcall
  have hplain : f.Plain := by
    obtain ⟨-, rfl | ⟨hbuiltin, -⟩⟩ := h.calls f args hcall
    · exact Function.plain_last
    · exact Builtin.plain_all kernels f hbuiltin
  exact (hplain args.length (h.calls f args hcall).1).mono fun _ hdeed => hdeed.isOwn

end Tree.Eager

/-- What a node does with the values of its operands: the store in front, the value that it has,
and the store behind. -/
inductive Acts (site : Path) : Tree → List Float → Store → Float → Store → Prop
  | const (value : Float) (store : Store) : Acts site (.const value) [] store value store
  | var (cell : Cell) (store : Store) :
      Acts site (.var cell) [] store (store.values.read cell) store
  | unary {op : UnaryOp} {operand : Tree} {x value : Float} (store : Store) :
      op.apply x = .ok value → Acts site (.unary op operand) [x] store value store
  | binary {op : BinaryOp} {left right : Tree} {a b value : Float} (store : Store) :
      op.apply a b = .ok value → Acts site (.binary op left right) [a, b] store value store
  | assign (target : Cell) (operand : Tree) (x : Float) (store : Store) :
      Acts site (.assign target operand) [x] store x
        { store with values := store.values.write target x }
  | call {f : Function} {args : List Tree} {values : List Float} {store later : Store}
      {value : Float} : values.length = args.length →
      ((f.body args.length).run (values.map pure) site).run store = .ok value later →
      Acts site (.call f args) values store value later

/-- A node that has been evaluated, with its place and its value. -/
structure Step where
  place : Path × Tree
  value : Float

/-- Nodes one after the other, over a stack of values: each takes the values of its operands from
the stack and puts its own one there. -/
inductive Runs : List Step → Store → List Float → Store → List Float → Prop
  | nil (store : Store) (stack : List Float) : Runs [] store stack store stack
  | cons {site : Path} {node : Tree} {value : Float} {operands stack last : List Float}
      {steps : List Step} {store middle later : Store} :
      Acts site node operands store value middle →
      Runs steps middle (value :: stack) later last →
      Runs (⟨(site, node), value⟩ :: steps) store (operands.reverse ++ stack) later last

namespace Runs

variable {first second steps : List Step} {store middle later : Store}
  {stack between last operands : List Float} {site : Path} {node : Tree} {value : Float}

theorem append (h : Runs first store stack middle between)
    (hsecond : Runs second middle between later last) :
    Runs (first ++ second) store stack later last := by
  induction h with
  | nil => exact hsecond
  | cons hacts _ ih => exact .cons hacts (ih hsecond)

theorem split (h : Runs (first ++ second) store stack later last) :
    ∃ middle between, Runs first store stack middle between ∧
      Runs second middle between later last := by
  induction first generalizing store stack with
  | nil => exact ⟨store, stack, .nil store stack, h⟩
  | cons step first ih =>
    cases h with
    | cons hacts hrest =>
      obtain ⟨middle, between, hfirst, hsecond⟩ := ih hrest
      exact ⟨middle, between, .cons hacts hfirst, hsecond⟩

/-- A node behind the nodes of its operands. -/
theorem snoc {places : List (Path × Tree)}
    (h : Runs steps store stack middle (operands.reverse ++ between))
    (hplaces : steps.map Step.place = places) (hacts : Acts site node operands middle value later) :
    ∃ steps, Runs steps store stack later (value :: between) ∧
      steps.map Step.place = places ++ [(site, node)] := by
  refine ⟨steps ++ [⟨(site, node), value⟩], ?_, by simp [hplaces]⟩
  exact h.append (.cons hacts (.nil later (value :: between)))

end Runs

namespace Tree

variable {kernels : Builtin.Kernels}

mutual

/-- Evaluation of a tree goes through its nodes in post-order. -/
theorem evalAt_runs (path : Path) : (tree : Tree) → tree.Eager kernels → ∀ {store value later},
    (tree.evalAt path).run store = .ok value later → ∀ stack, ∃ steps,
      Runs steps store stack later (value :: stack) ∧
      steps.map Step.place = tree.postorder path
  | const constant, _, store, value, later, h, stack => by
    cases h
    exact (Runs.nil store stack).snoc rfl (.const constant store)
  | var cell, _, store, value, later, h, stack => by
    cases h
    exact (Runs.nil store stack).snoc rfl (.var cell store)
  | unary op operand, heager, store, value, later, h, stack => by
    obtain ⟨x, middle, hx, hresult⟩ := Eval.bind_ok h
    obtain ⟨happly, rfl⟩ := Eval.ofExcept_ok hresult
    obtain ⟨steps, hruns, hplaces⟩ :=
      evalAt_runs (0 :: path) operand (heager.of_walk (by simp)) hx stack
    exact hruns.snoc hplaces (.unary later happly)
  | binary op left right, heager, store, value, later, h, stack => by
    rw [evalAt, if_neg (by simp [heager.operators op left right])] at h
    obtain ⟨a, between, ha, hrest⟩ := Eval.bind_ok h
    obtain ⟨b, middle, hb, hresult⟩ := Eval.bind_ok hrest
    obtain ⟨happly, rfl⟩ := Eval.ofExcept_ok hresult
    obtain ⟨steps, hruns, hplaces⟩ :=
      evalAt_runs (0 :: path) left (heager.of_walk (by simp)) ha stack
    obtain ⟨more, hmore, hplacesMore⟩ :=
      evalAt_runs (1 :: path) right (heager.of_walk (by simp)) hb (a :: stack)
    have hboth : (steps ++ more).map Step.place =
        left.postorder (0 :: path) ++ right.postorder (1 :: path) := by
      rw [List.map_append, hplaces, hplacesMore]
    exact (hruns.append hmore).snoc hboth (.binary later happly)
  | assign target operand, heager, store, value, later, h, stack => by
    obtain ⟨x, middle, hx, hwrite⟩ := Eval.bind_ok h
    obtain ⟨steps, hruns, hplaces⟩ :=
      evalAt_runs (1 :: path) operand (heager.of_walk (by simp)) hx stack
    have hread : (middle.values.write target x).read target = x := by
      rw [Values.read_write, if_pos rfl]
    obtain ⟨_, written, hwritten, hvalue⟩ := Eval.bind_ok hwrite
    cases hwritten
    cases hvalue
    rw [hread]
    exact hruns.snoc hplaces (.assign target operand x middle)
  | call f args, heager, store, value, later, h, stack => by
    have hinTurn := heager.inTurn (argsFrom path 0 args) path (length_argsFrom path 0 args)
    rw [evalAt, hinTurn] at h
    obtain ⟨values, middle, hvalues, hbody⟩ := Eval.bind_ok h
    obtain ⟨steps, hruns, hplaces⟩ := argsFrom_runs path 0 args
      (fun arg harg => heager.of_walk (walk_subset_call harg)) hvalues stack
    have hlength : values.length = args.length := by
      rw [Eval.all_length hvalues, length_argsFrom]
    exact hruns.snoc hplaces (.call hlength hbody)

theorem argsFrom_runs (path : Path) (index : Nat) : (args : List Tree) →
    (∀ arg ∈ args, arg.Eager kernels) → ∀ {store values later},
    (Eval.all (argsFrom path index args)).run store = .ok values later → ∀ stack, ∃ steps,
      Runs steps store stack later (values.reverse ++ stack) ∧
      steps.map Step.place = postorderFrom path index args
  | [], _, store, values, later, h, stack => by
    cases h
    exact ⟨[], .nil store stack, rfl⟩
  | arg :: rest, heager, store, values, later, h, stack => by
    obtain ⟨value, middle, hvalue, hrest⟩ := Eval.bind_ok h
    obtain ⟨others, last, hothers, hpure⟩ := Eval.bind_ok hrest
    cases hpure
    obtain ⟨steps, hruns, hplaces⟩ :=
      evalAt_runs (index :: path) arg (heager arg (by simp)) hvalue stack
    obtain ⟨more, hmore, hplacesMore⟩ := argsFrom_runs path (index + 1) rest
      (fun other hother => heager other (by simp [hother])) hothers (value :: stack)
    rw [List.reverse_cons, List.append_assoc]
    exact ⟨steps ++ more, hruns.append hmore, by rw [List.map_append, hplaces, hplacesMore]; rfl⟩

end

end Tree

/-- All cells hold what they held. -/
def Store.SameValues (store later : Store) : Prop :=
  later.values = store.values

instance : IsPreorder Store Store.SameValues where
  refl _ := rfl
  trans _ _ _ h hlater := hlater.trans h

/-- The value that a node writes to a cell, if it is an assignment to that cell. -/
def Step.written? (cell : Cell) (step : Step) : Option Float :=
  match step.place.2 with
  | .assign target _ => if target.id = cell.id then some step.value else none
  | _ => none

/-- The values written to a cell, in order. -/
def written (cell : Cell) (steps : List Step) : List Float :=
  steps.filterMap (Step.written? cell)

section Cells

variable {steps before after : List Step} {step : Step} {store later : Store}
  {stack last operands : List Float} {site : Path} {node : Tree} {value : Float}

/-- Calls whose arguments have been evaluated write to no cell. -/
theorem Action.run_values {action : Action Float} {values : List Float}
    (h : (action.run (values.map pure) site).run store = .ok value later) :
    later.values = store.values := by
  have hargs : ∀ arg ∈ (values.map pure : List (Eval Float)),
      arg.Within Store.SameValues fun _ => True := by
    intro arg harg
    obtain ⟨x, -, rfl⟩ := List.mem_map.mp harg
    exact Eval.within_pure x
  have hkeep : ∀ key x, (Eval.keep site key x).Within Store.SameValues fun _ => True :=
    fun _ _ _ => rfl
  have hsteps := action.takes_within (values.map (pure : Float → Eval Float)).length hkeep
  have hwithin := (Action.within_run hsteps hargs).behind store
  rw [h] at hwithin
  exact hwithin

theorem Acts.read (h : Acts site node operands store value later) (cell : Cell) :
    later.values.read cell =
      ((Step.mk (site, node) value).written? cell).getD (store.values.read cell) := by
  cases h with
  | const | var | unary | binary => rfl
  | assign target operand =>
    show (store.values.write target value).read cell = _
    rw [Values.read_write]
    simp only [Step.written?, eq_comm]
    split <;> rfl
  | call hlength hbody =>
    rw [Action.run_values hbody]
    rfl

theorem Runs.read (h : Runs steps store stack later last) (cell : Cell) :
    later.values.read cell = (written cell steps).getLastD (store.values.read cell) := by
  induction h with
  | nil => rfl
  | @cons site node value operands stack last steps store middle later hacts _ ih =>
    rw [ih, hacts.read cell, written, written, List.filterMap_cons]
    cases (Step.mk (site, node) value).written? cell with
    | none => rfl
    | some x => exact (List.getLastD_cons ..).symm

/-- A variable has the value that was written to its cell last. -/
theorem Runs.leaf {cell : Cell} (h : Runs (before ++ step :: after) store stack later last)
    (hleaf : step.place.2 = .var cell) :
    step.value = (written cell before).getLastD (store.values.read cell) := by
  obtain ⟨middle, between, hbefore, hrest⟩ := h.split
  cases hrest with
  | cons hacts _ =>
    cases hleaf
    cases hacts
    exact hbefore.read cell

end Cells

/-- A tree without divisions, over eager built-in functions and groups, is evaluated node by node in
post-order, each node once. A cell then holds what was assigned to it last, or what it held, and so
does each variable where it stands in that order. -/
theorem eval_in_postorder (kernels : Builtin.Kernels) (tree : Tree) (heager : tree.Eager kernels)
    (store : Store) :
    (Tree.places (tree.postorder [])).Nodup ∧ Tree.Ordered (tree.postorder []) tree.walk ∧
    ∃ steps value later, tree.eval.run store = .ok value later ∧
      Runs steps store [] later [value] ∧ steps.map Step.place = tree.postorder [] ∧
      (∀ cell, later.values.read cell =
        (written cell steps).getLastD (store.values.read cell)) ∧
      ∀ before leaf after cell, steps = before ++ leaf :: after → leaf.place.2 = .var cell →
        leaf.value = (written cell before).getLastD (store.values.read cell) := by
  obtain ⟨value, later, hrun, -⟩ :=
    (Tree.evalAt_within [] tree heager.contained.isWithin).result store
  obtain ⟨steps, hruns, hplaces⟩ := Tree.evalAt_runs [] tree heager hrun []
  refine ⟨Tree.nodup_postorder [] tree, Tree.ordered_postorder [] tree, steps, value, later, hrun,
    hruns, hplaces, hruns.read, ?_⟩
  rintro before leaf after cell rfl hleaf
  exact hruns.leaf hleaf

/-- The right operand of a conjunction is evaluated although the left one is 0, and then read. -/
theorem eval_in_postorder_conjunction :
    let x : Cell := ⟨0, some "x"⟩
    let assigns : Tree := .binary .logicalAnd (.assign x (.const 0)) (.assign x (.const 2))
    let tree : Tree := .call Function.last [assigns, .var x]
    let store : Store := ⟨⟨[(0, 3)]⟩, .empty⟩
    tree.Eager .standard ∧ ∃ steps value later, tree.eval.run store = .ok value later ∧
      steps.map Step.place = tree.postorder [] ∧
      later.values.read x = (written x steps).getLastD (store.values.read x) := by
  intro x assigns tree store
  have heager : tree.Eager .standard := by
    refine ⟨?_, ?_⟩
    · intro op left right hbinary
      obtain ⟨rfl, -, -⟩ : op = .logicalAnd ∧ _ := by simpa [tree, assigns] using hbinary
      rfl
    · intro f args hcall
      obtain ⟨rfl, rfl⟩ : f = Function.last ∧ args = [assigns, .var x] := by
        simpa [tree, assigns] using hcall
      exact ⟨rfl, .inl rfl⟩
  obtain ⟨-, -, steps, value, later, hrun, -, hplaces, hcells, -⟩ :=
    eval_in_postorder .standard tree heager store
  exact ⟨heager, steps, value, later, hrun, hplaces, hcells x⟩

end Formula
