import Formula.Proofs.AlikeEvaluation

namespace Formula

/-- Evaluates in turn and lists the values. -/
def Eval.all : List (Eval Float) → Eval (List Float)
  | [] => return []
  | x :: rest => do
    let value ← x
    return value :: (← Eval.all rest)

/-- Evaluating arguments from a position on. -/
theorem Action.run_evalFrom {α : Type} {args : List (Eval Float)} {site : Path} {count index : Nat}
    (k : List Float → Action α) (h : index + count = args.length) :
    (Action.evalFrom index count >>= k).run args site =
      Eval.all (args.drop index) >>= fun values => (k values).run args site := by
  induction count generalizing index k with
  | zero =>
    rw [List.drop_eq_nil_of_le (by omega)]
    rfl
  | succ count ih =>
    have hindex : index < args.length := by omega
    rw [evalFrom_succ, Action.run, List.getElem?_eq_getElem hindex,
      List.drop_eq_getElem_cons hindex]
    simp only [ih _ (by omega : index + 1 + count = args.length), Eval.all, bind_assoc, pure_bind]

theorem last_run (args : List (Eval Float)) (site : Path) :
    (Function.last.body args.length).run args site =
      Eval.all args >>= fun values => pure (values.getLast?.getD 0) :=
  Action.run_evalFrom (fun values => .done (values.getLast?.getD 0)) (by simp)

/-- A result over the values of cells alone. -/
def valuesResult {α : Type} : EStateM.Result Fault Store α → EStateM.Result Fault Values α
  | .ok a store => .ok a store.values
  | .error fault store => .error fault store.values

/-- Evaluates a tree as if it were new: its calls have kept nothing. -/
def Tree.evaluateNew (tree : Tree) : EStateM Fault Values Float :=
  fun values => valuesResult (tree.eval.run ⟨values, .empty⟩)

theorem Tree.run_evaluateNew (tree : Tree) (values : Values) :
    tree.evaluateNew.run values = valuesResult (tree.eval.run ⟨values, .empty⟩) :=
  rfl

/-- The outcome of an evaluation over variables, from its result over their values. -/
def outcomeOver (vars : Variables) :
    EStateM.Result Fault Values Float → Except Failure Float × Variables
  | .ok value values => (.ok value, { vars with values := values })
  | .error fault values => (.error (.fault fault), { vars with values := values })

theorem evaluateOnce_eq (tree : Tree) (vars : Variables) :
    evaluateOnce tree vars = outcomeOver vars (tree.evaluateNew.run vars.values) := by
  rw [evaluateOnce, Tree.run_evaluateNew]
  cases tree.eval.run ⟨vars.values, .empty⟩ <;> rfl

/-- Evaluates trees in turn, each as if it were new, to the value of the last one. -/
def evaluateEach (last : Float) : List Tree → EStateM Fault Values Float
  | [] => return last
  | tree :: rest => do
    evaluateEach (← tree.evaluateNew) rest

theorem evaluateEach_append (last : Float) (first second : List Tree) :
    evaluateEach last (first ++ second) =
      evaluateEach last first >>= fun value => evaluateEach value second := by
  induction first generalizing last with
  | nil => rfl
  | cons tree rest ih =>
    simp only [List.cons_append, evaluateEach, ih, bind_assoc]

/-- The value in front of trees is lost, if there is one of them. -/
theorem evaluateEach_of_ne_nil {entries : List Tree} (h : entries ≠ []) (last other : Float) :
    evaluateEach last entries = evaluateEach other entries := by
  obtain ⟨tree, rest, rfl⟩ := List.exists_cons_of_ne_nil h
  rfl

section Alike

variable {bound index : Nat} {values values' : Values} {memory : Memory} {tree : Tree}
  {entries : List Tree}

theorem ResultRelated.forget {α : Type} {place place' : Path} {kept : Memory}
    {x y : EStateM.Result Fault Store α}
    (h : ResultRelated (Store.Alike bound place place' kept) x y) :
    ResultRelated (Values.Alike bound) (valuesResult x) (valuesResult y) := by
  cases h with
  | fault fault hstores => exact .fault fault hstores.values
  | value a hstores => exact .value a hstores.values

theorem evaluateNew_alike (htree : tree.Below bound) (h : values.Alike bound values') :
    ResultRelated (Values.Alike bound) (tree.evaluateNew.run values)
      (tree.evaluateNew.run values') := by
  have hstores : Store.Alike bound [] [] .empty ⟨values, .empty⟩ ⟨values', .empty⟩ :=
    ⟨h, fun _ => rfl, fun _ _ => rfl⟩
  exact (Tree.evalAt_alike [] tree htree _ _ hstores).forget

/-- No call at or under a place has kept anything. -/
def Memory.New (memory : Memory) (place : Path) : Prop :=
  ∀ path, memory.environment (path ++ place) = .empty

/-- An entry of a call is evaluated like a tree of its own, and leaves other entries new. -/
theorem evalAt_entry (htree : tree.Below bound) (h : values.Alike bound values')
    (hnew : memory.New [index]) :
    ResultRelated (Store.Alike bound [index] [] memory)
      ((tree.evalAt [index]).run ⟨values, memory⟩) (tree.eval.run ⟨values', .empty⟩) :=
  Tree.evalAt_alike [] tree htree _ _ ⟨h, hnew, fun _ _ => rfl⟩

theorem Store.Alike.new {s s' : Store} {other : Nat} (h : s.Alike bound [index] [] memory s')
    (hother : other ≠ index) (hnew : memory.New [other]) : s.memory.New [other] := by
  intro path
  have hplace : ¬ [index] <:+ path ++ [other] := by
    rintro ⟨before, hbefore⟩
    exact hother (List.cons.inj (List.append_inj_right' hbefore rfl)).1.symm
  rw [h.other _ hplace, hnew path]

/-- The last value of several is the last one behind the first, or the first one. -/
theorem Eval.last_all_cons (last : Float) (x : Eval Float) (rest : List (Eval Float)) :
    (do return (← Eval.all (x :: rest)).getLast?.getD last) =
      x >>= fun a => do return (← Eval.all rest).getLast?.getD a := by
  simp only [Eval.all, bind_assoc, pure_bind, List.getLast?_cons, Option.getD_some]

/-- Entries of a call are evaluated like trees of their own, one after the other. -/
theorem all_entries (last : Float) (hentries : ∀ tree ∈ entries, tree.Below bound)
    (h : values.Alike bound values') (hnew : ∀ other, index ≤ other → memory.New [other]) :
    ResultRelated (Values.Alike bound)
      (valuesResult (EStateM.run (do
        return (← Eval.all (Tree.argsFrom [] index entries)).getLast?.getD last) ⟨values, memory⟩))
      ((evaluateEach last entries).run values') := by
  induction entries generalizing index last values values' memory with
  | nil => exact .value last h
  | cons tree rest ih =>
    have hfirst := evalAt_entry (hentries tree (by simp)) h (hnew index (Nat.le_refl _))
    rw [Tree.argsFrom, Eval.last_all_cons, EStateM.run_bind, evaluateEach, EStateM.run_bind,
      Tree.run_evaluateNew]
    generalize (tree.evalAt [index]).run ⟨values, memory⟩ = first at hfirst
    generalize tree.eval.run ⟨values', .empty⟩ = first' at hfirst
    cases hfirst with
    | fault fault hstores => exact .fault fault hstores.values
    | @value a s s' hmiddle =>
      have hlater : ∀ other, index + 1 ≤ other → s.memory.New [other] := fun other hother =>
        hmiddle.new (by omega) (hnew other (by omega))
      have hbelow : ∀ tree ∈ rest, tree.Below bound := fun other hother =>
        hentries other (by simp [hother])
      exact ih a hbelow hmiddle.values hlater

/-- The tree of a group does what its entries do one after the other. -/
theorem evaluateNew_ofGroup (hentries : ∀ tree ∈ entries, tree.Below bound)
    (h : values.Alike bound values') :
    ResultRelated (Values.Alike bound) ((Tree.ofGroup entries).evaluateNew.run values)
      ((evaluateEach 0 entries).run values') := by
  rcases entries with _ | ⟨tree, _ | ⟨second, rest⟩⟩
  · exact .value 0 h
  · have halone : evaluateEach 0 [tree] = tree.evaluateNew := by
      simp only [evaluateEach, bind_pure]
    rw [halone]
    exact evaluateNew_alike (hentries tree (by simp)) h
  · have hgroup : (Tree.ofGroup (tree :: second :: rest)).eval = do
        return (← Eval.all (Tree.argsFrom [] 0 (tree :: second :: rest))).getLast?.getD 0 := by
      have hrun := last_run (Tree.argsFrom [] 0 (tree :: second :: rest)) []
      rw [Tree.length_argsFrom] at hrun
      exact hrun
    have hnew : ∀ other, 0 ≤ other → Memory.New .empty [other] := fun _ _ _ => rfl
    have hall := all_entries 0 hentries h hnew
    rw [← hgroup] at hall
    exact hall

end Alike

end Formula
