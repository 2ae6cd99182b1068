import Formula.Builtin.Kernels
import Formula.Proofs.CallsInTrees
import Formula.Proofs.GuardedEvaluation
import Formula.Proofs.PlainFunctions
import Formula.Proofs.Tokenizing

namespace Formula

open Formula.Parser

/-- Nothing is said of the store behind. -/
def Store.Any (_ _ : Store) : Prop :=
  True

instance : IsPreorder Store Store.Any where
  refl _ := trivial
  trans _ _ _ _ _ := trivial

/-- Evaluation that has a result over every store. -/
abbrev Eval.Total {α : Type} (x : Eval α) : Prop :=
  x.Within Store.Any fun _ => False

namespace Tree

variable {functions : Functions}

/-- The functions that a tree calls ask for arguments that they are given, use environments of their
own, and do not fail. -/
def Contained (tree : Tree) : Prop :=
  ∀ f args, call f args ∈ tree.walk → (f.body args.length).Takes (Deed.IsOwn args.length)

theorem Callable.takes_arguments (hplain : ∀ key f, functions.find? key = some f → f.Plain)
    {tree : Tree} (h : tree.Callable functions) {f : Function} {args : List Tree}
    (hcall : call f args ∈ tree.walk) :
    (f.body args.length).Takes (Deed.IsArgument args.length) := by
  have hadmissible := h f args hcall
  have hf : f.Plain := by
    rcases hadmissible.known with rfl | ⟨key, hkey⟩
    · exact Function.plain_last
    · exact hplain key f hkey
  exact hf args.length hadmissible.takes

theorem Callable.contained (hplain : ∀ key f, functions.find? key = some f → f.Plain)
    {tree : Tree} (h : tree.Callable functions) : tree.Contained :=
  fun _ _ hcall => (h.takes_arguments hplain hcall).mono fun _ hdeed => hdeed.isOwn

/-- The steps of contained functions meet no fault, and what they keep is their own. -/
theorem Contained.isWithin {tree : Tree} (h : tree.Contained) :
    tree.IsWithin Store.Any fun _ => False where
  write _ _ _ _ _ := trivial
  calls f args hcall site := by
    refine (h f args hcall).mono fun deed hdeed => ?_
    cases deed with
    | argument => exact .inl hdeed
    | fetch => trivial
    | keep => exact fun _ => trivial
    | fail => exact hdeed.elim

/-- What may be done with a formula over time. Anyone may write its cells. -/
inductive Use where
  | evaluate
  | write (cell : Cell) (value : Float)

/-- Uses a tree once, and lists the value if there is one. -/
def use (tree : Tree) : Use → Eval (List Float)
  | .evaluate => do return [← tree.eval]
  | .write cell value => do
    Eval.write cell value
    return []

/-- Uses a tree some times in turn, and lists the values. -/
def useAll (tree : Tree) : List Use → Eval (List Float)
  | [] => return []
  | first :: rest => do
    let values ← tree.use first
    return values ++ (← tree.useAll rest)

theorem use_total {tree : Tree} (h : tree.eval.Total) (use : Use) : (tree.use use).Total := by
  cases use with
  | evaluate => exact h.bind fun value => Eval.within_pure [value]
  | write cell value =>
    have hwrite : (Eval.write cell value).Total := fun _ => trivial
    exact hwrite.bind fun _ => Eval.within_pure []

theorem useAll_total {tree : Tree} (h : tree.eval.Total) (uses : List Use) :
    (tree.useAll uses).Total := by
  induction uses with
  | nil => exact Eval.within_pure []
  | cons first rest ih =>
    exact (use_total h first).bind fun _ => ih.bind fun _ => Eval.within_pure _

end Tree

/-- Formulas over the built-in functions have a value over every store. -/
theorem eval_total {kernels : Builtin.Kernels} {vars : Variables} {text : String} {tree : Tree}
    (h : (parse (Builtin.table kernels) vars text).outcome = .ok tree) : tree.eval.Total :=
  Tree.evalAt_within [] tree ((parse_callable h).contained fun _ _ => Builtin.plain_table).isWithin

theorem parse_ne_fault (functions : Functions) (vars : Variables) (text : String) (fault : Fault) :
    (parse functions vars text).outcome ≠ .error (.fault fault) := by
  cases htokens : tokenize text with
  | error error => simp [parse, ParserState.parseText, htokens]
  | ok tokens =>
    rw [parse_outcome htokens]
    cases Nesting.readFormula functions vars tokens <;> simp [Except.mapError]

/-- Over the built-in functions only what tokenizing or parsing refuses has no value. -/
theorem evaluate_ne_fault (kernels : Builtin.Kernels) (vars : Variables) (text : String)
    (fault : Fault) : (evaluate (Builtin.table kernels) vars text).1 ≠ .error (.fault fault) := by
  rw [evaluate, Attempt.evaluate]
  cases h : (parse (Builtin.table kernels) vars text).outcome with
  | error failure =>
    rintro ⟨⟩
    exact absurd h (parse_ne_fault _ _ _ fault)
  | ok tree =>
    obtain ⟨value, later, hrun, -⟩ := (eval_total h).result
      ⟨(parse (Builtin.table kernels) vars text).parser.variables.values, .empty⟩
    simp [evaluateOnce, hrun, Eval.outcome, Except.mapError]

/-- A formula over the built-in functions that has been parsed is evaluated without a fault as often
as one likes, over whatever store and with any cells written to any values in between. What the
kernels compute makes no difference. -/
theorem useAll_succeeds (kernels : Builtin.Kernels) (vars : Variables) (text : String) (tree : Tree)
    (h : (parse (Builtin.table kernels) vars text).outcome = .ok tree) (uses : List Tree.Use)
    (store : Store) : ∃ values later, (tree.useAll uses).run store = .ok values later := by
  obtain ⟨values, later, hrun, -⟩ := (Tree.useAll_total (eval_total h) uses).result store
  exact ⟨values, later, hrun⟩

theorem tokenize_smoothstep : tokenize "y=smoothstep(x,y,√x)" =
    .ok [⟨.identifier, "y"⟩, .ofOperator .assign, ⟨.identifier, "smoothstep"⟩, .opening,
      ⟨.identifier, "x"⟩, .comma, ⟨.identifier, "y"⟩, .comma, .ofOperator (.unary .sqrt),
      ⟨.identifier, "x"⟩, .closing] := by
  refine tokenize_iff.mpr ⟨?_, ?_, ?_⟩
  · have assign : Token.FitsWhere false (.ofOperator .assign) := Token.ofOperator_fitsWhere.mpr rfl
    have root : Token.FitsWhere true (.ofOperator (.unary .sqrt)) :=
      Token.ofOperator_fitsWhere.mpr trivial
    exact adjoinedFrom_cons.mpr ⟨rfl, adjoinedFrom_cons.mpr ⟨assign, adjoinedFrom_cons.mpr ⟨rfl,
      adjoinedFrom_cons.mpr ⟨trivial, adjoinedFrom_cons.mpr ⟨rfl, adjoinedFrom_cons.mpr ⟨trivial,
      adjoinedFrom_cons.mpr ⟨rfl, adjoinedFrom_cons.mpr ⟨trivial, adjoinedFrom_cons.mpr ⟨root,
      adjoinedFrom_cons.mpr ⟨rfl, adjoinedFrom_cons.mpr ⟨trivial, adjoinedFrom_nil _⟩⟩⟩⟩⟩⟩⟩⟩⟩⟩⟩
  · have hx : Lexer.IsIdentifier "x".toList := ⟨by decide, by simp⟩
    have hy : Lexer.IsIdentifier "y".toList := ⟨by decide, by simp⟩
    have hstep : Lexer.IsIdentifier "smoothstep".toList :=
      ⟨by decide, List.all_eq_true.mp (by decide)⟩
    intro t ht
    simp only [List.mem_cons, List.not_mem_nil, or_false] at ht
    rcases ht with rfl | rfl | rfl | rfl | rfl | rfl | rfl | rfl | rfl | rfl | rfl
    · exact hy
    · exact ⟨.assign, rfl⟩
    · exact hstep
    · rfl
    · exact hx
    · rfl
    · exact hy
    · rfl
    · exact ⟨.unary .sqrt, rfl⟩
    · exact hx
    · rfl
  · exact .token _ (.token _ (.token _ (.token _ (.token _ (.token _ (.token _ (.token _ (.token _
      (.token _ (.token _ .nil))))))))))

/-- Both edges of the step are infinite in the second evaluation. -/
theorem useAll_succeeds_smoothstep : ∃ tree,
    (parse (Builtin.table .standard) .empty "y=smoothstep(x,y,√x)").outcome = .ok tree ∧
    ∃ values later, (tree.useAll [.evaluate, .write ⟨0, some "y"⟩ Double.infinity,
      .write ⟨1, some "x"⟩ Double.infinity, .evaluate]).run ⟨.empty, .empty⟩ =
        .ok values later := by
  obtain ⟨tree, htree⟩ : ∃ tree,
      (parse (Builtin.table .standard) .empty "y=smoothstep(x,y,√x)").outcome = .ok tree := by
    rw [parse_outcome tokenize_smoothstep]
    exact ⟨_, rfl⟩
  exact ⟨tree, htree, useAll_succeeds .standard .empty _ tree htree _ _⟩

end Formula
