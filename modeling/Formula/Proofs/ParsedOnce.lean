import Formula.Session
import Formula.Proofs.FaultlessEvaluation
import Formula.Proofs.MappedRuns
import Formula.Proofs.RelatedEvaluation

namespace Formula

open Formula.Parser

/-- Writing to a key the value that it has changes nothing. -/
theorem Table.insert_of_find? {α β : Type} [DecidableEq α] {t : Table α β} {key : α} {value : β}
    (h : t.find? key = some value) : t.insert key value = t := by
  obtain ⟨entries⟩ := t
  simp only [find?, insert, mk.injEq] at h ⊢
  induction entries with
  | nil => simp at h
  | cons entry rest ih =>
    obtain ⟨k, v⟩ := entry
    by_cases hkey : k = key
    · subst hkey
      simp only [List.lookup_cons_self, Option.some.injEq] at h
      simp [insertEntry, h]
    · have hne : (key == k) = false := by simpa using Ne.symm hkey
      simp only [List.lookup_cons, hne] at h
      simp [insertEntry, hkey, ih h]

section Texts

variable {functions : Functions} {vars later : Variables} {text : String} {tree : Tree}

/-- Whether it fails or not, a parse leaves all names with their cells. -/
theorem parse_keeps (functions : Functions) (vars : Variables) (text : String) :
    CellsKept vars.cells (parse functions vars text).parser.variables.cells := by
  cases htokens : tokenize text with
  | error error =>
    simp only [parse, ParserState.parseText, htokens]
    exact .refl _
  | ok tokens =>
    obtain ⟨before, n, hbefore, hleft⟩ := parseTokens_left functions vars tokens
    rw [parse_of_tokenize htokens, hleft]
    exact Nesting.acceptAll_keeps hbefore

theorem evaluate_keeps (functions : Functions) (vars : Variables) (text : String) :
    CellsKept vars.cells (evaluate functions vars text).2.cells := by
  have hkept := parse_keeps functions vars text
  rw [evaluate, Attempt.evaluate]
  split
  · exact hkept
  · exact hkept

/-- A text that has been accepted gives the same tree over all later variables, and makes no more
cells. -/
theorem parse_again (h : (parse functions vars text).outcome = .ok tree)
    (hkept : CellsKept (parse functions vars text).parser.variables.cells later.cells) :
    (parse functions later text).outcome = .ok tree ∧
      (parse functions later text).parser.variables = later := by
  rw [parse_vars h] at hkept
  have hknown : later.resolveAll (namesInText functions text) = later := by
    refine Variables.resolveAll_of_known fun name hname => ?_
    obtain ⟨cell, hcell⟩ := vars.exists_cell_of_mem hname
    exact ⟨cell, hkept name cell hcell⟩
  have hcells : (vars.resolveAll (namesInText functions text)).MappedTo
      (namesInText functions text) id (later.resolveAll (namesInText functions text)) := by
    rw [hknown]
    exact fun name _ => hkept name
  have hagain := parse_over h hcells
  rw [Tree.mapCells_id] at hagain
  exact ⟨hagain, (parse_vars hagain).trans hknown⟩

end Texts

/-- No function of the map uses its environment. -/
def StatelessFunctions (functions : Functions) : Prop :=
  ∀ key f, functions.find? key = some f → f.Stateless

theorem Builtin.stateless_table (kernels : Kernels) : StatelessFunctions (table kernels) :=
  fun _ _ h => (plain_table h).stateless

namespace Tree

/-- No call in the tree uses its environment. -/
def Stateless (tree : Tree) : Prop :=
  ∀ f args, call f args ∈ tree.walk → (f.body args.length).Takes Deed.IsStateless

variable {tree : Tree} {functions : Functions}

theorem Callable.stateless (h : tree.Callable functions)
    (hfunctions : StatelessFunctions functions) : tree.Stateless := by
  intro f args hcall
  obtain ⟨htakes, hknown⟩ := h f args hcall
  rcases hknown with rfl | ⟨key, hkey⟩
  · exact Function.plain_last.stateless _ htakes
  · exact hfunctions key f hkey _ htakes

/-- Equal stores with these environments. -/
def SameWith (memory : Memory) (s s' : Store) : Prop :=
  s = s' ∧ s.memory = memory

theorem sitesRelated_sameWith (memory : Memory) (path : Path) :
    Eval.SitesRelated (SameWith memory) Deed.IsStateless path path :=
  ⟨fun _ hfetch => hfetch.elim, fun _ _ hkeep => hkeep.elim⟩

theorem cellsRelated_sameWith (memory : Memory) (cell : Cell) :
    Eval.CellsRelated (SameWith memory) cell cell := by
  refine ⟨?_, fun value => ?_⟩
  · rintro s _ ⟨rfl, hs⟩
    exact .value _ ⟨rfl, hs⟩
  · rintro s _ ⟨rfl, hs⟩
    exact .value () ⟨rfl, hs⟩

/-- Evaluation of a tree without state leaves all environments as they are. -/
theorem Stateless.memory (h : tree.Stateless) (times : Nat) (vars : Variables) (memory : Memory) :
    (tree.evaluation times vars memory).memory = memory := by
  have hrelated : tree.RelatedBy (SameWith memory) Deed.IsStateless id id :=
    ⟨fun _ _ => cellsRelated_sameWith _ _, h⟩
  have hboth := evalTimes_related (sitesRelated_sameWith _) hrelated times ⟨vars.values, memory⟩
    ⟨vars.values, memory⟩ ⟨rfl, rfl⟩
  rw [mapCells_id] at hboth
  unfold evaluation
  cases hrun : (tree.evalTimes times).run ⟨vars.values, memory⟩ with
  | ok values later =>
    rw [hrun] at hboth
    cases hboth with
    | value _ hlater => exact hlater.2
  | error fault left =>
    rw [hrun] at hboth
    cases hboth with
    | fault _ hleft => exact hleft.2

/-- One evaluation, with its value in a list. -/
theorem evaluation_one (tree : Tree) (vars : Variables) (memory : Memory) :
    let result := tree.eval.run ⟨vars.values, memory⟩
    tree.evaluation 1 vars memory = ⟨(Eval.outcome result).map ([·]),
      { vars with values := (Eval.behind result).values }, (Eval.behind result).memory⟩ := by
  simp only [evaluation, evalTimes, EStateM.run_bind]
  cases tree.eval.run ⟨vars.values, memory⟩ <;> rfl

end Tree

/-- Whether a request leaves a formula and the names of cells alone. Names may come in addition. -/
def Request.Leaves (formula : String) : Request → Prop
  | .parse other _ => other ≠ formula
  | .remove _ | .share .. | .useFunctions _ => False
  | .evaluate _ | .eval .. | .environments _ | .walk _ | .shown _ | .set .. | .get _ => True

/-- Asks for the text to be parsed and evaluated where an evaluation of the formula is asked for. -/
def Request.afresh (formula text : String) : Request → Request
  | .eval other times =>
    if other = formula ∧ times = 1 then .evaluate text else .eval other times
  | request => request

/-- The same answer, but for one value that is in a list of its own. -/
inductive Answer.Agrees : Answer → Answer → Prop
  | same (answer : Answer) : Agrees answer answer
  | value (value : Float) : Agrees (.values [value]) (.value value)

namespace Session

/-- The session keeps a formula as new, and parsing its text would give the same tree and make no
cell. -/
structure Holds (formula text : String) (tree : Tree) (s : Session) : Prop where
  kept : s.formulas.find? formula = some ⟨tree, .empty⟩
  parses : (Formula.parse s.functions s.variables text).outcome = .ok tree
  known : (Formula.parse s.functions s.variables text).parser.variables = s.variables
  stateless : tree.Stateless

variable {s : Session} {formula text : String} {tree : Tree} {later : Variables}

theorem Holds.over (h : s.Holds formula text tree)
    (hkept : CellsKept s.variables.cells later.cells) :
    Holds formula text tree { s with «variables» := later } := by
  have hagain := parse_again h.parses (by rwa [h.known])
  exact ⟨h.kept, hagain.1, hagain.2, h.stateless⟩

/-- Another formula may be kept, and the same one as it was. -/
theorem Holds.keep (h : s.Holds formula text tree) {other : String} {kept : KeptFormula}
    (hkept : other = formula → kept = ⟨tree, .empty⟩) :
    Holds formula text tree { s with formulas := s.formulas.insert other kept } := by
  refine ⟨?_, h.parses, h.known, h.stateless⟩
  rw [Table.find?_insert]
  split
  next hsame => rw [hkept hsame.symm]
  next => exact h.kept

theorem Holds.withFormula (h : s.Holds formula text tree) {other : String}
    {answer : KeptFormula → Answer × Session}
    (hanswer : ∀ kept, s.formulas.find? other = some kept →
      (answer kept).2.Holds formula text tree) :
    (s.withFormula other answer).2.Holds formula text tree := by
  rw [Session.withFormula]
  split
  next kept hkept => exact hanswer kept hkept
  next => exact h

theorem Holds.withCell (h : s.Holds formula text tree) {name : String}
    {answer : Cell → Answer × Session}
    (hanswer : ∀ cell, (answer cell).2.Holds formula text tree) :
    (s.withCell name answer).2.Holds formula text tree := by
  rw [Session.withCell]
  split
  · exact hanswer _
  · exact h

theorem Holds.parse (h : s.Holds formula text tree) {other : String} (hother : other ≠ formula)
    (text' : String) : (s.parse other text').2.Holds formula text tree := by
  have hover := h.over (parse_keeps s.functions s.variables text')
  rw [Session.parse]
  split
  · exact hover.keep fun hsame => absurd hsame hother
  · exact hover

theorem Holds.evaluate (h : s.Holds formula text tree) (text' : String) :
    (s.evaluate text').2.Holds formula text tree := by
  have hover := h.over (evaluate_keeps s.functions s.variables text')
  rw [Session.evaluate]
  split
  all_goals
    next heq =>
      rw [heq] at hover
      exact hover

theorem Holds.eval (h : s.Holds formula text tree) {other : String} (times : Nat)
    {kept : KeptFormula} (hkept : s.formulas.find? other = some kept) :
    (s.eval other times kept).2.Holds formula text tree := by
  have hover : Holds formula text tree
      { s with «variables» := (kept.tree.evaluation times s.variables kept.memory).variables } :=
    h.over (.refl _)
  apply hover.keep
  rintro rfl
  obtain rfl : kept = ⟨tree, .empty⟩ := Option.some.inj (hkept.symm.trans h.kept)
  rw [h.stateless.memory]

theorem Holds.step (h : s.Holds formula text tree) {request : Request}
    (hrequest : request.Leaves formula) : (s.step request).2.Holds formula text tree := by
  cases request with
  | parse other text' => exact h.parse hrequest text'
  | evaluate text' => exact h.evaluate text'
  | eval other times => exact h.withFormula fun _ hkept => h.eval times hkept
  | environments other | walk other | shown other => exact h.withFormula fun _ _ => h
  | get name => exact h.withCell fun _ => h
  | set name value => exact h.withCell fun _ => h.over (.refl _)
  | remove | share | useFunctions => exact hrequest.elim

/-- Parsing and evaluating the text anew answers like the formula that is kept, and leaves the same
session. -/
theorem Holds.eval_afresh (h : s.Holds formula text tree) :
    (s.eval formula 1 ⟨tree, .empty⟩).1.Agrees (s.evaluate text).1 ∧
      (s.eval formula 1 ⟨tree, .empty⟩).2 = (s.evaluate text).2 := by
  have hformulas : s.formulas.insert formula
      ⟨tree, (tree.evaluation 1 s.variables .empty).memory⟩ = s.formulas := by
    rw [h.stateless.memory, Table.insert_of_find? h.kept]
  simp only [Session.eval, hformulas]
  rw [Tree.evaluation_one, Session.evaluate, Formula.evaluate, Attempt.evaluate, h.parses, h.known]
  simp only [evaluateOnce]
  cases tree.eval.run ⟨s.variables.values, .empty⟩ with
  | error fault left => exact ⟨.same _, rfl⟩
  | ok value later => exact ⟨.value value, rfl⟩

theorem Holds.step_afresh (h : s.Holds formula text tree) (request : Request) :
    (s.step request).1.Agrees (s.step (request.afresh formula text)).1 ∧
      (s.step request).2 = (s.step (request.afresh formula text)).2 := by
  cases request with
  | eval other times =>
    simp only [Request.afresh]
    split
    next hsame =>
      obtain ⟨rfl, rfl⟩ := hsame
      simpa only [Session.step, Session.withFormula, h.kept] using h.eval_afresh
    next => exact ⟨.same _, rfl⟩
  | _ => exact ⟨.same _, rfl⟩

theorem run_cons (s : Session) (request : Request) (rest : List Request) :
    s.run (request :: rest) = s.step request :: (s.step request).2.run rest :=
  rfl

theorem Holds.run_alike (h : s.Holds formula text tree) {requests : List Request}
    (hrequests : ∀ request ∈ requests, request.Leaves formula) :
    List.Forall₂ (fun cached fresh => cached.1.Agrees fresh.1 ∧ cached.2 = fresh.2)
      (s.run requests) (s.run (requests.map (Request.afresh formula text))) := by
  induction requests generalizing s with
  | nil => exact .nil
  | cons request rest ih =>
    obtain ⟨hrequest, hrest⟩ := List.forall_mem_cons.mp hrequests
    have hfirst := h.step_afresh request
    have hlater := ih (h.step hrequest) hrest
    rw [List.map_cons, run_cons, run_cons, ← hfirst.2]
    exact .cons hfirst hlater

/-- A formula that has just been parsed is held, if the functions that it calls have no state. -/
theorem holds_parse (hfunctions : StatelessFunctions s.functions)
    (h : (Formula.parse s.functions s.variables text).outcome = .ok tree) (formula : String) :
    (s.parse formula text).2.Holds formula text tree := by
  have hagain := parse_again h (.refl _)
  rw [Session.parse, h]
  exact ⟨Table.find?_insert_self _ _ _, hagain.1, hagain.2, (parse_callable h).stateless hfunctions⟩

/-- A formula over functions without state may be parsed once: whatever is requested afterwards, as
long as no name loses its cell, its evaluations have the values that the text has when it is parsed
anew each time, and the session goes the same way. -/
theorem run_afresh (s : Session) (formula text : String) (tree : Tree) (requests : List Request)
    (hfunctions : (∃ kernels, s.functions = Builtin.table kernels) ∨
      StatelessFunctions s.functions)
    (haccepted : (Formula.parse s.functions s.variables text).outcome = .ok tree)
    (hrequests : ∀ request ∈ requests, request.Leaves formula) :
    let kept := (s.parse formula text).2
    List.Forall₂ (fun cached fresh => cached.1.Agrees fresh.1 ∧ cached.2 = fresh.2)
      (kept.run requests) (kept.run (requests.map (Request.afresh formula text))) := by
  have hstateless : StatelessFunctions s.functions := by
    rcases hfunctions with ⟨kernels, hbuiltin⟩ | hstateless
    · exact hbuiltin ▸ Builtin.stateless_table kernels
    · exact hstateless
  exact (holds_parse hstateless haccepted formula).run_alike hrequests

/-- In between `x` is written, and another formula writes `y`. -/
theorem run_afresh_smoothstep : ∃ tree,
    let s := start Builtin.functions .empty
    let requests : List Request :=
      [.eval "step" 1, .set "x" 2, .parse "other" "y=x", .eval "other" 3, .eval "step" 1]
    ((∃ kernels, s.functions = Builtin.table kernels) ∨ StatelessFunctions s.functions) ∧
    (Formula.parse s.functions s.variables "y=smoothstep(x,y,√x)").outcome = .ok tree ∧
    (∀ request ∈ requests, request.Leaves "step") ∧
    let kept := (s.parse "step" "y=smoothstep(x,y,√x)").2
    List.Forall₂ (fun cached fresh => cached.1.Agrees fresh.1 ∧ cached.2 = fresh.2)
      (kept.run requests)
      (kept.run (requests.map (Request.afresh "step" "y=smoothstep(x,y,√x)"))) := by
  obtain ⟨tree, htree⟩ : ∃ tree,
      (Formula.parse Builtin.functions .empty "y=smoothstep(x,y,√x)").outcome = .ok tree := by
    rw [parse_outcome tokenize_smoothstep]
    exact ⟨_, rfl⟩
  have hrequests : ∀ request ∈ ([.eval "step" 1, .set "x" 2, .parse "other" "y=x",
      .eval "other" 3, .eval "step" 1] : List Request), request.Leaves "step" := by
    simp [Request.Leaves]
  have hbuiltin : ∃ kernels, Builtin.functions = Builtin.table kernels := ⟨.standard, rfl⟩
  exact ⟨tree, .inl hbuiltin, htree, hrequests,
    run_afresh (start Builtin.functions .empty) "step" _ tree _ (.inl hbuiltin) htree hrequests⟩

end Session

end Formula
