import Formula.Proofs.MappedRuns
import Formula.Proofs.RelatedEvaluation
import Formula.Proofs.Sequences

namespace Formula

open Formula.Parser

namespace Tree

theorem mem_variableNames {tree : Tree} {name : String} :
    name ∈ tree.variableNames ↔ ∃ cell, var cell ∈ tree.walk ∧ cell.name = some name := by
  simp only [variableNames, List.mem_mergeSort, List.mem_eraseDups, List.mem_filterMap]
  constructor
  · rintro ⟨node, hnode, hname⟩
    split at hname
    next cell => exact ⟨cell, hnode, hname⟩
    next => cases hname
  · rintro ⟨cell, hcell, hname⟩
    exact ⟨var cell, hcell, hname⟩

end Tree

namespace Variables

/-- No two names stand for one cell. -/
def Distinct (vars : Variables) : Prop :=
  ∀ name name' cell cell', vars.cells.find? name = some cell →
    vars.cells.find? name' = some cell' → cell.id = cell'.id → name = name'

/-- The value of a name; one that is missing counts as 0. -/
def valueOf (vars : Variables) (name : String) : Float :=
  (vars.get? name).getD 0

/-- These names have the same values. -/
def AgreeOn (names : List String) (vars vars' : Variables) : Prop :=
  ∀ name ∈ names, vars.valueOf name = vars'.valueOf name

variable {vars later : Variables} {names : List String} {name : String} {cell : Cell}

theorem valueOf_of_find? (h : vars.cells.find? name = some cell) :
    vars.valueOf name = vars.values.read cell := by
  simp [valueOf, get?, h]

theorem distinct_empty : empty.Distinct := by
  intro name _ cell _ h
  simp [empty] at h

/-- The cell that is made has an identity that no cell of a name has. -/
theorem Distinct.define (h : vars.Distinct) (hsound : vars.Sound) (name : String) (value : Float)
    (named : Bool) : (vars.define name value named).Distinct := by
  intro first second cell cell' hfirst hsecond hid
  simp only [Variables.define, allocate, point, Table.find?_insert] at hfirst hsecond
  split at hfirst <;> split at hsecond
  next hf hs => rw [hf, hs]
  next =>
    cases hfirst
    exact absurd hid (hsound.named second cell' hsecond).ne'
  next =>
    cases hsecond
    exact absurd hid (hsound.named first cell hfirst).ne
  next => exact h first second cell cell' hfirst hsecond hid

theorem Distinct.resolve (h : vars.Distinct) (hsound : vars.Sound) (name : String) :
    (vars.resolve name).2.Distinct := by
  unfold Variables.resolve
  cases vars.cells.find? name with
  | some _ => exact h
  | none => exact h.define hsound name 0 true

theorem Distinct.resolveAll (h : vars.Distinct) (hsound : vars.Sound) (names : List String) :
    (vars.resolveAll names).Distinct := by
  induction names generalizing vars with
  | nil => exact h
  | cons name rest ih => exact ih (h.resolve hsound name) (hsound.resolve name)

/-- No name is worth anything else for cells that are made. -/
theorem valueOf_resolveAll (h : vars.Sound) (names : List String) (name : String) :
    (vars.resolveAll names).valueOf name = vars.valueOf name := by
  cases hcell : (vars.resolveAll names).cells.find? name with
  | none =>
    have hnone : vars.cells.find? name = none := by
      cases hfound : vars.cells.find? name with
      | none => rfl
      | some found => simp [vars.resolveAll_keeps names name found hfound] at hcell
    simp [valueOf, get?, hcell, hnone]
  | some cell =>
    rw [valueOf_of_find? hcell, (h.resolveAll_grown names).read]
    rcases find?_resolveAll hcell with hfound | ⟨hnone, -, hnext⟩
    · rw [valueOf_of_find? hfound]
    · simp [valueOf, get?, hnone, h.unused cell hnext]

/-- Names that each have a cell of their own may be given other ones. -/
theorem Distinct.exists_mappedTo (h : vars.Distinct)
    (hlater : ∀ name ∈ names, ∃ cell, later.cells.find? name = some cell) :
    ∃ f, vars.MappedTo names f later := by
  have hcells : ∀ cell, ∃ cell', ∀ name ∈ names, vars.cells.find? name = some cell →
      later.cells.find? name = some cell' := by
    intro cell
    by_cases hnamed : ∃ name ∈ names, vars.cells.find? name = some cell
    · obtain ⟨name, hname, hcell⟩ := hnamed
      obtain ⟨cell', hcell'⟩ := hlater name hname
      refine ⟨cell', fun other _ hother => ?_⟩
      rwa [h other name cell cell hother hcell rfl]
    · exact ⟨cell, fun name hname hcell => absurd ⟨name, hname, hcell⟩ hnamed⟩
  choose f hf using hcells
  exact ⟨f, fun name hname cell => hf cell name hname⟩

/-- Where no names share a cell, different cells stay different. -/
theorem MappedTo.id_iff {f : Cell → Cell} (h : vars.MappedTo names f later) (hvars : vars.Distinct)
    (hlater : later.Distinct) {name name' : String} {cell cell' : Cell} (hname : name ∈ names)
    (hname' : name' ∈ names) (hcell : vars.cells.find? name = some cell)
    (hcell' : vars.cells.find? name' = some cell') :
    cell.id = cell'.id ↔ (f cell).id = (f cell').id := by
  constructor
  · intro hid
    obtain rfl := hvars name name' cell cell' hcell hcell' hid
    rw [Option.some.inj (hcell.symm.trans hcell')]
  · intro hid
    have hmapped := h name hname cell hcell
    have hmapped' := h name' hname' cell' hcell'
    obtain rfl := hlater name name' (f cell) (f cell') hmapped hmapped' hid
    rw [Option.some.inj (hcell.symm.trans hcell')]

end Variables

section Texts

variable {functions : Functions} {vars vars' : Variables} {text : String} {tree : Tree}

/-- The cells in a tree are those of names in its text. -/
theorem parse_named (h : (parse functions vars text).outcome = .ok tree) {cell : Cell}
    (hcell : .var cell ∈ tree.walk) :
    ∃ name ∈ namesInText functions text,
      (vars.resolveAll (namesInText functions text)).cells.find? name = some cell := by
  obtain ⟨tokens, n, htokens, hread, hfinish⟩ := parse_readings h
  obtain ⟨rest, -, -, hmade⟩ := Nesting.finished_of_ok hfinish
  have hvars := Nesting.acceptAll_vars hread
  obtain ⟨name, hname, hfound⟩ := Nesting.reduced_named hread hmade List.mem_cons_self hcell
  rw [readGroup_names htokens] at hname hvars
  exact ⟨name, hname, hvars ▸ hfound⟩

/-- The names that a formula reports are those of the cells in its tree, over any variables in which
no two names stand for one cell. -/
theorem exists_variableNames (h : (parse functions vars text).outcome = .ok tree)
    (hsound : vars.Sound) (hdistinct : vars.Distinct) :
    ∃ names, variableNames functions text = .ok names ∧
      ∀ name, name ∈ names ↔ ∃ cell, .var cell ∈ tree.walk ∧
        (vars.resolveAll (namesInText functions text)).cells.find? name = some cell := by
  have hfinal := hdistinct.resolveAll hsound (namesInText functions text)
  obtain ⟨f, hf⟩ := hfinal.exists_mappedTo fun name hname =>
    Variables.empty.exists_cell_of_mem hname
  have hempty := parse_over h hf
  refine ⟨_, congrArg (Except.map Tree.variableNames) hempty, fun name => ?_⟩
  -- Over no variables each cell is shown under the name that it has been made for.
  have hshown : ∀ cell name, .var cell ∈ tree.walk →
      (vars.resolveAll (namesInText functions text)).cells.find? name = some cell →
      (f cell).name = some name := by
    intro cell name hcell hfound
    obtain ⟨own, hown, hown'⟩ := parse_named h hcell
    obtain rfl := hfinal own name cell cell hown' hfound rfl
    rcases Variables.find?_resolveAll (hf own hown cell hown') with hnone | ⟨-, hname, -⟩
    · simp [Variables.empty] at hnone
    · exact hname
  simp only [Tree.mem_variableNames, Tree.var_mem_walk_mapCells]
  constructor
  · rintro ⟨_, ⟨cell, hcell, rfl⟩, hname⟩
    obtain ⟨own, -, hown⟩ := parse_named h hcell
    rw [hshown cell own hcell hown] at hname
    cases hname
    exact ⟨cell, hcell, hown⟩
  · rintro ⟨cell, hcell, hfound⟩
    exact ⟨_, ⟨cell, hcell, rfl⟩, hshown cell name hcell hfound⟩

end Texts

namespace Tree

/-- The cells of a tree hold the same as those that they are mapped to, and calls have kept the
same. -/
structure SameInputs (tree : Tree) (f : Cell → Cell) (s s' : Store) : Prop where
  cells : ∀ cell, var cell ∈ tree.walk → s.values.read cell = s'.values.read (f cell)
  memory : s.memory = s'.memory

variable {tree : Tree} {f : Cell → Cell}

theorem sitesRelated_sameInputs (allowed : Deed → Prop) (path : Path) :
    Eval.SitesRelated (tree.SameInputs f) allowed path path := by
  refine ⟨fun key _ s s' h => ?_, fun key value _ s s' h => ?_⟩
  · have hvalue : (Eval.fetch path key).run s' =
        .ok ((s.memory.environment path).find? key) s' := by
      rw [h.memory]
      rfl
    rw [hvalue]
    exact .value _ h
  · exact .value () ⟨h.cells, congrArg (·.write path key value) h.memory⟩

/-- A write meets the same cells on both sides if different cells stay different. -/
theorem cellsRelated_sameInputs {cell : Cell} (hcell : var cell ∈ tree.walk)
    (hids : ∀ other, var other ∈ tree.walk → (other.id = cell.id ↔ (f other).id = (f cell).id)) :
    Eval.CellsRelated (tree.SameInputs f) cell (f cell) := by
  refine ⟨fun s s' h => ?_, fun value s s' h => ?_⟩
  · have hvalue : (Eval.read (f cell)).run s' = .ok (s.values.read cell) s' := by
      rw [h.cells cell hcell]
      rfl
    rw [hvalue]
    exact .value _ h
  · refine .value () ⟨fun other hother => ?_, h.memory⟩
    simp only [Values.read_write, hids other hother, h.cells other hother]

theorem evalTimes_sameInputs
    (hids : ∀ cell other, var cell ∈ tree.walk → var other ∈ tree.walk →
      (other.id = cell.id ↔ (f other).id = (f cell).id)) (times : Nat) :
    Eval.Related (tree.SameInputs f) (tree.evalTimes times)
      ((tree.mapCells f).evalTimes times) := by
  have hrelated : tree.RelatedBy (tree.SameInputs f) (fun _ => True) id f :=
    ⟨fun cell hcell => cellsRelated_sameInputs hcell fun other => hids cell other hcell,
      fun _ _ _ => Action.takes_any _⟩
  have hboth := evalTimes_related (sitesRelated_sameInputs _) hrelated times
  rwa [mapCells_id] at hboth

end Tree

/-- The same values or the same fault, over variables that agree on names afterwards. Calls keep the
same, too. -/
structure Evaluation.Agrees (names : List String) (first second : Evaluation) : Prop where
  outcome : first.outcome = second.outcome
  «variables» : first.variables.AgreeOn names second.variables
  memory : first.memory = second.memory

section Runs

variable {functions : Functions} {vars vars' : Variables} {text : String} {tree : Tree}
  {names : List String} {f : Cell → Cell}

/-- Evaluations over variables that agree on the names of a tree's cells, and on those that the
cells are mapped to. -/
theorem evaluation_mapCells
    (hids : ∀ cell other, .var cell ∈ tree.walk → .var other ∈ tree.walk →
      (other.id = cell.id ↔ (f other).id = (f cell).id))
    (hnames : ∀ name ∈ names, ∃ cell, .var cell ∈ tree.walk ∧
      vars.cells.find? name = some cell ∧ vars'.cells.find? name = some (f cell))
    (hcells : ∀ cell, .var cell ∈ tree.walk →
      vars.values.read cell = vars'.values.read (f cell))
    (times : Nat) :
    (tree.evaluation times vars .empty).Agrees names
      ((tree.mapCells f).evaluation times vars' .empty) := by
  have hinputs : tree.SameInputs f ⟨vars.values, .empty⟩ ⟨vars'.values, .empty⟩ := ⟨hcells, rfl⟩
  have hruns := Tree.evalTimes_sameInputs hids times _ _ hinputs
  unfold Tree.evaluation
  generalize (tree.evalTimes times).run ⟨vars.values, .empty⟩ = run at hruns
  generalize ((tree.mapCells f).evalTimes times).run ⟨vars'.values, .empty⟩ = run' at hruns
  have hagree {s s' : Store} (hafter : tree.SameInputs f s s') : Variables.AgreeOn names
      { vars with values := s.values } { vars' with values := s'.values } := by
    intro name hname
    obtain ⟨cell, hcell, hfound, hfound'⟩ := hnames name hname
    have hvalue : Variables.valueOf { vars with values := s.values } name =
        s.values.read cell := Variables.valueOf_of_find? hfound
    have hvalue' : Variables.valueOf { vars' with values := s'.values } name =
        s'.values.read (f cell) := Variables.valueOf_of_find? hfound'
    rw [hvalue, hvalue', hafter.cells cell hcell]
  cases hruns with
  | fault fault hleft => exact ⟨rfl, hagree hleft, hleft.memory⟩
  | value values hafter => exact ⟨rfl, hagree hafter, hafter.memory⟩

/-- What an accepted formula evaluates to, and what the variables that it names hold afterwards, is
settled by what these hold before, whatever others there are, also where it meets a fault. -/
theorem evaluation_agrees (functions : Functions) (vars vars' : Variables) (text : String)
    (tree : Tree) (hsound : vars.Sound) (hdistinct : vars.Distinct) (hsound' : vars'.Sound)
    (hdistinct' : vars'.Distinct) (h : (parse functions vars text).outcome = .ok tree) :
    ∃ names tree', variableNames functions text = .ok names ∧
      (parse functions vars' text).outcome = .ok tree' ∧
      (vars.AgreeOn names vars' → ∀ times,
        (tree.evaluation times (parse functions vars text).parser.variables .empty).Agrees names
          (tree'.evaluation times (parse functions vars' text).parser.variables .empty)) := by
  obtain ⟨names, hnames, hmem⟩ := exists_variableNames h hsound hdistinct
  have hfinal := hdistinct.resolveAll hsound (namesInText functions text)
  have hfinal' := hdistinct'.resolveAll hsound' (namesInText functions text)
  obtain ⟨f, hf⟩ := hfinal.exists_mappedTo fun name hname => vars'.exists_cell_of_mem hname
  have hparse := parse_over h hf
  refine ⟨names, _, hnames, hparse, fun hagree times => ?_⟩
  rw [parse_vars h, parse_vars hparse]
  refine evaluation_mapCells ?_ ?_ ?_ times
  · intro cell other hcell hother
    obtain ⟨name, hname, hfound⟩ := parse_named h hcell
    obtain ⟨name', hname', hfound'⟩ := parse_named h hother
    exact hf.id_iff hfinal hfinal' hname' hname hfound' hfound
  · intro name hname
    obtain ⟨cell, hcell, hfound⟩ := (hmem name).mp hname
    obtain ⟨own, hown, hown'⟩ := parse_named h hcell
    obtain rfl := hfinal own name cell cell hown' hfound rfl
    exact ⟨cell, hcell, hfound, hf own hown cell hfound⟩
  · intro cell hcell
    obtain ⟨name, hname, hfound⟩ := parse_named h hcell
    have hvalue := hagree name ((hmem name).mpr ⟨cell, hcell, hfound⟩)
    rw [← Variables.valueOf_resolveAll hsound (namesInText functions text),
      ← Variables.valueOf_resolveAll hsound' (namesInText functions text),
      Variables.valueOf_of_find? hfound,
      Variables.valueOf_of_find? (hf name hname cell hfound)] at hvalue
    exact hvalue

/-- In the one map `y` is missing and `x` is shown by its name, in the other there is `z` too. -/
theorem evaluation_agrees_assign :
    let vars := Variables.empty.define "x" 3 true
    let vars' := (Variables.empty.define "z" 5 true).define "x" 3 false
    vars.Sound ∧ vars.Distinct ∧ vars'.Sound ∧ vars'.Distinct ∧
    ∃ names tree tree', (parse .empty vars "y=x").outcome = .ok tree ∧
      variableNames .empty "y=x" = .ok names ∧
      (parse .empty vars' "y=x").outcome = .ok tree' ∧ vars.AgreeOn names vars' ∧
      ∀ times, (tree.evaluation times (parse .empty vars "y=x").parser.variables .empty).Agrees
        names (tree'.evaluation times (parse .empty vars' "y=x").parser.variables .empty) := by
  have hempty := Variables.sound_empty
  have hsound := hempty.define "x" 3 true
  have hsound' := (hempty.define "z" 5 true).define "x" 3 false
  have hdistinct := Variables.distinct_empty.define hempty "x" 3 true
  have hdistinct' := (Variables.distinct_empty.define hempty "z" 5 true).define
    (hempty.define "z" 5 true) "x" 3 false
  obtain ⟨tree, htree⟩ : ∃ tree,
      (parse .empty (Variables.empty.define "x" 3 true) "y=x").outcome = .ok tree := by
    rw [parse_outcome tokenize_y_assign_x]
    exact ⟨_, rfl⟩
  obtain ⟨names, tree', hnames, htree', hruns⟩ :=
    evaluation_agrees .empty _ _ "y=x" tree hsound hdistinct hsound' hdistinct' htree
  have hagree : Variables.AgreeOn names (Variables.empty.define "x" 3 true)
      ((Variables.empty.define "z" 5 true).define "x" 3 false) := by
    have hlisted : variableNames .empty "y=x" =
        .ok (Tree.assign ⟨0, some "y"⟩ (.var ⟨1, some "x"⟩)).variableNames := by
      rw [variableNames, parse_outcome tokenize_y_assign_x]
      rfl
    cases hlisted.symm.trans hnames
    intro name hname
    have hname : name = "y" ∨ name = "x" := by
      simpa [Tree.mem_variableNames, or_and_right, exists_or, eq_comm] using hname
    rcases hname with rfl | rfl <;>
      simp [Variables.valueOf, Variables.get?, Variables.define, Variables.allocate,
        Variables.point, Variables.empty, Table.find?_insert, Values.read_write]
  exact ⟨hsound, hdistinct, hsound', hdistinct', names, tree, tree', htree, hnames, htree', hagree,
    hruns hagree⟩

end Runs

end Formula
