import Formula.Proofs.MappedCells
import Formula.Proofs.SoundVariables

namespace Formula

namespace Variables

/-- Resolves names in turn. -/
def resolveAll (vars : Variables) (names : List String) : Variables :=
  names.foldl (fun vars name => (vars.resolve name).2) vars

variable {vars : Variables} {names : List String} {name : String} {cell : Cell}

theorem resolveAll_append (vars : Variables) (names more : List String) :
    vars.resolveAll (names ++ more) = (vars.resolveAll names).resolveAll more := by
  rw [resolveAll, List.foldl_append]
  rfl

theorem resolveAll_keeps (vars : Variables) (names : List String) :
    CellsKept vars.cells (vars.resolveAll names).cells := by
  induction names generalizing vars with
  | nil => exact .refl _
  | cons name rest ih => exact (vars.resolve_keeps name).trans (ih _)

theorem exists_cell_of_mem (vars : Variables) (h : name ∈ names) :
    ∃ cell, (vars.resolveAll names).cells.find? name = some cell := by
  obtain ⟨before, after, rfl⟩ := List.append_of_mem h
  rw [resolveAll_append]
  exact ⟨_, resolveAll_keeps _ after _ _ ((vars.resolveAll before).resolve_find? name)⟩

/-- Names that all have a cell are resolved without a change. -/
theorem resolveAll_of_known (h : ∀ name ∈ names, ∃ cell, vars.cells.find? name = some cell) :
    vars.resolveAll names = vars := by
  induction names with
  | nil => rfl
  | cons name rest ih =>
    obtain ⟨⟨cell, hcell⟩, hrest⟩ := List.forall_mem_cons.mp h
    have hsame : (vars.resolve name).2 = vars := by simp [resolve, hcell]
    rw [resolveAll, List.foldl_cons, hsame]
    exact ih hrest

theorem next_le_resolve (vars : Variables) (name : String) :
    vars.next ≤ (vars.resolve name).2.next := by
  unfold resolve
  split
  · exact Nat.le_refl _
  · exact Nat.le_succ _

/-- A cell that a name has got is a new one, shown under that name. -/
theorem find?_resolveAll (h : (vars.resolveAll names).cells.find? name = some cell) :
    vars.cells.find? name = some cell ∨
      vars.cells.find? name = none ∧ cell.name = some name ∧ vars.next ≤ cell.id := by
  induction names generalizing vars with
  | nil => exact .inl h
  | cons other rest ih =>
    rcases ih h with hfound | ⟨hnone, hname, hnext⟩
    · unfold resolve at hfound
      cases hother : vars.cells.find? other with
      | some _ => exact .inl (by simpa [hother] using hfound)
      | none =>
        simp only [hother, point, Table.find?_insert] at hfound
        split at hfound
        next hsame =>
          subst hsame
          cases hfound
          exact .inr ⟨hother, rfl, Nat.le_refl _⟩
        next => exact .inl hfound
    · refine .inr ⟨?_, hname, (vars.next_le_resolve other).trans hnext⟩
      cases hcell : vars.cells.find? name with
      | none => rfl
      | some found => simp [vars.resolve_keeps other name found hcell] at hnone

theorem Sound.resolveAll_grown (h : vars.Sound) (names : List String) :
    vars.Grown (vars.resolveAll names) := by
  induction names generalizing vars with
  | nil => exact .refl h
  | cons name rest ih =>
    have hfirst := h.resolve_grown name
    exact hfirst.trans (ih hfirst.sound)

/-- Names have cells in other variables, each the one that stands for its cell in these. -/
def MappedTo (names : List String) (f : Cell → Cell) (vars later : Variables) : Prop :=
  ∀ name ∈ names, ∀ cell, vars.cells.find? name = some cell →
    later.cells.find? name = some (f cell)

theorem MappedTo.of_kept {f : Cell → Cell} {later last : Variables}
    (h : later.MappedTo names f last) (hkept : CellsKept vars.cells later.cells) :
    vars.MappedTo names f last :=
  fun name hname cell hcell => h name hname cell (hkept name cell hcell)

end Variables

namespace Parser

variable {f : Cell → Cell}

section Trees

variable {op : Operator} {operators : List Operator} {trees made : List Tree}

theorem reduce_mapCells (h : op.reduce trees = .ok made) :
    op.reduce (trees.map (Tree.mapCells f)) = .ok (made.map (Tree.mapCells f)) := by
  match op, trees, h with
  | .unary kind, operand :: rest, rfl => rfl
  | .binary kind, right :: left :: rest, rfl => rfl
  | .assign, right :: left :: rest, h =>
    simp only [Operator.reduce, Except.map] at h
    split at h
    · cases h
    next tree htree =>
      cases h
      simp [Operator.reduce, Tree.mapCells_assignTo htree, Except.map]

theorem reduceAll_mapCells (h : reduceAll operators trees = .ok made) :
    reduceAll operators (trees.map (Tree.mapCells f)) = .ok (made.map (Tree.mapCells f)) := by
  induction operators generalizing trees with
  | nil =>
    cases h
    rfl
  | cons op operators ih =>
    obtain ⟨middle, hop, hrest⟩ := bind_eq_ok h
    rw [reduceAll, List.foldlM_cons, reduce_mapCells hop]
    exact ih hrest

theorem result_mapCells {call : Option (String × Function)} {tree : Tree}
    (h : (Level.mk call [] made).result = .ok tree) :
    (Level.mk call [] (made.map (Tree.mapCells f))).result = .ok (tree.mapCells f) := by
  cases call with
  | none =>
    cases h
    simp [Level.result, Tree.mapCells_ofGroup]
  | some entry =>
    simp only [Level.result, Function.apply] at h
    split at h
    next htakes =>
      cases h
      simp only [List.length_reverse] at htakes
      simp [Level.result, Function.apply, htakes, Tree.mapCells, Tree.mapCellsAll_eq_map]
    next => cases h

end Trees

def Level.mapCells (f : Cell → Cell) (l : Level) : Level :=
  { l with trees := l.trees.map (Tree.mapCells f) }

theorem Level.mapCells_pushOperator {l next : Level} {op : Operator}
    (h : l.pushOperator op = .ok next) :
    (l.mapCells f).pushOperator op = .ok (next.mapCells f) := by
  obtain ⟨made, hmade, hl⟩ := bind_eq_ok h
  cases hl
  simp only [pushOperator, mapCells, reduceAll_mapCells hmade]
  rfl

namespace Nesting

/-- The nesting over other variables, with the cells of these. -/
def moved (n : Nesting) (f : Cell → Cell) (vars : Variables) (created : List String) : Nesting :=
  ⟨n.awaited, n.current.mapCells f, n.outer.map (Level.mapCells f), vars, created⟩

variable {functions : Functions} {n next : Nesting} {t : Token} {tokens : List Token}
  {names : List String} {vars later : Variables}

/-- The last hypothesis lets names that follow be resolved as well. -/
theorem accept_moved (h : n.accept functions t = .ok next) (created : List String)
    (hnames : nameIn functions t ⊆ names) (hcells : next.vars.MappedTo names f later)
    (hkept : CellsKept (vars.resolveAll (nameIn functions t)).cells later.cells) :
    ∃ created', (n.moved f vars created).accept functions t =
      .ok (next.moved f (vars.resolveAll (nameIn functions t)) created') := by
  have hother : t.kind ≠ .identifier → nameIn functions t = [] := fun hk => by simp [nameIn, hk]
  cases accepts_of_ok h with
  | opening hk =>
    rw [hother (by simp [hk])]
    exact ⟨created, Accepts.ok (.opening (n := n.moved f vars created) hk)⟩
  | closing hk hn houter hmade htree =>
    rw [hother (by simp [hk])]
    have houter' : (n.moved f vars created).outer = _ :: _ := congrArg (List.map _) houter
    exact ⟨created, Accepts.ok (.closing (n := n.moved f vars created) hk hn houter'
      (reduceAll_mapCells hmade) (result_mapCells htree))⟩
  | comma hk hn hopen hmade =>
    rw [hother (by simp [hk])]
    have hopen' : (n.moved f vars created).outer ≠ [] := by simpa [moved] using hopen
    exact ⟨created, Accepts.ok (.comma (n := n.moved f vars created) hk hn hopen'
      (reduceAll_mapCells hmade))⟩
  | number hk hn hvalue =>
    rw [hother (by simp [hk])]
    exact ⟨created, Accepts.ok (.number (n := n.moved f vars created) hk hn hvalue)⟩
  | key hk hn hf =>
    have hname : nameIn functions t = [] := by simp [nameIn, hf]
    rw [hname]
    exact ⟨created, Accepts.ok (.key (n := n.moved f vars created) hk hn hf)⟩
  | name hk hn hf =>
    have hname : nameIn functions t = [t.text] := by simp [nameIn, hk, hf]
    rw [hname] at hnames hkept ⊢
    have hcell := hcells t.text (hnames (by simp)) _ (n.vars.resolve_find? t.text)
    have hsame : (vars.resolve t.text).1 = f (n.vars.resolve t.text).1 :=
      Option.some.inj ((hkept t.text _ (vars.resolve_find? t.text)).symm.trans hcell)
    refine ⟨((n.moved f vars created).pushVariable t.text).created, ?_⟩
    rw [Accepts.ok (.name (n := n.moved f vars created) hk hn hf)]
    simp [pushVariable, push, moved, Level.push, Level.mapCells, Tree.mapCells, hsame,
      Variables.resolveAll]
  | operator hk hn hop hlevel =>
    rw [hother (by simp [hk])]
    exact ⟨created, Accepts.ok (.operator (n := n.moved f vars created) hk hn hop
      (Level.mapCells_pushOperator hlevel))⟩

theorem acceptAll_moved (h : n.acceptAll functions tokens = .ok next) (created : List String)
    (hnames : namesIn functions tokens ⊆ names) (hcells : next.vars.MappedTo names f later)
    (hkept : CellsKept (vars.resolveAll (namesIn functions tokens)).cells later.cells) :
    ∃ created', (n.moved f vars created).acceptAll functions tokens =
      .ok (next.moved f (vars.resolveAll (namesIn functions tokens)) created') := by
  induction tokens generalizing n vars created with
  | nil =>
    cases h
    exact ⟨created, rfl⟩
  | cons t tokens ih =>
    obtain ⟨m, ht, hrest⟩ := bind_eq_ok h
    have hsplit : vars.resolveAll (namesIn functions (t :: tokens)) =
        (vars.resolveAll (nameIn functions t)).resolveAll (namesIn functions tokens) :=
      Variables.resolveAll_append _ _ _
    rw [hsplit] at hkept ⊢
    obtain ⟨hname, hnames⟩ := List.append_subset.mp hnames
    obtain ⟨middle, ht'⟩ := accept_moved ht created hname (hcells.of_kept (acceptAll_keeps hrest))
      ((Variables.resolveAll_keeps _ _).trans hkept)
    obtain ⟨created', hrest'⟩ := ih hrest middle hnames hkept
    exact ⟨created', (acceptAll_cons ht').trans hrest'⟩

theorem finish_moved {tree : Tree} (h : n.finish = .ok tree) (created : List String) :
    (n.moved f vars created).finish = .ok (tree.mapCells f) := by
  obtain ⟨rest, hn, houter, hmade⟩ := finished_of_ok h
  obtain ⟨awaited, ⟨call, operators, trees⟩, outer, own, made⟩ := n
  cases hn
  cases houter
  simp only [finish, moved, Level.mapCells, reduceAll_mapCells hmade]
  rfl

/-- What a run does to variables is to resolve the names among the tokens. -/
theorem accept_vars (h : n.accept functions t = .ok next) :
    next.vars = n.vars.resolveAll (nameIn functions t) := by
  cases accepts_of_ok h with
  | opening hk | closing hk | comma hk | number hk | operator hk => simp [nameIn, hk]; rfl
  | key hk hn hf => simp [nameIn, hf]; rfl
  | name hk hn hf => simp [nameIn, hk, hf]; rfl

theorem acceptAll_vars (h : n.acceptAll functions tokens = .ok next) :
    next.vars = n.vars.resolveAll (namesIn functions tokens) := by
  induction tokens generalizing n with
  | nil =>
    cases h
    rfl
  | cons t tokens ih =>
    obtain ⟨m, ht, hrest⟩ := bind_eq_ok h
    rw [ih hrest, accept_vars ht]
    exact (Variables.resolveAll_append _ _ _).symm

end Nesting

end Parser

open Formula.Parser

/-- The names in a text that are no keys of functions. -/
def namesInText (functions : Functions) (text : String) : List String :=
  match tokenize text with
  | .ok tokens => namesIn functions tokens
  | .error _ => []

variable {functions : Functions} {vars later : Variables} {text : String} {tree : Tree}

theorem readGroup_names {tokens : List Token} (htokens : tokenize text = .ok tokens) :
    namesIn functions (Token.opening :: tokens ++ [Token.closing]) =
      namesInText functions text := by
  simp [namesInText, htokens, namesIn, nameIn, Token.opening, Token.closing]

theorem parse_vars (h : (parse functions vars text).outcome = .ok tree) :
    (parse functions vars text).parser.variables =
      vars.resolveAll (namesInText functions text) := by
  obtain ⟨tokens, n, htokens, hread, hfinish⟩ := parse_readings h
  rw [parse_variables htokens hread hfinish, Nesting.acceptAll_vars hread,
    readGroup_names htokens]
  rfl

/-- A text that has been accepted is accepted over other variables, and the tree has the cells of
these. -/
theorem parse_over (h : (parse functions vars text).outcome = .ok tree) {f : Cell → Cell}
    (hcells : (vars.resolveAll (namesInText functions text)).MappedTo (namesInText functions text) f
      (later.resolveAll (namesInText functions text))) :
    (parse functions later text).outcome = .ok (tree.mapCells f) := by
  obtain ⟨tokens, n, htokens, hread, hfinish⟩ := parse_readings h
  have hvars := Nesting.acceptAll_vars hread
  rw [readGroup_names htokens] at hvars
  have hkept : CellsKept
      (later.resolveAll (namesIn functions (Token.opening :: tokens ++ [Token.closing]))).cells
      (later.resolveAll (namesInText functions text)).cells := by
    rw [readGroup_names htokens]
    exact .refl _
  have hnames : namesIn functions (Token.opening :: tokens ++ [Token.closing]) ⊆
      namesInText functions text := by
    rw [readGroup_names htokens]
    exact List.Subset.refl _
  obtain ⟨created, hagain⟩ := Nesting.acceptAll_moved hread [] hnames (hvars ▸ hcells) hkept
  have hread' : (Nesting.start later []).readGroup functions tokens = .ok _ := hagain
  rw [parse_of_tokenize htokens]
  refine parseTokens_ok_iff.mpr ?_
  rw [Nesting.readFormula, hread']
  exact Nesting.finish_moved hfinish created

end Formula
