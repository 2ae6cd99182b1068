import Formula.Proofs.AlikeEvaluation
import Formula.Proofs.NothingLost

namespace Formula

namespace Variables

/-- Names stand for cells made before, and cells that are not made yet hold nothing. -/
structure Sound (vars : Variables) : Prop where
  named : ∀ name cell, vars.cells.find? name = some cell → cell.id < vars.next
  unused : ∀ cell : Cell, vars.next ≤ cell.id → vars.values.read cell = 0

/-- The same names stand for the same cells, whatever these hold. -/
structure SameCells (vars vars' : Variables) : Prop where
  cells : vars.cells = vars'.cells
  next : vars.next = vars'.next

variable {vars vars' : Variables} {name : String} {cell : Cell} {value : Float}

theorem SameCells.refl (vars : Variables) : vars.SameCells vars :=
  ⟨rfl, rfl⟩

theorem SameCells.trans {last : Variables} (h : vars.SameCells vars')
    (hlast : vars'.SameCells last) : vars.SameCells last :=
  ⟨h.cells.trans hlast.cells, h.next.trans hlast.next⟩

theorem sound_empty : empty.Sound :=
  ⟨fun _ _ h => by simp [empty] at h, fun _ _ => rfl⟩

theorem Sound.point (h : vars.Sound) (hcell : cell.id < vars.next) (name : String) :
    (vars.point name cell).Sound := by
  refine ⟨fun other found hfound => ?_, h.unused⟩
  rw [Variables.point, Table.find?_insert] at hfound
  split at hfound
  · cases hfound
    exact hcell
  · exact h.named other found hfound

theorem Sound.allocate (h : vars.Sound) (name : Option String) (value : Float) :
    (vars.allocate name value).2.Sound := by
  refine ⟨fun other found hfound => Nat.lt_succ_of_lt (h.named other found hfound), ?_⟩
  intro cell hcell
  have hbehind : vars.next + 1 ≤ cell.id := hcell
  rw [Variables.allocate, Values.read_write, if_neg (by simp only; omega)]
  exact h.unused cell (by omega)

theorem Sound.define (h : vars.Sound) (name : String) (value : Float) (named : Bool) :
    (vars.define name value named).Sound :=
  (h.allocate _ value).point (Nat.lt_succ_self vars.next) name

theorem Sound.resolve (h : vars.Sound) (name : String) : (vars.resolve name).2.Sound := by
  unfold Variables.resolve
  cases vars.cells.find? name with
  | some cell => exact h
  | none => exact h.define name 0 true

theorem Sound.set (h : vars.Sound) (hcell : cell.id < vars.next) (value : Float) :
    (vars.set cell value).Sound := by
  refine ⟨h.named, fun other hother => ?_⟩
  have hbehind : vars.next ≤ other.id := hother
  rw [Variables.set, Values.read_write, if_neg (by omega)]
  exact h.unused other hother

theorem Sound.remove (h : vars.Sound) (name : String) : (vars.remove name).Sound := by
  refine ⟨fun other found hfound => ?_, h.unused⟩
  rw [Variables.remove, Table.find?_erase] at hfound
  split at hfound
  · cases hfound
  · exact h.named other found hfound

theorem Sound.alike (h : vars.Sound) {values : Values}
    (hread : ∀ cell, vars.values.read cell = values.read cell) :
    vars.values.Alike vars.next values :=
  ⟨hread, h.unused⟩

theorem Sound.evaluated (h : vars.Sound) {values values' : Values}
    (hvalues : values.Alike vars.next values') : Sound { vars with values := values } :=
  ⟨h.named, hvalues.unused⟩

/-- Later variables with new cells for names at most: no cell holds anything else than before. -/
structure Grown (vars later : Variables) : Prop where
  sound : later.Sound
  next : vars.next ≤ later.next
  read : ∀ cell, later.values.read cell = vars.values.read cell

theorem Grown.refl (h : vars.Sound) : vars.Grown vars :=
  ⟨h, Nat.le_refl _, fun _ => rfl⟩

theorem Grown.trans {last : Variables} (h : vars.Grown vars') (hlast : vars'.Grown last) :
    vars.Grown last :=
  ⟨hlast.sound, Nat.le_trans h.next hlast.next, fun cell => (hlast.read cell).trans (h.read cell)⟩

/-- A cell that is made holds what it would have been read as before. -/
theorem Sound.resolve_grown (h : vars.Sound) (name : String) :
    vars.Grown (vars.resolve name).2 := by
  have hsound := h.resolve name
  unfold Variables.resolve at hsound ⊢
  cases hname : vars.cells.find? name with
  | some cell => exact .refl h
  | none =>
    rw [hname] at hsound
    refine ⟨hsound, Nat.le_succ _, fun cell => ?_⟩
    simp only [Variables.allocate, Variables.point, Values.read_write]
    split
    next hcell => exact (h.unused cell (by omega)).symm
    next => rfl

theorem SameCells.resolve (h : vars.SameCells vars') (name : String) :
    (vars.resolve name).1 = (vars'.resolve name).1 ∧
      (vars.resolve name).2.SameCells (vars'.resolve name).2 := by
  unfold Variables.resolve
  rw [← h.cells]
  cases vars.cells.find? name with
  | some _ => exact ⟨rfl, h⟩
  | none =>
    simp only [Variables.allocate, Variables.point, ← h.next, ← h.cells]
    exact ⟨trivial, ⟨rfl, rfl⟩⟩

end Variables

namespace Parser.Nesting

variable {functions : Functions} {vars : Variables} {created : List String} {n next : Nesting}
  {t : Token} {tokens : List Token} {made : List Tree}

theorem accept_grown (hvars : n.vars.Sound) (h : n.accept functions t = .ok next) :
    n.vars.Grown next.vars := by
  cases accepts_of_ok h with
  | name => exact hvars.resolve_grown t.text
  | _ => exact .refl hvars

theorem acceptAll_grown (hvars : n.vars.Sound) (h : n.acceptAll functions tokens = .ok next) :
    n.vars.Grown next.vars :=
  acceptAll_preserves (P := fun m => n.vars.Grown m.vars)
    (fun hgrown ht => hgrown.trans (accept_grown hgrown.sound ht)) (.refl hvars) h

/-- The cells in the trees that the innermost level comes to are cells of names among the tokens. -/
theorem reduced_named (h : (start vars created).acceptAll functions tokens = .ok n)
    (hmade : reduceAll n.current.operators n.current.trees = .ok made) {tree : Tree}
    (htree : tree ∈ made) {cell : Cell} (hcell : .var cell ∈ tree.walk) :
    ∃ name ∈ namesIn functions tokens, n.vars.cells.find? name = some cell := by
  have hstart : (start vars created).Spells [] := ⟨[], .level .nil .nil, rfl⟩
  obtain ⟨pieces, hpieces, _, hlevels, hspelled⟩ := hstart.acceptAll (.refl _) h
  have hnode : .var cell ∈ nodes made :=
    List.mem_flatMap.mpr ⟨tree, List.mem_reverse.mpr htree, hcell⟩
  have hpiece : .cell cell ∈ pieces := by
    rw [List.nil_append] at hspelled
    rw [hspelled]
    cases hlevels with
    | level _ hown => simp [(reduceAll_spells hmade hown).cell_mem hnode]
  have hread : some (.cell cell) ∈ (start vars created).owed tokens ++
      piecesOf functions n.vars.cells (start vars created).awaited.isSome tokens :=
    hpieces ▸ List.mem_map_of_mem hpiece
  rcases List.mem_append.mp hread with howed | hread
  · -- What is owed for a blank group is a 0 and no cell.
    rw [owed] at howed
    split at howed <;> simp at howed
  · exact piecesOf_cell hread

theorem reduced_below (hvars : vars.Sound)
    (h : (start vars created).acceptAll functions tokens = .ok n)
    (hmade : reduceAll n.current.operators n.current.trees = .ok made) :
    ∀ tree ∈ made, tree.Below n.vars.next := by
  intro tree htree cell hcell
  obtain ⟨name, -, hname⟩ := reduced_named h hmade htree hcell
  exact (acceptAll_grown hvars h).sound.named name cell hname

end Parser.Nesting

end Formula
