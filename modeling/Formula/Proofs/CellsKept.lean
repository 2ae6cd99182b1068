import Formula.Variables

namespace Formula

/-- Names that stand for a cell go on to stand for it. -/
def CellsKept (cells later : Table String Cell) : Prop :=
  ∀ name cell, cells.find? name = some cell → later.find? name = some cell

theorem CellsKept.refl (cells : Table String Cell) : CellsKept cells cells :=
  fun _ _ h => h

theorem CellsKept.trans {cells later last : Table String Cell} (h : CellsKept cells later)
    (hlast : CellsKept later last) : CellsKept cells last :=
  fun name cell hcell => hlast name cell (h name cell hcell)

namespace Variables

theorem resolve_find? (vars : Variables) (name : String) :
    (vars.resolve name).2.cells.find? name = some (vars.resolve name).1 := by
  unfold resolve
  cases h : vars.cells.find? name with
  | some cell => exact h
  | none => exact Table.find?_insert_self _ _ _

theorem resolve_keeps (vars : Variables) (name : String) :
    CellsKept vars.cells (vars.resolve name).2.cells := by
  intro other cell hcell
  unfold resolve
  cases h : vars.cells.find? name with
  | some _ => exact hcell
  | none =>
    have hne : other ≠ name := by
      rintro rfl
      simp [h] at hcell
    exact (Table.find?_insert_of_ne _ _ hne).trans hcell

end Variables

end Formula
