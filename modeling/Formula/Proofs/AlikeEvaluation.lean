import Formula.Formulas
import Formula.Proofs.RelatedEvaluation

namespace Formula

/-- All cells hold the same, and nothing from a bound on. -/
structure Values.Alike (bound : Nat) (values values' : Values) : Prop where
  read : ∀ cell, values.read cell = values'.read cell
  unused : ∀ cell : Cell, bound ≤ cell.id → values.read cell = 0

theorem Values.Alike.write {bound : Nat} {values values' : Values} (h : values.Alike bound values')
    {cell : Cell} (hcell : cell.id < bound) (value : Float) :
    (values.write cell value).Alike bound (values'.write cell value) := by
  refine ⟨fun other => ?_, fun other hother => ?_⟩
  · rw [read_write, read_write, h.read other]
  · rw [read_write, if_neg (by omega)]
    exact h.unused other hother

/-- Two stores that look the same from trees at two places. The first one has kept its other
environments. -/
structure Store.Alike (bound : Nat) (place place' : Path) (kept : Memory) (s s' : Store) :
    Prop where
  values : s.values.Alike bound s'.values
  environment : ∀ path,
    s.memory.environment (path ++ place) = s'.memory.environment (path ++ place')
  other : ∀ path, ¬ place <:+ path → s.memory.environment path = kept.environment path

/-- Evaluations that go alike over all stores that look the same. -/
def Eval.Alike {α : Type} (bound : Nat) (place place' : Path) (kept : Memory) (x y : Eval α) :
    Prop :=
  Eval.Related (Store.Alike bound place place' kept) x y

namespace Memory

theorem environment_write (memory : Memory) (site path : Path) (key : String) (value : Float) :
    (memory.write site key value).environment path =
      if path = site then (memory.environment site).insert key value
      else memory.environment path := by
  rw [environment, write, Table.find?_insert]
  split <;> rfl

end Memory

namespace Eval

variable {bound : Nat} {place place' : Path} {kept : Memory}

theorem cellsRelated_alike {cell : Cell} (hcell : cell.id < bound) :
    CellsRelated (Store.Alike bound place place' kept) cell cell := by
  refine ⟨fun s s' h => ?_, fun value s s' h => ?_⟩
  · have hvalue : (read cell).run s' = .ok (s.values.read cell) s' := by
      rw [h.values.read cell]
      rfl
    rw [hvalue]
    exact .value _ h
  · exact .value () ⟨h.values.write hcell value, h.environment, h.other⟩

theorem sitesRelated_alike (allowed : Deed → Prop) (path : Path) :
    SitesRelated (Store.Alike bound place place' kept) allowed (path ++ place)
      (path ++ place') := by
  refine ⟨fun key _ s s' h => ?_, fun key value _ s s' h => ?_⟩
  · have hvalue : (fetch (path ++ place') key).run s' =
        .ok ((s.memory.environment (path ++ place)).find? key) s' := by
      rw [h.environment path]
      rfl
    rw [hvalue]
    exact .value _ h
  · refine .value () ⟨h.values, fun other => ?_, fun other hother => ?_⟩
    · simp only [Memory.environment_write, List.append_cancel_right_eq, h.environment]
    · have hne : other ≠ path ++ place := by
        rintro rfl
        exact hother (List.suffix_append _ _)
      simp only [Memory.environment_write, if_neg hne]
      exact h.other other hother

end Eval

namespace Tree

/-- All cells in a tree have identities below a bound. -/
def Below (bound : Nat) (tree : Tree) : Prop :=
  ∀ cell, var cell ∈ tree.walk → cell.id < bound

variable {bound : Nat} {place place' : Path} {kept : Memory} {tree : Tree}

theorem Below.related (h : tree.Below bound) :
    tree.RelatedBy (Store.Alike bound place place' kept) (fun _ => True) id id :=
  ⟨fun cell hcell => Eval.cellsRelated_alike (h cell hcell), fun _ _ _ => Action.takes_any _⟩

/-- A tree has the same value at another place, and does there what it does at its own. -/
theorem evalAt_alike (path : Path) (tree : Tree) (h : tree.Below bound) :
    Eval.Alike bound place place' kept (tree.evalAt (path ++ place))
      (tree.evalAt (path ++ place')) := by
  have hrelated : tree.RelatedBy (Store.Alike bound place place' kept) (fun _ => True) id id :=
    h.related
  have hboth := evalAt_related (Eval.sitesRelated_alike _) path tree hrelated
  rw [mapCells_id] at hboth
  exact hboth

end Tree

end Formula
