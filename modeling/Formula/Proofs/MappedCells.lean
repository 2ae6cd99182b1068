import Formula.Proofs.Walks

namespace Formula.Tree

mutual

/-- The tree with another cell for each of its cells. -/
def mapCells (f : Cell → Cell) : Tree → Tree
  | const value => const value
  | var cell => var (f cell)
  | unary op operand => unary op (operand.mapCells f)
  | binary op left right => binary op (left.mapCells f) (right.mapCells f)
  | assign target value => assign (f target) (value.mapCells f)
  | call function args => call function (mapCellsAll f args)

def mapCellsAll (f : Cell → Cell) : List Tree → List Tree
  | [] => []
  | tree :: rest => tree.mapCells f :: mapCellsAll f rest

end

variable {f : Cell → Cell}

theorem mapCellsAll_eq_map (trees : List Tree) : mapCellsAll f trees = trees.map (mapCells f) := by
  induction trees with
  | nil => rfl
  | cons tree rest ih => rw [mapCellsAll, ih, List.map_cons]

@[simp] theorem length_mapCellsAll (trees : List Tree) :
    (mapCellsAll f trees).length = trees.length := by
  rw [mapCellsAll_eq_map, List.length_map]

mutual

theorem mapCells_id : (tree : Tree) → tree.mapCells id = tree
  | const _ => rfl
  | var _ => rfl
  | unary op operand => by rw [mapCells, mapCells_id operand]
  | binary op left right => by rw [mapCells, mapCells_id left, mapCells_id right]
  | assign target value => by rw [mapCells, mapCells_id value, id]
  | call function args => by rw [mapCells, mapCellsAll_id args]

theorem mapCellsAll_id : (trees : List Tree) → mapCellsAll id trees = trees
  | [] => rfl
  | tree :: rest => by rw [mapCellsAll, mapCells_id tree, mapCellsAll_id rest]

end

theorem children_mapCells (tree : Tree) :
    (tree.mapCells f).children = tree.children.map (mapCells f) := by
  cases tree <;> simp [mapCells, children, mapCellsAll_eq_map]

/-- The walk goes the same way, whatever the cells are. -/
theorem walkStack_mapCells (stack : List Tree) :
    walkStack (stack.map (mapCells f)) = (walkStack stack).map (mapCells f) := by
  induction stack using walkStack.induct with
  | case1 => simp [walkStack]
  | case2 tree rest ih =>
    rw [List.map_cons, walkStack_cons, walkStack_cons, List.map_cons, ← ih, children_mapCells,
      List.map_append]

theorem walk_mapCells (tree : Tree) : (tree.mapCells f).walk = tree.walk.map (mapCells f) :=
  walkStack_mapCells [tree]

theorem var_mem_walk_mapCells {tree : Tree} {cell : Cell} :
    var cell ∈ (tree.mapCells f).walk ↔ ∃ own, var own ∈ tree.walk ∧ f own = cell := by
  rw [walk_mapCells, List.mem_map]
  constructor
  · rintro ⟨node, hnode, heq⟩
    cases node <;> cases heq
    exact ⟨_, hnode, rfl⟩
  · rintro ⟨own, hown, rfl⟩
    exact ⟨var own, hown, rfl⟩

theorem mapCells_ofGroup (trees : List Tree) :
    (ofGroup trees).mapCells f = ofGroup (trees.map (mapCells f)) := by
  rcases trees with _ | ⟨first, _ | ⟨second, rest⟩⟩
  · rfl
  · rfl
  · simp only [ofGroup, mapCells, mapCellsAll_eq_map, List.map_cons]

theorem mapCells_assignTo {left right tree : Tree} (h : left.assignTo right = .ok tree) :
    (left.mapCells f).assignTo (right.mapCells f) = .ok (tree.mapCells f) := by
  cases left <;> cases h
  rfl

end Formula.Tree
