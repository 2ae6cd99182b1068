import Formula.Tree.Building

namespace Formula.Tree

theorem walkStack_cons (tree : Tree) (rest : List Tree) :
    walkStack (tree :: rest) = tree :: walkStack (tree.children ++ rest) := by
  rw [walkStack]

theorem walkStack_append (first second : List Tree) :
    walkStack (first ++ second) = walkStack first ++ walkStack second := by
  induction first using walkStack.induct with
  | case1 => simp [walkStack]
  | case2 tree rest ih =>
    rw [List.cons_append, walkStack_cons, walkStack_cons, List.cons_append, ← ih, List.append_assoc]

/-- What is left on the stack is walked over tree by tree. -/
theorem walkStack_eq_flatMap (stack : List Tree) : walkStack stack = stack.flatMap walk := by
  induction stack with
  | nil => simp [walkStack]
  | cons tree rest ih =>
    have hsplit : tree :: rest = [tree] ++ rest := rfl
    rw [hsplit, walkStack_append, ih]
    rfl

theorem walk_eq (tree : Tree) : tree.walk = tree :: tree.children.flatMap walk := by
  rw [walk, walkStack_cons, List.append_nil, walkStack_eq_flatMap]

@[simp] theorem walk_const (value : Float) : (const value).walk = [const value] := by
  rw [walk_eq]
  rfl

@[simp] theorem walk_var (cell : Cell) : (var cell).walk = [var cell] := by
  rw [walk_eq]
  rfl

@[simp] theorem walk_unary (op : UnaryOp) (operand : Tree) :
    (unary op operand).walk = unary op operand :: operand.walk := by
  rw [walk_eq]
  simp [children]

@[simp] theorem walk_binary (op : BinaryOp) (left right : Tree) :
    (binary op left right).walk = binary op left right :: (left.walk ++ right.walk) := by
  rw [walk_eq]
  simp [children]

@[simp] theorem walk_assign (target : Cell) (value : Tree) :
    (assign target value).walk = assign target value :: var target :: value.walk := by
  rw [walk_eq]
  simp [children]

@[simp] theorem walk_call (function : Function) (args : List Tree) :
    (call function args).walk = call function args :: args.flatMap walk := by
  rw [walk_eq]
  rfl

theorem walk_subset_call {function : Function} {args : List Tree} {arg : Tree} (h : arg ∈ args) :
    arg.walk ⊆ (call function args).walk := by
  intro node hnode
  rw [walk_call]
  exact List.mem_cons_of_mem _ (List.mem_flatMap.mpr ⟨arg, h, hnode⟩)

/-- The nodes of a group's tree are those of its entries, behind a call if there are several. -/
theorem walk_ofGroup (trees : List Tree) :
    (trees = [] ∧ (ofGroup trees).walk = [const 0]) ∨
    (trees.length = 1 ∧ (ofGroup trees).walk = trees.flatMap walk) ∨
    (2 ≤ trees.length ∧
      (ofGroup trees).walk = call Function.last trees :: trees.flatMap walk) := by
  rcases trees with _ | ⟨first, _ | ⟨second, rest⟩⟩
  · exact .inl ⟨rfl, walk_const 0⟩
  · exact .inr (.inl ⟨rfl, by simp [ofGroup]⟩)
  · exact .inr (.inr ⟨by simp, walk_call _ _⟩)

end Formula.Tree
