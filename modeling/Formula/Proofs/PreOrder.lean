import Formula.Proofs.PostOrder
import Mathlib.Data.List.Induction
import Mathlib.Logic.Function.Iterate

namespace Formula.Tree

theorem size_eq (tree : Tree) : tree.size = sizeAll tree.children + 1 := by
  cases tree with
  | assign target value =>
    simp only [children, size, sizeAll]
    omega
  | _ => simp [children, size, sizeAll]

theorem length_flatMap_eq_sizeAll {f : Tree → List Tree} {trees : List Tree}
    (h : ∀ tree ∈ trees, (f tree).length = tree.size) :
    (trees.flatMap f).length = sizeAll trees := by
  induction trees with
  | nil => rfl
  | cons tree rest ih =>
    obtain ⟨htree, hrest⟩ := List.forall_mem_cons.mp h
    rw [List.flatMap_cons, List.length_append, htree, ih hrest, sizeAll]

theorem size_lt_of_mem_children {tree child : Tree} (h : child ∈ tree.children) :
    child.size < tree.size := by
  have hchildren := sizeAll_children_lt tree
  obtain ⟨before, behind, hsplit⟩ := List.append_of_mem h
  rw [hsplit, sizeAll_append, sizeAll] at hchildren
  omega

/-- What a tree has whenever its children have it, all trees have. -/
theorem childrenInduction {motive : Tree → Prop}
    (step : ∀ tree : Tree, (∀ child ∈ tree.children, motive child) → motive tree) (tree : Tree) :
    motive tree :=
  step tree fun child _ => childrenInduction step child
termination_by tree.size
decreasing_by exact size_lt_of_mem_children ‹_›

/-- The node, then the nodes of its children from left to right. -/
def preorder (tree : Tree) : List Tree :=
  tree :: tree.children.attach.flatMap fun child => child.val.preorder
termination_by tree.size
decreasing_by exact size_lt_of_mem_children child.property

/-- The nodes of a tree whose root is at `path` in pre-order, each with its place. -/
def nodesAt (path : Path) (tree : Tree) : List (Path × Tree) :=
  (path, tree) ::
    tree.children.zipIdx.attach.flatMap fun child => child.val.1.nodesAt (child.val.2 :: path)
termination_by tree.size
decreasing_by exact size_lt_of_mem_children (List.fst_mem_of_mem_zipIdx child.property)

/-- The node at a place, if the tree has this place. -/
def nodeAt? (tree : Tree) : Path → Option Tree
  | [] => some tree
  | i :: path => (tree.nodeAt? path).bind fun node => node.children[i]?

/-- One round of the walk: the children of the node on top of the stack take its place. -/
def walkRound : List Tree → List Tree
  | [] => []
  | tree :: rest => tree.children ++ rest

theorem preorder_eq (tree : Tree) : tree.preorder = tree :: tree.children.flatMap preorder := by
  rw [preorder, List.flatMap_subtype fun _ _ => rfl, List.unattach_attach]

theorem walk_eq_preorder (tree : Tree) : tree.walk = tree.preorder := by
  induction tree using childrenInduction with
  | step tree ih => rw [walk_eq, preorder_eq, List.flatMap_congr ih]

theorem length_preorder (tree : Tree) : tree.preorder.length = tree.size := by
  induction tree using childrenInduction with
  | step tree ih =>
    rw [preorder_eq, List.length_cons, length_flatMap_eq_sizeAll ih, ← size_eq]

theorem walkStack_walkRound (stack : List Tree) :
    walkStack (walkRound stack) = (walkStack stack).tail := by
  cases stack with
  | nil => simp [walkRound, walkStack]
  | cons tree rest => rw [walkStack_cons, walkRound, List.tail_cons]

/-- The nodes of the walk are those on top of the stack, round by round. -/
theorem head?_iterate_walkRound (stack : List Tree) (round : Nat) :
    (walkRound^[round] stack).head? = (walkStack stack)[round]? := by
  induction round generalizing stack with
  | zero =>
    cases stack with
    | nil => simp [walkStack]
    | cons tree rest =>
      rw [walkStack_cons]
      rfl
  | succ round ih =>
    rw [Function.iterate_succ_apply, ih, walkStack_walkRound, List.getElem?_tail]

theorem nodesAt_eq (path : Path) (tree : Tree) :
    tree.nodesAt path =
      (path, tree) :: tree.children.zipIdx.flatMap fun child => child.1.nodesAt (child.2 :: path) := by
  rw [nodesAt, List.flatMap_subtype (g := fun child => child.1.nodesAt (child.2 :: path))
    fun _ _ => rfl, List.unattach_attach]

theorem map_snd_nodesAt (path : Path) (tree : Tree) :
    (tree.nodesAt path).map Prod.snd = tree.preorder := by
  induction tree using childrenInduction generalizing path with
  | step tree ih =>
    have hchildren : ∀ child ∈ tree.children.zipIdx,
        (child.1.nodesAt (child.2 :: path)).map Prod.snd = child.1.preorder :=
      fun child hchild => ih child.1 (List.fst_mem_of_mem_zipIdx hchild) _
    rw [nodesAt_eq, preorder_eq, List.map_cons, List.map_flatMap, List.flatMap_congr hchildren,
      ← List.flatMap_map Prod.fst, List.zipIdx_map_fst]

/-- The first step to a place is the last one of its path. -/
theorem nodeAt?_snoc (tree : Tree) (path : Path) (i : Nat) :
    tree.nodeAt? (path ++ [i]) = tree.children[i]?.bind fun child => child.nodeAt? path := by
  induction path with
  | nil => cases h : tree.children[i]? <;> simp [nodeAt?, h]
  | cons j path ih =>
    rw [List.cons_append, nodeAt?, ih, Option.bind_assoc]
    rfl

theorem mem_nodesAt {path site : Path} {tree node : Tree} :
    (site, node) ∈ tree.nodesAt path ↔
      ∃ below, site = below ++ path ∧ tree.nodeAt? below = some node := by
  induction tree using childrenInduction generalizing path with
  | step tree ih =>
    rw [nodesAt_eq, List.mem_cons, List.mem_flatMap]
    constructor
    · rintro (hroot | ⟨⟨child, i⟩, hchild, hnode⟩)
      · cases hroot
        exact ⟨[], rfl, rfl⟩
      · obtain ⟨below, rfl, hbelow⟩ := (ih child (List.fst_mem_of_mem_zipIdx hchild)).mp hnode
        refine ⟨below ++ [i], by simp, ?_⟩
        rw [nodeAt?_snoc, List.mem_zipIdx_iff_getElem?.mp hchild]
        exact hbelow
    · rintro ⟨below, rfl, hnode⟩
      cases below using List.reverseRecOn with
      | nil =>
        cases hnode
        exact .inl rfl
      | append_singleton below i =>
        rw [nodeAt?_snoc] at hnode
        obtain ⟨child, hchild, hbelow⟩ := Option.bind_eq_some_iff.mp hnode
        refine .inr ⟨(child, i), List.mem_zipIdx_iff_getElem?.mpr hchild, ?_⟩
        exact (ih child (List.mem_of_getElem? hchild)).mpr ⟨below, by simp, hbelow⟩

theorem suffix_of_mem_nodesAt {path site : Path} {tree : Tree}
    (h : site ∈ places (tree.nodesAt path)) : path <:+ site := by
  obtain ⟨⟨_, node⟩, hmem, rfl⟩ := List.mem_map.mp h
  obtain ⟨below, hsite, -⟩ := mem_nodesAt.mp hmem
  exact ⟨below, hsite.symm⟩

theorem zipIdx_pairwise_ne {α : Type} (l : List α) :
    l.zipIdx.Pairwise fun a b => a.2 ≠ b.2 := by
  refine List.pairwise_map.mp ?_
  rw [List.zipIdx_map_snd]
  exact List.nodup_range'

theorem nodup_places_nodesAt (path : Path) (tree : Tree) : (places (tree.nodesAt path)).Nodup := by
  induction tree using childrenInduction generalizing path with
  | step tree ih =>
    rw [nodesAt_eq, places, List.map_cons, List.map_flatMap, List.nodup_cons]
    refine ⟨fun hpath => ?_, List.nodup_flatMap.mpr ⟨?_, ?_⟩⟩
    · obtain ⟨⟨child, i⟩, -, hsite⟩ := List.mem_flatMap.mp hpath
      exact not_suffix_self i path (suffix_of_mem_nodesAt hsite)
    · exact fun child hchild => ih child.1 (List.fst_mem_of_mem_zipIdx hchild) _
    · refine (zipIdx_pairwise_ne tree.children).imp fun hne site hsite hother => hne ?_
      exact eq_of_suffix (suffix_of_mem_nodesAt hsite) (suffix_of_mem_nodesAt hother)

/-- The walk with a stack is the recursive pre-order. It comes by one node in each round and ends
after as many rounds as the tree has nodes; what it comes by are the nodes at all places of the tree,
each place once, be the nodes alike or not. -/
theorem walk_is_preorder (tree : Tree) :
    tree.walk = tree.preorder ∧
    (∀ round, (walkRound^[round] [tree]).head? = tree.preorder[round]?) ∧
    walkRound^[tree.size] [tree] = [] ∧
    (tree.nodesAt []).map Prod.snd = tree.walk ∧
    (places (tree.nodesAt [])).Nodup ∧
    ∀ place node, (place, node) ∈ tree.nodesAt [] ↔ tree.nodeAt? place = some node := by
  have hrounds : ∀ round, (walkRound^[round] [tree]).head? = tree.preorder[round]? := by
    intro round
    rw [head?_iterate_walkRound, ← walk_eq_preorder, walk]
  have hempty : (walkRound^[tree.size] [tree]).head? = none := by
    rw [hrounds, ← length_preorder, List.getElem?_length]
  refine ⟨walk_eq_preorder tree, hrounds, List.head?_eq_none_iff.mp hempty, ?_,
    nodup_places_nodesAt [] tree, fun place node => ?_⟩
  · rw [map_snd_nodesAt, walk_eq_preorder]
  · rw [mem_nodesAt]
    simp

end Formula.Tree
