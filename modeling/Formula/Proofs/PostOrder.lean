import Formula.Proofs.CallPlaces

namespace Formula.Tree

mutual

/-- The nodes of a tree whose root is at `path`, each with its place and behind its operands. -/
def postorder (path : Path) : Tree → List (Path × Tree)
  | const value => [(path, const value)]
  | var cell => [(path, var cell)]
  | unary op operand => operand.postorder (0 :: path) ++ [(path, unary op operand)]
  | binary op left right =>
    left.postorder (0 :: path) ++ right.postorder (1 :: path) ++ [(path, binary op left right)]
  | assign target value => value.postorder (1 :: path) ++ [(path, assign target value)]
  | call function args => postorderFrom path 0 args ++ [(path, call function args)]

def postorderFrom (path : Path) (index : Nat) : List Tree → List (Path × Tree)
  | [] => []
  | tree :: rest => tree.postorder (index :: path) ++ postorderFrom path (index + 1) rest

end

/-- The node that is written to by an assignment. -/
def target? : Tree → Option Tree
  | assign target _ => some (var target)
  | _ => none

/-- The places of the nodes. -/
def places (entries : List (Path × Tree)) : List Path :=
  entries.map Prod.fst

section Places

variable {path site : Path} {node : Tree} {entries : List (Path × Tree)}

theorem places_append (first second : List (Path × Tree)) :
    places (first ++ second) = places first ++ places second :=
  List.map_append

theorem mem_places_append {first second : List (Path × Tree)} :
    site ∈ places (first ++ second) ↔ site ∈ places first ∨ site ∈ places second := by
  rw [places_append, List.mem_append]

/-- The node behind its operands has a place of its own. -/
theorem nodup_places_snoc (h : (places entries).Nodup)
    (hbelow : ∀ site ∈ places entries, ∃ i, (i :: path) <:+ site) :
    (places (entries ++ [(path, node)])).Nodup := by
  rw [places_append]
  refine List.nodup_append.mpr ⟨h, List.nodup_singleton path, ?_⟩
  rintro site hsite _ hlast rfl
  cases List.mem_singleton.mp hlast
  obtain ⟨i, hi⟩ := hbelow path hsite
  exact not_suffix_self i path hi

theorem suffix_of_mem_snoc (h : site ∈ places (entries ++ [(path, node)]))
    (hbelow : site ∈ places entries → path <:+ site) : path <:+ site := by
  rcases mem_places_append.mp h with h | h
  · exact hbelow h
  · cases List.mem_singleton.mp h
    exact List.suffix_refl path

end Places

mutual

theorem suffix_of_mem_postorder {site : Path} (path : Path) : (tree : Tree) →
    site ∈ places (tree.postorder path) → path <:+ site
  | const _, h | var _, h => by
    cases List.mem_singleton.mp h
    exact List.suffix_refl path
  | unary _ operand, h =>
    suffix_of_mem_snoc h fun h =>
      (List.suffix_cons 0 path).trans (suffix_of_mem_postorder (0 :: path) operand h)
  | binary _ left right, h => by
    refine suffix_of_mem_snoc h fun h => ?_
    rcases mem_places_append.mp h with h | h
    · exact (List.suffix_cons 0 path).trans (suffix_of_mem_postorder (0 :: path) left h)
    · exact (List.suffix_cons 1 path).trans (suffix_of_mem_postorder (1 :: path) right h)
  | assign _ value, h =>
    suffix_of_mem_snoc h fun h =>
      (List.suffix_cons 1 path).trans (suffix_of_mem_postorder (1 :: path) value h)
  | call _ args, h => by
    refine suffix_of_mem_snoc h fun h => ?_
    obtain ⟨i, -, hi⟩ := suffix_of_mem_postorderFrom path 0 args h
    exact (List.suffix_cons i path).trans hi

theorem suffix_of_mem_postorderFrom {site : Path} (path : Path) (index : Nat) :
    (args : List Tree) → site ∈ places (postorderFrom path index args) →
      ∃ i, index ≤ i ∧ (i :: path) <:+ site
  | [], h => by cases h
  | arg :: rest, h => by
    rcases mem_places_append.mp h with h | h
    · exact ⟨index, Nat.le_refl index, suffix_of_mem_postorder (index :: path) arg h⟩
    · obtain ⟨i, hle, hi⟩ := suffix_of_mem_postorderFrom path (index + 1) rest h
      exact ⟨i, by omega, hi⟩

end

mutual

/-- Each node has a place of its own. -/
theorem nodup_postorder (path : Path) : (tree : Tree) → (places (tree.postorder path)).Nodup
  | const _ | var _ => List.nodup_singleton path
  | unary _ operand =>
    nodup_places_snoc (nodup_postorder (0 :: path) operand)
      fun _ h => ⟨0, suffix_of_mem_postorder (0 :: path) operand h⟩
  | binary _ left right => by
    refine nodup_places_snoc ?_ fun site h => ?_
    · rw [places_append]
      exact nodup_append_of_suffix (nodup_postorder (0 :: path) left)
        (nodup_postorder (1 :: path) right)
        (fun _ h => suffix_of_mem_postorder (0 :: path) left h)
        (fun _ h => ⟨1, by decide, suffix_of_mem_postorder (1 :: path) right h⟩)
    · rcases mem_places_append.mp h with h | h
      · exact ⟨0, suffix_of_mem_postorder (0 :: path) left h⟩
      · exact ⟨1, suffix_of_mem_postorder (1 :: path) right h⟩
  | assign _ value =>
    nodup_places_snoc (nodup_postorder (1 :: path) value)
      fun _ h => ⟨1, suffix_of_mem_postorder (1 :: path) value h⟩
  | call _ args => by
    refine nodup_places_snoc (nodup_postorderFrom path 0 args) fun site h => ?_
    obtain ⟨i, -, hi⟩ := suffix_of_mem_postorderFrom path 0 args h
    exact ⟨i, hi⟩

theorem nodup_postorderFrom (path : Path) (index : Nat) : (args : List Tree) →
    (places (postorderFrom path index args)).Nodup
  | [] => List.nodup_nil
  | arg :: rest => by
    rw [postorderFrom, places_append]
    exact nodup_append_of_suffix (nodup_postorder (index :: path) arg)
      (nodup_postorderFrom path (index + 1) rest)
      (fun _ h => suffix_of_mem_postorder (index :: path) arg h)
      (fun _ h => suffix_of_mem_postorderFrom path (index + 1) rest h)

end

/-- The nodes that the walk comes by, the targets of assignments apart. -/
def Ordered (entries : List (Path × Tree)) (nodes : List Tree) : Prop :=
  (entries.map Prod.snd ++ nodes.filterMap target?).Perm nodes

section Ordered

variable {entries more : List (Path × Tree)} {nodes others : List Tree}

theorem Ordered.perm (h : Ordered entries nodes) (hperm : entries.Perm more) :
    Ordered more nodes :=
  ((hperm.map Prod.snd).append_right _).symm.trans h

theorem Ordered.append (h : Ordered entries nodes) (hmore : Ordered more others) :
    Ordered (entries ++ more) (nodes ++ others) := by
  refine List.Perm.trans ?_ (List.Perm.append h hmore)
  simp only [List.map_append, List.filterMap_append, List.append_assoc]
  exact (List.perm_append_comm_assoc _ _ _).append_left _

/-- A node behind its operands, with its target if it has one. -/
theorem Ordered.snoc (h : Ordered entries nodes) (path : Path) (node : Tree) :
    Ordered (entries ++ [(path, node)]) (node :: (node.target?.toList ++ nodes)) := by
  have hnode : Ordered [(path, node)] (node :: node.target?.toList) := by
    cases node <;> exact .refl _
  exact (hnode.append h).perm List.perm_append_comm

end Ordered

mutual

/-- The nodes in post-order, together with the targets of assignments, are those of the walk. -/
theorem ordered_postorder (path : Path) : (tree : Tree) →
    Ordered (tree.postorder path) tree.walk
  | const _ | var _ => by simp [Ordered, postorder, target?]
  | unary op operand => by
    rw [walk_unary]
    exact (ordered_postorder (0 :: path) operand).snoc _ _
  | binary op left right => by
    rw [walk_binary]
    exact ((ordered_postorder (0 :: path) left).append
      (ordered_postorder (1 :: path) right)).snoc _ _
  | assign target value => by
    rw [walk_assign]
    exact (ordered_postorder (1 :: path) value).snoc _ _
  | call f args => by
    rw [walk_call]
    exact (ordered_postorderFrom path 0 args).snoc _ _

theorem ordered_postorderFrom (path : Path) (index : Nat) : (args : List Tree) →
    Ordered (postorderFrom path index args) (args.flatMap walk)
  | [] => .nil
  | arg :: rest =>
    (ordered_postorder (index :: path) arg).append (ordered_postorderFrom path (index + 1) rest)

end

end Formula.Tree
