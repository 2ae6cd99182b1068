import Formula.Proofs.Walks
import Mathlib.Data.List.Nodup

namespace Formula.Tree

def isCall : Tree → Bool
  | call .. => true
  | _ => false

mutual

/-- The calls in a tree whose root is at `path`, each with its place, in the order of the walk. -/
def callsAt (path : Path) : Tree → List (Path × Tree)
  | const _ => []
  | var _ => []
  | unary _ operand => operand.callsAt (0 :: path)
  | binary _ left right => left.callsAt (0 :: path) ++ right.callsAt (1 :: path)
  | assign _ value => value.callsAt (1 :: path)
  | call function args => (path, call function args) :: callsFrom path 0 args

def callsFrom (path : Path) (index : Nat) : List Tree → List (Path × Tree)
  | [] => []
  | tree :: rest => tree.callsAt (index :: path) ++ callsFrom path (index + 1) rest

end

mutual

theorem map_fst_callsAt (path : Path) : (tree : Tree) →
    (tree.callsAt path).map Prod.fst = tree.sites path
  | const _ => rfl
  | var _ => rfl
  | unary _ operand => map_fst_callsAt (0 :: path) operand
  | binary _ left right => by
    rw [callsAt, sites, List.map_append, map_fst_callsAt (0 :: path) left,
      map_fst_callsAt (1 :: path) right]
  | assign _ value => map_fst_callsAt (1 :: path) value
  | call function args => by
    rw [callsAt, sites, List.map_cons, map_fst_callsFrom path 0 args]

theorem map_fst_callsFrom (path : Path) (index : Nat) : (args : List Tree) →
    (callsFrom path index args).map Prod.fst = sitesFrom path index args
  | [] => rfl
  | arg :: rest => by
    rw [callsFrom, sitesFrom, List.map_append, map_fst_callsAt (index :: path) arg,
      map_fst_callsFrom path (index + 1) rest]

end

mutual

/-- The calls that have places are all the calls that the walk comes by. -/
theorem map_snd_callsAt (path : Path) : (tree : Tree) →
    (tree.callsAt path).map Prod.snd = tree.walk.filter isCall
  | const _ => by simp [callsAt, isCall]
  | var _ => by simp [callsAt, isCall]
  | unary _ operand => by
    rw [callsAt, map_snd_callsAt (0 :: path) operand, walk_unary]
    simp [isCall]
  | binary _ left right => by
    rw [callsAt, List.map_append, map_snd_callsAt (0 :: path) left,
      map_snd_callsAt (1 :: path) right, walk_binary]
    simp [isCall]
  | assign _ value => by
    rw [callsAt, map_snd_callsAt (1 :: path) value, walk_assign]
    simp [isCall]
  | call function args => by
    rw [callsAt, List.map_cons, map_snd_callsFrom path 0 args, walk_call,
      List.filter_cons_of_pos rfl]

theorem map_snd_callsFrom (path : Path) (index : Nat) : (args : List Tree) →
    (callsFrom path index args).map Prod.snd = (args.flatMap walk).filter isCall
  | [] => rfl
  | arg :: rest => by
    rw [callsFrom, List.map_append, map_snd_callsAt (index :: path) arg,
      map_snd_callsFrom path (index + 1) rest, List.flatMap_cons, List.filter_append]

end

mutual

theorem suffix_of_mem_sites {site : Path} (path : Path) : (tree : Tree) →
    site ∈ tree.sites path → path <:+ site
  | const _, h => by cases h
  | var _, h => by cases h
  | unary _ operand, h =>
    (List.suffix_cons 0 path).trans (suffix_of_mem_sites (0 :: path) operand h)
  | binary _ left right, h => by
    rcases List.mem_append.mp h with h | h
    · exact (List.suffix_cons 0 path).trans (suffix_of_mem_sites (0 :: path) left h)
    · exact (List.suffix_cons 1 path).trans (suffix_of_mem_sites (1 :: path) right h)
  | assign _ value, h =>
    (List.suffix_cons 1 path).trans (suffix_of_mem_sites (1 :: path) value h)
  | call _ args, h => by
    rcases List.mem_cons.mp h with rfl | h
    · exact List.suffix_refl site
    · obtain ⟨i, -, hi⟩ := suffix_of_mem_sitesFrom path 0 args h
      exact (List.suffix_cons i path).trans hi

theorem suffix_of_mem_sitesFrom {site : Path} (path : Path) (index : Nat) : (args : List Tree) →
    site ∈ sitesFrom path index args → ∃ i, index ≤ i ∧ (i :: path) <:+ site
  | [], h => by cases h
  | arg :: rest, h => by
    rcases List.mem_append.mp h with h | h
    · exact ⟨index, Nat.le_refl index, suffix_of_mem_sites (index :: path) arg h⟩
    · obtain ⟨i, hle, hi⟩ := suffix_of_mem_sitesFrom path (index + 1) rest h
      exact ⟨i, by omega, hi⟩

end

variable {path site : Path} {i j : Nat}

theorem not_suffix_self (i : Nat) (path : Path) : ¬ (i :: path) <:+ path := by
  intro h
  have hlength := h.length_le
  rw [List.length_cons] at hlength
  omega

/-- What stands below one child does not stand below another. -/
theorem eq_of_suffix (hi : (i :: path) <:+ site) (hj : (j :: path) <:+ site) : i = j := by
  have hboth := List.suffix_of_suffix_length_le hi hj (by simp)
  have hsame := hboth.eq_of_length (by simp)
  exact (List.cons.inj hsame).1

theorem ne_of_mem_sitesFrom {index : Nat} {args : List Tree}
    (h : site ∈ sitesFrom path index args) : site ≠ path := by
  rintro rfl
  obtain ⟨i, -, hi⟩ := suffix_of_mem_sitesFrom site index args h
  exact not_suffix_self i site hi

theorem nodup_append_of_suffix {first second : List Path} (hfirst : first.Nodup)
    (hsecond : second.Nodup) (hi : ∀ site ∈ first, (i :: path) <:+ site)
    (hj : ∀ site ∈ second, ∃ j, i < j ∧ (j :: path) <:+ site) : (first ++ second).Nodup := by
  refine List.nodup_append.mpr ⟨hfirst, hsecond, ?_⟩
  rintro site hsite _ hother rfl
  obtain ⟨j, hlt, hbelow⟩ := hj site hother
  have hsame := eq_of_suffix (hi site hsite) hbelow
  omega

mutual

/-- Each call of a tree has a place of its own. -/
theorem nodup_sites (path : Path) : (tree : Tree) → (tree.sites path).Nodup
  | const _ => List.nodup_nil
  | var _ => List.nodup_nil
  | unary _ operand => nodup_sites (0 :: path) operand
  | binary _ left right =>
    nodup_append_of_suffix (nodup_sites (0 :: path) left) (nodup_sites (1 :: path) right)
      (fun _ h => suffix_of_mem_sites (0 :: path) left h)
      (fun _ h => ⟨1, by decide, suffix_of_mem_sites (1 :: path) right h⟩)
  | assign _ value => nodup_sites (1 :: path) value
  | call _ args =>
    List.nodup_cons.mpr ⟨fun h => ne_of_mem_sitesFrom h rfl, nodup_sitesFrom path 0 args⟩

theorem nodup_sitesFrom (path : Path) (index : Nat) : (args : List Tree) →
    (sitesFrom path index args).Nodup
  | [] => List.nodup_nil
  | arg :: rest =>
    nodup_append_of_suffix (nodup_sites (index :: path) arg)
      (nodup_sitesFrom path (index + 1) rest)
      (fun _ h => suffix_of_mem_sites (index :: path) arg h)
      (fun _ h => suffix_of_mem_sitesFrom path (index + 1) rest h)

end

/-- A call is told by its place. -/
theorem eq_of_callsAt {tree node node' : Tree} (h : (site, node) ∈ tree.callsAt path)
    (h' : (site, node') ∈ tree.callsAt path) : node = node' := by
  have hnodup := nodup_sites path tree
  rw [← map_fst_callsAt] at hnodup
  have hpairs := List.inj_on_of_nodup_map hnodup h h' rfl
  exact (Prod.mk.inj hpairs).2

end Formula.Tree
