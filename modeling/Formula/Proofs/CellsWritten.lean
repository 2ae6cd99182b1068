import Formula.Proofs.CountedCalls
import Formula.Proofs.FaultlessEvaluation

namespace Formula

/-- A cell is the target of an assignment in the tree, perhaps under another name. -/
def Tree.Assigns (tree : Tree) (cell : Cell) : Prop :=
  ∃ target value, assign target value ∈ tree.walk ∧ target.id = cell.id

/-- All cells but the targets of the tree's assignments hold what they held. -/
def Store.KeepsRest (tree : Tree) (store later : Store) : Prop :=
  ∀ cell, ¬ tree.Assigns cell → later.values.read cell = store.values.read cell

instance (tree : Tree) : IsPreorder Store (Store.KeepsRest tree) where
  refl _ _ _ := rfl
  trans _ _ _ h hlater cell hcell := (hlater cell hcell).trans (h cell hcell)

namespace Tree

theorem isWithin_keepsRest (tree : Tree) :
    tree.IsWithin (Store.KeepsRest tree) fun _ => True where
  write target value hassign x := by
    intro store cell hcell
    have hother : cell.id ≠ target.id := by
      intro hsame
      exact hcell ⟨target, value, hassign, hsame.symm⟩
    show (store.values.write target x).read cell = store.values.read cell
    rw [Values.read_write, if_neg hother]
  calls f args _ site := (f.body args.length).takes_within args.length fun _ _ _ _ _ => rfl

/-- A tree over functions that have arguments evaluated and do nothing else stays in its store and
meets no fault if it assigns to no cell. -/
theorem isWithin_eq {tree : Tree} (hassigns : ∀ cell, ¬ tree.Assigns cell)
    (hcalls : ∀ f args, call f args ∈ tree.walk →
      (f.body args.length).Takes (Deed.IsArgument args.length)) :
    tree.IsWithin (· = ·) fun _ => False where
  write target value hassign := (hassigns target ⟨target, value, hassign, rfl⟩).elim
  calls f args hcall site := by
    refine (hcalls f args hcall).mono fun deed hdeed => ?_
    cases deed with
    | argument => exact .inl hdeed
    | fetch | keep | fail => exact hdeed.elim

/-- What has a value and changes nothing has the same value each time. -/
theorem evalTimes_again {tree : Tree} {store : Store} {value : Float}
    (h : tree.eval.run store = .ok value store) (times : Nat) :
    (tree.evalTimes times).run store = .ok (List.replicate times value) store := by
  induction times with
  | zero => rfl
  | succ times ih =>
    simp only [evalTimes, EStateM.run_bind, h, ih, EStateM.run_pure, List.replicate_succ]

end Tree

/-- Evaluation, some times over, leaves all cells as they were but the targets of the tree's
assignments, also where it meets a fault. It has values if functions ask for arguments that they are
given and do not fail. Without assignments, over the built-in functions, the value is the same each
time and the store is what it was. -/
theorem evalTimes_keepsRest (kernels : Builtin.Kernels) (tree : Tree) (times : Nat)
    (store : Store) :
    (∀ cell, ¬ tree.Assigns cell →
      (Eval.behind ((tree.evalTimes times).run store)).values.read cell =
        store.values.read cell) ∧
    (tree.Contained → ∃ values later, (tree.evalTimes times).run store = .ok values later) ∧
    ((∀ cell, ¬ tree.Assigns cell) → tree.Callable (Builtin.table kernels) →
      ∃ value, (tree.evalTimes times).run store = .ok (List.replicate times value) store) := by
  refine ⟨?_, ?_, ?_⟩
  · exact (Tree.evalTimes_within tree.isWithin_keepsRest times).behind store
  · intro hcontained
    obtain ⟨values, later, hrun, -⟩ :=
      (Tree.evalTimes_within hcontained.isWithin times).result store
    exact ⟨values, later, hrun⟩
  · intro hassigns hcallable
    have hwithin := Tree.isWithin_eq hassigns fun f args hcall =>
      hcallable.takes_arguments (fun _ _ => Builtin.plain_table) hcall
    obtain ⟨value, later, hrun, rfl⟩ := (Tree.evalAt_within [] tree hwithin).result store
    exact ⟨value, Tree.evalTimes_again hrun times⟩

/-- An assignment of what adds up another cell, and a choice that that cell makes. -/
theorem evalTimes_keepsRest_accum :
    let x : Cell := ⟨0, some "x"⟩
    let store : Store := ⟨⟨[(0, 3)]⟩, .empty⟩
    let sums : Tree := .assign ⟨1, some "y"⟩ (.call .accum [.var x])
    let chooses : Tree := .call Builtin.conditional [.var x, .const 1, .const 2]
    (sums.Contained ∧ ¬ sums.Assigns x ∧
      ∃ values later, (sums.evalTimes 2).run store = .ok values later ∧
        later.values.read x = store.values.read x) ∧
    (∀ cell, ¬ chooses.Assigns cell) ∧ chooses.Callable (Builtin.table .standard) ∧
      ∃ value, (chooses.evalTimes 2).run store = .ok (List.replicate 2 value) store := by
  intro x store sums chooses
  have hcontained : sums.Contained := by
    intro f args hcall
    obtain ⟨rfl, rfl⟩ : f = .accum ∧ args = [.var x] := by simpa [sums] using hcall
    exact ⟨trivial, fun _ => ⟨Nat.zero_lt_one, fun _ => ⟨trivial, trivial⟩⟩⟩
  have hother : ¬ sums.Assigns x := by
    rintro ⟨target, value, hassign, hsame⟩
    obtain ⟨rfl, -⟩ : target = ⟨1, some "y"⟩ ∧ value = .call .accum [.var x] := by
      simpa [sums] using hassign
    cases hsame
  have hassigns : ∀ cell, ¬ chooses.Assigns cell := by
    rintro cell ⟨target, value, hassign, -⟩
    simp [chooses] at hassign
  have hcallable : chooses.Callable (Builtin.table .standard) := by
    refine Tree.callable_call.mpr ⟨⟨rfl, .inr ⟨"if", rfl⟩⟩, ?_⟩
    simp
  obtain ⟨hrest, htotal, -⟩ := evalTimes_keepsRest .standard sums 2 store
  obtain ⟨-, -, hsame⟩ := evalTimes_keepsRest .standard chooses 2 store
  obtain ⟨values, later, hrun⟩ := htotal hcontained
  have hread := hrest x hother
  rw [hrun] at hread
  exact ⟨⟨hcontained, hother, values, later, hrun, hread⟩, hassigns, hcallable,
    hsame hassigns hcallable⟩

end Formula
