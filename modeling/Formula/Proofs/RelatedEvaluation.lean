import Formula.Evaluation
import Formula.Proofs.ActionSteps
import Formula.Proofs.MappedCells
import Formula.Proofs.Walks
import Mathlib.Data.List.Forall2

namespace Formula

/-- The same result, or the same fault, with states in a relation. -/
inductive ResultRelated {σ α : Type} (S : σ → σ → Prop) :
    EStateM.Result Fault σ α → EStateM.Result Fault σ α → Prop
  | fault (fault : Fault) {s s' : σ} : S s s' → ResultRelated S (.error fault s) (.error fault s')
  | value (a : α) {s s' : σ} : S s s' → ResultRelated S (.ok a s) (.ok a s')

namespace Eval

/-- Evaluations that go alike over stores in a relation. -/
def Related {α : Type} (S : Store → Store → Prop) (x y : Eval α) : Prop :=
  ∀ s s' : Store, S s s' → ResultRelated S (x.run s) (y.run s')

variable {α β : Type} {S : Store → Store → Prop}

theorem related_pure (a : α) : Related S (pure a) (pure a) :=
  fun _ _ h => .value a h

theorem related_fail (fault : Fault) : Related S (Eval.fail fault : Eval α) (Eval.fail fault) :=
  fun _ _ h => .fault fault h

theorem related_ofExcept (result : Except Fault α) :
    Related S (ofExcept result) (ofExcept result) := by
  cases result with
  | ok a => exact related_pure a
  | error fault => exact related_fail fault

theorem Related.bind {x y : Eval α} {f g : α → Eval β} (h : Related S x y)
    (hnext : ∀ a, Related S (f a) (g a)) : Related S (x >>= f) (y >>= g) := by
  intro s s' hs
  have hfirst := h s s' hs
  simp only [EStateM.run_bind]
  generalize x.run s = first at hfirst
  generalize y.run s' = first' at hfirst
  cases hfirst with
  | fault fault hleft => exact .fault fault hleft
  | value a hmiddle => exact hnext a _ _ hmiddle

/-- What is done to the one cell corresponds to what is done to the other. -/
structure CellsRelated (S : Store → Store → Prop) (cell cell' : Cell) : Prop where
  read : Related S (read cell) (read cell')
  write (value : Float) : Related S (write cell value) (write cell' value)

/-- What calls do at the one place, as far as they may, corresponds to what they do at the other. -/
structure SitesRelated (S : Store → Store → Prop) (allowed : Deed → Prop) (site site' : Path) :
    Prop where
  fetch (key : String) : allowed (.fetch key) → Related S (fetch site key) (fetch site' key)
  keep (key : String) (value : Float) : allowed (.keep key value) →
    Related S (keep site key value) (keep site' key value)

theorem related_run {allowed : Deed → Prop} {site site' : Path}
    (hsites : SitesRelated S allowed site site') {args args' : List (Eval Float)}
    (hargs : List.Forall₂ (Related S) args args') {action : Action α}
    (h : action.Takes allowed) : Related S (action.run args site) (action.run args' site') := by
  induction action with
  | done result => exact related_pure result
  | argument index next ih =>
    simp only [Action.run]
    cases hget : args[index]? with
    | none =>
      have hlength : args'[index]? = none := by
        rw [List.getElem?_eq_none_iff, ← hargs.length_eq]
        exact List.getElem?_eq_none_iff.mp hget
      rw [hlength]
      exact related_fail _
    | some arg =>
      obtain ⟨hindex, harg⟩ := List.getElem?_eq_some_iff.mp hget
      have hindex' : index < args'.length := hargs.length_eq ▸ hindex
      rw [List.getElem?_eq_getElem hindex']
      have hboth : Related S arg args'[index] := by
        rw [← harg]
        exact hargs.get hindex hindex'
      exact hboth.bind fun value => ih value (h.2 value)
  | fetch key next ih => exact (hsites.fetch key h.1).bind fun value => ih value (h.2 value)
  | keep key value next ih => exact (hsites.keep key value h.1).bind fun _ => ih h.2
  | fail fault => exact related_fail fault

end Eval

namespace Tree

variable {S : Store → Store → Prop} {allowed : Deed → Prop} {f f' : Cell → Cell}
  {place place' : Path}

/-- The cells of a tree correspond once they are mapped, and its calls do what they may. -/
structure RelatedBy (S : Store → Store → Prop) (allowed : Deed → Prop) (f f' : Cell → Cell)
    (tree : Tree) : Prop where
  cells (cell : Cell) : var cell ∈ tree.walk → Eval.CellsRelated S (f cell) (f' cell)
  calls (function : Function) (args : List Tree) : call function args ∈ tree.walk →
    (function.body args.length).Takes allowed

theorem RelatedBy.of_walk {tree child : Tree} (h : tree.RelatedBy S allowed f f')
    (hchild : child.walk ⊆ tree.walk) : child.RelatedBy S allowed f f' :=
  ⟨fun cell hcell => h.cells cell (hchild hcell),
    fun function args hcall => h.calls function args (hchild hcall)⟩

mutual

theorem evalAt_related
    (hsites : ∀ path, Eval.SitesRelated S allowed (path ++ place) (path ++ place'))
    (path : Path) : (tree : Tree) → tree.RelatedBy S allowed f f' →
    Eval.Related S ((tree.mapCells f).evalAt (path ++ place))
      ((tree.mapCells f').evalAt (path ++ place'))
  | const value, _ => Eval.related_pure value
  | var cell, h => (h.cells cell (by simp)).read
  | unary op operand, h =>
    (evalAt_related hsites (0 :: path) operand (h.of_walk (by simp))).bind fun _ =>
      Eval.related_ofExcept _
  | binary op left right, h => by
    have left_related := evalAt_related hsites (0 :: path) left (h.of_walk (by simp))
    have right_related := evalAt_related hsites (1 :: path) right (h.of_walk (by simp))
    rw [mapCells, mapCells, evalAt, evalAt]
    split
    · refine right_related.bind fun divisor => ?_
      split
      · exact Eval.related_pure _
      · exact left_related.bind fun _ => Eval.related_ofExcept _
    · exact left_related.bind fun _ => right_related.bind fun _ => Eval.related_ofExcept _
  | assign target value, h =>
    have htarget := h.cells target (by simp)
    (evalAt_related hsites (1 :: path) value (h.of_walk (by simp))).bind fun x =>
      (htarget.write x).bind fun _ => htarget.read
  | call function args, h => by
    rw [mapCells, mapCells, evalAt, evalAt, length_mapCellsAll, length_mapCellsAll]
    exact Eval.related_run (hsites path)
      (argsFrom_related hsites path 0 args fun arg harg => h.of_walk (walk_subset_call harg))
      (h.calls function args (by simp))

theorem argsFrom_related
    (hsites : ∀ path, Eval.SitesRelated S allowed (path ++ place) (path ++ place'))
    (path : Path) (index : Nat) : (args : List Tree) →
    (∀ arg ∈ args, arg.RelatedBy S allowed f f') →
    List.Forall₂ (Eval.Related S) (argsFrom (path ++ place) index (mapCellsAll f args))
      (argsFrom (path ++ place') index (mapCellsAll f' args))
  | [], _ => .nil
  | arg :: rest, h =>
    .cons (evalAt_related hsites (index :: path) arg (h arg (by simp)))
      (argsFrom_related hsites path (index + 1) rest fun other hother => h other (by simp [hother]))

end

theorem evalTimes_related {tree : Tree}
    (hsites : ∀ path, Eval.SitesRelated S allowed path path)
    (h : tree.RelatedBy S allowed f f') (times : Nat) :
    Eval.Related S ((tree.mapCells f).evalTimes times) ((tree.mapCells f').evalTimes times) := by
  induction times with
  | zero => exact Eval.related_pure []
  | succ times ih =>
    have hsites : ∀ path, Eval.SitesRelated S allowed (path ++ []) (path ++ []) := by
      simpa using hsites
    exact (evalAt_related hsites [] tree h).bind fun value =>
      ih.bind fun values => Eval.related_pure (value :: values)

end Tree

end Formula
