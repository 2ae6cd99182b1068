import Formula.Evaluation
import Formula.Proofs.ActionSteps
import Formula.Proofs.Domains
import Formula.Proofs.StatefulWork
import Formula.Proofs.Walks
import Mathlib.Order.Defs.Unbundled

namespace Formula

variable {S : Store → Store → Prop} {faults : Fault → Prop}

namespace Eval

variable {α β : Type}

/-- From any store the evaluation leads to one to which the relation leads from there, also if it
meets a fault, which is one of these. -/
def Within (S : Store → Store → Prop) (faults : Fault → Prop) (x : Eval α) : Prop :=
  ∀ store, Leads x store (fun _ later => S store later)
    (fun fault left => faults fault ∧ S store left)

theorem Within.behind {x : Eval α} (h : x.Within S faults) (store : Store) :
    S store (behind (x.run store)) := by
  have hrun := h store
  unfold Leads at hrun
  cases hx : x.run store with
  | ok a later =>
    rw [hx] at hrun
    exact hrun
  | error fault left =>
    rw [hx] at hrun
    exact hrun.2

/-- Where no fault may be met there is a result. -/
theorem Within.result {x : Eval α} (h : x.Within S fun _ => False) (store : Store) :
    ∃ a later, x.run store = .ok a later ∧ S store later := by
  have hrun := h store
  unfold Leads at hrun
  cases hx : x.run store with
  | ok a later =>
    rw [hx] at hrun
    exact ⟨a, later, rfl, hrun⟩
  | error fault left =>
    rw [hx] at hrun
    exact hrun.1.elim

variable [IsPreorder Store S]

theorem within_pure (a : α) : Within S faults (pure a : Eval α) :=
  fun store => refl store

theorem within_fail {fault : Fault} (h : faults fault) : Within S faults (fail fault : Eval α) :=
  fun store => ⟨h, refl store⟩

theorem within_ofExcept {x : Except Fault α} (h : Succeeds x) : Within S faults (ofExcept x) := by
  obtain ⟨a, rfl⟩ := h
  exact within_pure a

theorem Within.bind {x : Eval α} {f : α → Eval β} (h : x.Within S faults)
    (hnext : ∀ a, (f a).Within S faults) : (x >>= f).Within S faults := by
  intro store
  refine (h store).bind fun a middle hmiddle => ?_
  refine (hnext a middle).mono ?_ ?_
  · exact fun _ later hlater => IsTrans.trans _ _ _ hmiddle hlater
  · exact fun fault left hleft => ⟨hleft.1, IsTrans.trans _ _ _ hmiddle hleft.2⟩

theorem within_read (cell : Cell) : Within S faults (read cell) :=
  fun store => refl store

theorem within_fetch (site : Path) (key : String) : Within S faults (fetch site key) :=
  fun store => refl store

end Eval

/-- A step at a call, with some number of arguments, that keeps evaluation within. -/
def Deed.IsWithin (S : Store → Store → Prop) (faults : Fault → Prop) (site : Path) (count : Nat) :
    Deed → Prop
  | argument index => index < count ∨ faults (.missingArgument index)
  | fetch _ => True
  | keep key value => (Eval.keep site key value).Within S faults
  | fail fault => faults fault

/-- Where any fault may be met, only what is kept matters. -/
theorem Action.takes_within {α : Type} (action : Action α) {site : Path} (count : Nat)
    (hkeep : ∀ key value, (Eval.keep site key value).Within S fun _ => True) :
    action.Takes (Deed.IsWithin S (fun _ => True) site count) := by
  refine action.takes_any.mono fun deed _ => ?_
  cases deed with
  | argument => exact .inr trivial
  | fetch | fail => trivial
  | keep key value => exact hkeep key value

theorem Action.within_run [IsPreorder Store S] {α : Type} {args : List (Eval Float)} {site : Path}
    {action : Action α} (h : action.Takes (Deed.IsWithin S faults site args.length))
    (hargs : ∀ arg ∈ args, arg.Within S faults) : (action.run args site).Within S faults := by
  induction action with
  | done result => exact Eval.within_pure result
  | argument index next ih =>
    obtain ⟨hindex, hnext⟩ := h
    rw [run]
    cases harg : args[index]? with
    | none =>
      have hmissing := hindex.resolve_left (Nat.not_lt.mpr (List.getElem?_eq_none_iff.mp harg))
      exact Eval.within_fail hmissing
    | some arg =>
      have hfirst := hargs arg (List.mem_of_getElem? harg)
      exact hfirst.bind fun value => ih value (hnext value)
  | fetch key next ih => exact (Eval.within_fetch site key).bind fun value => ih value (h.2 value)
  | keep key value next ih => exact Eval.Within.bind h.1 fun _ => ih h.2
  | fail fault => exact Eval.within_fail h

namespace Tree

/-- Assignments and calls of a tree keep evaluation within. -/
structure IsWithin (S : Store → Store → Prop) (faults : Fault → Prop) (tree : Tree) : Prop where
  write (target : Cell) (value : Tree) : assign target value ∈ tree.walk →
    ∀ x, (Eval.write target x).Within S faults
  calls (f : Function) (args : List Tree) : call f args ∈ tree.walk →
    ∀ site, (f.body args.length).Takes (Deed.IsWithin S faults site args.length)

theorem IsWithin.of_walk {tree child : Tree} (h : tree.IsWithin S faults)
    (hchild : child.walk ⊆ tree.walk) : child.IsWithin S faults :=
  ⟨fun target value hassign => h.write target value (hchild hassign),
    fun f args hcall => h.calls f args (hchild hcall)⟩

mutual

/-- Operators meet no fault, so evaluation is within if assignments and calls are. -/
theorem evalAt_within [IsPreorder Store S] (path : Path) : (tree : Tree) →
    tree.IsWithin S faults → (tree.evalAt path).Within S faults
  | const value, _ => Eval.within_pure value
  | var cell, _ => Eval.within_read cell
  | unary op operand, h =>
    (evalAt_within (0 :: path) operand (h.of_walk (by simp))).bind fun x =>
      Eval.within_ofExcept (op.apply_succeeds x)
  | binary op left right, h => by
    have left_within := evalAt_within (0 :: path) left (h.of_walk (by simp))
    have right_within := evalAt_within (1 :: path) right (h.of_walk (by simp))
    rw [evalAt]
    split
    · refine right_within.bind fun divisor => ?_
      split
      · exact Eval.within_pure 0
      · exact left_within.bind fun dividend =>
          Eval.within_ofExcept (op.apply_succeeds dividend divisor)
    · exact left_within.bind fun a => right_within.bind fun b =>
        Eval.within_ofExcept (op.apply_succeeds a b)
  | assign target value, h =>
    (evalAt_within (1 :: path) value (h.of_walk (by simp))).bind fun x =>
      (h.write target value (by simp) x).bind fun _ => Eval.within_read target
  | call f args, h => by
    have htakes : (f.body args.length).Takes
        (Deed.IsWithin S faults path (argsFrom path 0 args).length) := by
      rw [length_argsFrom]
      exact h.calls f args (by simp) path
    exact Action.within_run htakes
      (argsFrom_within path 0 args fun arg harg => h.of_walk (walk_subset_call harg))

theorem argsFrom_within [IsPreorder Store S] (path : Path) (index : Nat) : (args : List Tree) →
    (∀ arg ∈ args, arg.IsWithin S faults) → ∀ x ∈ argsFrom path index args, x.Within S faults
  | [], _ => by simp [argsFrom]
  | arg :: rest, h => by
    obtain ⟨harg, hrest⟩ := List.forall_mem_cons.mp h
    exact List.forall_mem_cons.mpr
      ⟨evalAt_within (index :: path) arg harg, argsFrom_within path (index + 1) rest hrest⟩

end

theorem evalTimes_within [IsPreorder Store S] {tree : Tree} (h : tree.IsWithin S faults)
    (times : Nat) : (tree.evalTimes times).Within S faults := by
  induction times with
  | zero => exact Eval.within_pure []
  | succ times ih =>
    exact (evalAt_within [] tree h).bind fun value =>
      ih.bind fun values => Eval.within_pure (value :: values)

end Tree

end Formula
