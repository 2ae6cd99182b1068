import Formula.Proofs.Nesting
import Mathlib.Data.List.TakeWhile

namespace Formula

/-- Why operators with enough operands may still fail to be put in place. -/
def ParseError.IsBadAssignment (e : ParseError) : Prop :=
  ∃ target, e = .notAssignable target

namespace Parser

/-- The number of infix operators among these. -/
def infixes (operators : List Operator) : Nat :=
  operators.countP (fun op => !op.isUnary)

theorem infixes_cons (op : Operator) (operators : List Operator) :
    infixes (op :: operators) = infixes [op] + infixes operators := by
  simp only [infixes, List.countP_cons, List.countP_nil]
  omega

theorem infixes_append (operators more : List Operator) :
    infixes (operators ++ more) = infixes operators + infixes more :=
  List.countP_append

theorem infixes_split (p : Operator → Bool) (operators : List Operator) :
    infixes operators = infixes (operators.takeWhile p) + infixes (operators.dropWhile p) := by
  rw [← infixes_append, List.takeWhile_append_dropWhile]

section Reduce

variable {op : Operator} {operators : List Operator} {trees made below : List Tree} {e : ParseError}

theorem reduce_length (h : op.reduce trees = .ok made) :
    made.length + infixes [op] = trees.length ∧ made ≠ [] := by
  match op, trees, h with
  | .unary kind, operand :: rest, rfl => simp [infixes, Operator.isUnary]
  | .binary kind, right :: left :: rest, rfl => simp [infixes, Operator.isUnary]
  | .assign, right :: left :: rest, h =>
    cases left <;> cases h
    simp [infixes, Operator.isUnary]

theorem reduce_of_enough (h : infixes [op] + 1 ≤ trees.length) :
    (∃ made, op.reduce trees = .ok made) ∨ ∃ e, op.reduce trees = .error e ∧ e.IsBadAssignment := by
  match op, trees with
  | .unary kind, operand :: rest => exact .inl ⟨_, rfl⟩
  | .binary kind, right :: left :: rest => exact .inl ⟨_, rfl⟩
  | .assign, right :: left :: rest =>
    cases left with
    | var target => exact .inl ⟨_, rfl⟩
    | _ => exact .inr ⟨_, rfl, _, rfl⟩
  | .unary kind, [] => simp at h
  | .binary kind, [] | .binary kind, [_] => simp [infixes, Operator.isUnary] at h
  | .assign, [] | .assign, [_] => simp [infixes, Operator.isUnary] at h

theorem reduce_above (below : List Tree) (h : op.reduce trees = .ok made) :
    op.reduce (trees ++ below) = .ok (made ++ below) := by
  match op, trees, h with
  | .unary kind, operand :: rest, rfl => rfl
  | .binary kind, right :: left :: rest, rfl => rfl
  | .assign, right :: left :: rest, h =>
    cases left <;> cases h
    rfl

theorem reduce_above_error (below : List Tree) (h : op.reduce trees = .error e)
    (he : e.IsBadAssignment) : op.reduce (trees ++ below) = .error e := by
  obtain ⟨target, rfl⟩ := he
  match op, trees, h with
  | .assign, right :: left :: rest, h => cases left <;> cases h <;> rfl
  | .unary kind, [], h | .unary kind, _ :: _, h => cases h
  | .binary kind, [], h | .binary kind, [_], h | .binary kind, _ :: _ :: _, h => cases h
  | .assign, [], h | .assign, [_], h => cases h

theorem reduceAll_length (h : reduceAll operators trees = .ok made) :
    made.length + infixes operators = trees.length ∧ (operators ≠ [] → made ≠ []) := by
  induction operators generalizing trees with
  | nil =>
    cases h
    simp [infixes]
  | cons op operators ih =>
    obtain ⟨middle, hop, hrest⟩ := bind_eq_ok h
    obtain ⟨hlength, hmiddle⟩ := reduce_length hop
    obtain ⟨hmade, hne⟩ := ih hrest
    have hcons := infixes_cons op operators
    refine ⟨by omega, fun _ => ?_⟩
    by_cases hnil : operators = []
    · subst hnil
      cases hrest
      exact hmiddle
    · exact hne hnil

/-- Operators that could be put in place had enough trees. -/
theorem enough_of_reduceAll (h : reduceAll operators trees = .ok made) (hne : operators ≠ []) :
    infixes operators + 1 ≤ trees.length := by
  obtain ⟨hlength, hmade⟩ := reduceAll_length h
  have hpos := List.length_pos_iff.mpr (hmade hne)
  omega

theorem reduceAll_of_enough (h : operators ≠ [] → infixes operators + 1 ≤ trees.length) :
    (∃ made, reduceAll operators trees = .ok made) ∨
      ∃ e, reduceAll operators trees = .error e ∧ e.IsBadAssignment := by
  induction operators generalizing trees with
  | nil => exact .inl ⟨trees, rfl⟩
  | cons op operators ih =>
    have hcons := infixes_cons op operators
    have henough := h (List.cons_ne_nil _ _)
    have hfirst : infixes [op] + 1 ≤ trees.length := by omega
    rcases reduce_of_enough hfirst with ⟨middle, hop⟩ | ⟨e, hop, he⟩
    · have hlength := (reduce_length hop).1
      have hrest : infixes operators + 1 ≤ middle.length := by omega
      rcases ih (fun _ => hrest) with ⟨made, hmade⟩ | ⟨e, herror, he⟩
      · refine .inl ⟨made, ?_⟩
        simp only [reduceAll, List.foldlM_cons, hop]
        exact hmade
      · refine .inr ⟨e, ?_, he⟩
        simp only [reduceAll, List.foldlM_cons, hop]
        exact herror
    · refine .inr ⟨e, ?_, he⟩
      simp only [reduceAll, List.foldlM_cons, hop]
      rfl

theorem reduce_error (h : op.reduce trees = .error e) :
    e.IsBadAssignment ∨ e = .missingOperand op := by
  match op, trees, h with
  | .unary kind, [], rfl => exact .inr rfl
  | .binary kind, [], rfl | .binary kind, [_], rfl => exact .inr rfl
  | .assign, [], rfl | .assign, [_], rfl => exact .inr rfl
  | .assign, right :: left :: rest, h => cases left <;> cases h <;> exact .inl ⟨_, rfl⟩

theorem reduceAll_error (h : reduceAll operators trees = .error e) :
    e.IsBadAssignment ∨ ∃ op, e = .missingOperand op := by
  induction operators generalizing trees with
  | nil => cases h
  | cons op operators ih =>
    rcases bind_eq_error h with hop | ⟨middle, _, hrest⟩
    · exact (reduce_error hop).imp_right (fun he => ⟨op, he⟩)
    · exact ih hrest

theorem short_of_missing (h : reduceAll operators trees = .error (.missingOperand op)) :
    operators ≠ [] ∧ trees.length ≤ infixes operators := by
  by_contra hnot
  have henough : operators ≠ [] → infixes operators + 1 ≤ trees.length := by
    intro hne
    by_contra hlack
    exact hnot ⟨hne, by omega⟩
  rcases reduceAll_of_enough henough with ⟨made, hmade⟩ | ⟨e, hbad, target, rfl⟩
  · simp [hmade] at h
  · simp [hbad] at h

theorem reduceAll_above (below : List Tree) (h : reduceAll operators trees = .ok made) :
    reduceAll operators (trees ++ below) = .ok (made ++ below) := by
  induction operators generalizing trees with
  | nil =>
    cases h
    rfl
  | cons op operators ih =>
    obtain ⟨middle, hop, hrest⟩ := bind_eq_ok h
    simp only [reduceAll, List.foldlM_cons, reduce_above below hop]
    exact ih hrest

theorem reduceAll_above_error (below : List Tree) (h : reduceAll operators trees = .error e)
    (he : e.IsBadAssignment) : reduceAll operators (trees ++ below) = .error e := by
  induction operators generalizing trees with
  | nil => cases h
  | cons op operators ih =>
    rcases bind_eq_error h with hop | ⟨middle, hop, hrest⟩
    · simp only [reduceAll, List.foldlM_cons, reduce_above_error below hop he]
      rfl
    · simp only [reduceAll, List.foldlM_cons, reduce_above below hop]
      exact ih hrest

/-- Operators with enough trees of their own leave those below as they are. -/
theorem reduceAll_own (henough : operators ≠ [] → infixes operators + 1 ≤ trees.length)
    (h : reduceAll operators (trees ++ below) = .ok made) :
    ∃ own, reduceAll operators trees = .ok own ∧ made = own ++ below := by
  rcases reduceAll_of_enough henough with ⟨own, hown⟩ | ⟨e, herror, he⟩
  · have hmade := (reduceAll_above below hown).symm.trans h
    cases hmade
    exact ⟨own, hown, rfl⟩
  · rw [reduceAll_above_error below herror he] at h
    cases h

end Reduce

end Parser

namespace Operator

theorem precedence_pos (op : Operator) : 0 < op.precedence := by
  have h : ∀ op ∈ all, 0 < op.precedence := by decide
  exact h op (mem_all op)

theorem yieldsTo_of_isUnary {op : Operator} (h : op.isUnary = true) (stacked : Operator) :
    op.yieldsTo stacked = false := by
  have hpos := stacked.precedence_pos
  cases op with
  | unary kind =>
    have hprecedence : (unary kind).precedence = 1 := rfl
    have hright : (unary kind).isRightAssociative = true := rfl
    simp only [yieldsTo, hprecedence, hright, Bool.not_true, Bool.and_false, Bool.or_false,
      decide_eq_false_iff_not]
    omega
  | _ => cases h

end Operator

namespace Parser

namespace Level

variable {op : Operator} {l next : Level}

theorem result_error {e : ParseError} (h : l.result = .error e) :
    ∃ f count, e = .wrongCount f count ∧ f.takes count = false := by
  unfold result at h
  split at h
  next key f _ =>
    unfold Function.apply at h
    split at h
    · cases h
    · next htakes =>
      cases h
      exact ⟨f, _, rfl, by simpa using htakes⟩
  next => cases h

/-- Nothing is put in place for a prefix operator. -/
theorem takeWhile_of_isUnary (h : op.isUnary = true) (operators : List Operator) :
    operators.takeWhile op.yieldsTo = [] := by
  cases operators with
  | nil => rfl
  | cons stacked rest => simp [Operator.yieldsTo_of_isUnary h]

/-- A prefix operator comes to wait and nothing else happens. -/
theorem pushOperator_of_isUnary (h : op.isUnary = true) :
    l.pushOperator op = .ok { l with operators := op :: l.operators } := by
  have htake := takeWhile_of_isUnary h l.operators
  have hdrop := List.takeWhile_append_dropWhile (p := op.yieldsTo) (l := l.operators)
  rw [htake, List.nil_append] at hdrop
  simp only [pushOperator, htake, hdrop]
  rfl

theorem pushOperator_waits (h : l.pushOperator op = .ok next) : next.operators ≠ [] := by
  obtain ⟨made, _, h⟩ := bind_eq_ok h
  cases h
  exact List.cons_ne_nil _ _

theorem pushOperator_length (h : l.pushOperator op = .ok next) :
    next.trees.length + infixes l.operators + infixes [op] =
      l.trees.length + infixes next.operators := by
  obtain ⟨made, hmade, h⟩ := bind_eq_ok h
  cases h
  have hlength := (reduceAll_length hmade).1
  have hsplit := infixes_split op.yieldsTo l.operators
  have hcons := infixes_cons op (l.operators.dropWhile op.yieldsTo)
  simp only
  omega

/-- An operator with a tree in front of it fails at a bad assignment at most. -/
theorem pushOperator_of_enough (op : Operator) (h : infixes l.operators + 1 ≤ l.trees.length) :
    (∃ next, l.pushOperator op = .ok next) ∨
      ∃ e, l.pushOperator op = .error e ∧ e.IsBadAssignment := by
  have hsplit := infixes_split op.yieldsTo l.operators
  have htaken : infixes (l.operators.takeWhile op.yieldsTo) + 1 ≤ l.trees.length := by omega
  rcases reduceAll_of_enough (fun _ => htaken) with ⟨made, hmade⟩ | ⟨e, herror, he⟩
  · left
    simp only [pushOperator, hmade]
    exact ⟨_, rfl⟩
  · refine .inr ⟨e, ?_, he⟩
    simp only [pushOperator, herror]
    rfl

end Level

end Parser

end Formula
