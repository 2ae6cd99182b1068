import Formula.Proofs.NothingLost
import Formula.Proofs.OpenGroups

namespace Formula

open Formula.Parser

/-- A function that a formula may call with so many arguments. -/
structure Admissible (functions : Functions) (f : Function) (count : Nat) : Prop where
  takes : f.takes count = true
  known : f = Function.last ∨ ∃ key, functions.find? key = some f

namespace Tree

/-- All calls in a tree are admissible. -/
def Callable (functions : Functions) (tree : Tree) : Prop :=
  ∀ f args, call f args ∈ tree.walk → Admissible functions f args.length

variable {functions : Functions}

@[simp] theorem callable_const {value : Float} : (const value).Callable functions := by
  simp [Callable]

@[simp] theorem callable_var {cell : Cell} : (var cell).Callable functions := by
  simp [Callable]

@[simp] theorem callable_unary {op : UnaryOp} {operand : Tree} :
    (unary op operand).Callable functions ↔ operand.Callable functions := by
  simp [Callable]

@[simp] theorem callable_binary {op : BinaryOp} {left right : Tree} :
    (binary op left right).Callable functions ↔
      left.Callable functions ∧ right.Callable functions := by
  simp [Callable, or_imp, forall_and]

@[simp] theorem callable_assign {target : Cell} {value : Tree} :
    (assign target value).Callable functions ↔ value.Callable functions := by
  simp [Callable]

@[simp] theorem callable_call {f : Function} {args : List Tree} :
    (call f args).Callable functions ↔
      Admissible functions f args.length ∧ ∀ arg ∈ args, arg.Callable functions := by
  simp only [Callable, walk_call, List.mem_cons, call.injEq, List.mem_flatMap]
  constructor
  · exact fun h => ⟨h f args (.inl ⟨rfl, rfl⟩),
      fun arg harg g inner hinner => h g inner (.inr ⟨arg, harg, hinner⟩)⟩
  · rintro ⟨hcall, hargs⟩ g inner (⟨rfl, rfl⟩ | ⟨arg, harg, hinner⟩)
    · exact hcall
    · exact hargs arg harg g inner hinner

theorem callable_ofGroup {trees : List Tree} (h : ∀ tree ∈ trees, tree.Callable functions) :
    (ofGroup trees).Callable functions := by
  rcases trees with _ | ⟨first, _ | ⟨second, rest⟩⟩
  · exact callable_const
  · exact h first (by simp)
  · exact callable_call.mpr ⟨⟨rfl, .inl rfl⟩, h⟩

end Tree

namespace Parser

variable {functions : Functions}

section Reduce

variable {op : Operator} {operators : List Operator} {trees made : List Tree}

theorem reduce_callable (h : op.reduce trees = .ok made)
    (htrees : ∀ tree ∈ trees, tree.Callable functions) :
    ∀ tree ∈ made, tree.Callable functions := by
  match op, trees, h with
  | .unary kind, operand :: rest, rfl => simpa using htrees
  | .binary kind, right :: left :: rest, rfl =>
    simp only [List.forall_mem_cons] at htrees
    obtain ⟨hright, hleft, hrest⟩ := htrees
    simpa [hright, hleft] using hrest
  | .assign, right :: left :: rest, h =>
    cases left <;> cases h
    simp only [List.forall_mem_cons] at htrees
    obtain ⟨hright, -, hrest⟩ := htrees
    simpa [hright] using hrest

theorem reduceAll_callable (h : reduceAll operators trees = .ok made)
    (htrees : ∀ tree ∈ trees, tree.Callable functions) :
    ∀ tree ∈ made, tree.Callable functions :=
  reduceAll_preserves (P := fun trees => ∀ tree ∈ trees, tree.Callable functions)
    (fun htrees hop => reduce_callable hop htrees) htrees h

theorem result_callable {call : Option (String × Function)} {tree : Tree}
    (h : (Level.mk call [] made).result = .ok tree) (hcall : CallFound functions call)
    (hmade : ∀ tree ∈ made, tree.Callable functions) : tree.Callable functions := by
  have hreverse : ∀ tree ∈ made.reverse, tree.Callable functions := by simpa using hmade
  cases call with
  | none =>
    cases h
    exact Tree.callable_ofGroup hreverse
  | some entry =>
    obtain ⟨key, f⟩ := entry
    simp only [Level.result, Function.apply] at h
    split at h
    next htakes =>
      cases h
      exact Tree.callable_call.mpr ⟨⟨htakes, .inr ⟨key, hcall key f rfl⟩⟩, hreverse⟩
    next => cases h

end Reduce

/-- A level with calls as they should be, that of its own group among them. -/
structure Level.Callable (functions : Functions) (l : Level) : Prop where
  call : CallFound functions l.call
  trees : ∀ tree ∈ l.trees, tree.Callable functions

theorem Level.Callable.push {l : Level} (h : l.Callable functions) {tree : Tree}
    (htree : tree.Callable functions) : (l.push tree).Callable functions :=
  ⟨h.call, List.forall_mem_cons.mpr ⟨htree, h.trees⟩⟩

theorem Level.callable_empty {call : Option (String × Function)} (h : CallFound functions call) :
    (Level.empty call).Callable functions :=
  ⟨h, by simp [Level.empty]⟩

namespace Nesting

structure Callable (functions : Functions) (n : Nesting) : Prop where
  awaited : CallFound functions n.awaited
  current : n.current.Callable functions
  outer : ∀ l ∈ n.outer, l.Callable functions

variable {n next : Nesting} {t : Token} {tokens : List Token}

theorem callable_start (functions : Functions) (vars : Variables) (created : List String) :
    (start vars created).Callable functions :=
  have hnone : CallFound functions none := by simp [CallFound]
  ⟨hnone, Level.callable_empty hnone, by simp [start]⟩

theorem Callable.push (h : n.Callable functions) {tree : Tree} (htree : tree.Callable functions) :
    (n.push tree).Callable functions :=
  ⟨h.awaited, h.current.push htree, h.outer⟩

theorem Callable.accept (h : n.Callable functions) (hnext : n.accept functions t = .ok next) :
    next.Callable functions := by
  cases accepts_of_ok hnext with
  | opening =>
    exact ⟨by simp [CallFound, openGroup], Level.callable_empty h.awaited,
      List.forall_mem_cons.mpr ⟨h.current, h.outer⟩⟩
  | closing _ _ houter hmade htree =>
    have haround := h.outer
    rw [houter, List.forall_mem_cons] at haround
    have htree := result_callable htree h.current.call (reduceAll_callable hmade h.current.trees)
    exact ⟨h.awaited, haround.1.push htree, haround.2⟩
  | comma _ _ _ hmade =>
    exact ⟨h.awaited, ⟨h.current.call, reduceAll_callable hmade h.current.trees⟩, h.outer⟩
  | number => exact h.push Tree.callable_const
  | key _ _ hf =>
    refine ⟨?_, h.current, h.outer⟩
    rintro key f hcall
    cases hcall
    exact hf
  | name => exact ⟨h.awaited, h.current.push Tree.callable_var, h.outer⟩
  | operator _ _ _ hlevel =>
    obtain ⟨made, hmade, hl⟩ := bind_eq_ok hlevel
    cases hl
    exact ⟨h.awaited, ⟨h.current.call, reduceAll_callable hmade h.current.trees⟩, h.outer⟩

theorem Callable.acceptAll (h : n.Callable functions)
    (hnext : n.acceptAll functions tokens = .ok next) : next.Callable functions :=
  acceptAll_preserves Callable.accept h hnext

end Nesting

end Parser

/-- The calls in every tree that a parse returns are admissible. -/
theorem parse_callable {functions : Functions} {vars : Variables} {text : String} {tree : Tree}
    (h : (parse functions vars text).outcome = .ok tree) : tree.Callable functions := by
  obtain ⟨tokens, n, htokens, hread, hfinish⟩ := parse_readings h
  obtain ⟨rest, -, -, hmade⟩ := Nesting.finished_of_ok hfinish
  have hn := (Nesting.callable_start functions vars []).acceptAll hread
  exact reduceAll_callable hmade hn.current.trees tree (by simp)

end Formula
