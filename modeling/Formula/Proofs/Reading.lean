import Formula.Proofs.CellsKept
import Formula.Proofs.NestingSteps
import Formula.Proofs.NumberReading
import Formula.Proofs.Precedence

namespace Formula.Parser

namespace Nesting

variable {functions : Functions} {n next : Nesting}

/-- Operators and trees more on the innermost level, and the variables after them. -/
def extend (n : Nesting) (operators : List Operator) (trees : List Tree) (vars : Variables)
    (created : List String) : Nesting :=
  { n with
    current := ⟨n.current.call, operators ++ n.current.operators, trees ++ n.current.trees⟩
    vars := vars
    created := created }

theorem extend_extend (operators more : List Operator) (trees others : List Tree)
    (vars last : Variables) (created names : List String) :
    (n.extend operators trees vars created).extend more others last names =
      n.extend (more ++ operators) (others ++ trees) last names := by
  simp [extend]

theorem accept_operator (functions : Functions) {op : Operator} (hn : n.awaited = none) :
    n.accept functions (.ofOperator op) = n.pushOperator op := by
  simp only [accept, Token.ofOperator, hn, Operator.ofLexeme?_lexeme]

/-- An operator to which all that waits of an operand yields, and nothing else. -/
theorem pushOperator_extend {op : Operator} {pending : List Operator} {made : List Tree}
    {tree : Tree} (vars : Variables) (created : List String)
    (hkeeps : Operator.Keeps op.precedence n.current.operators)
    (hyields : ∀ stacked ∈ pending, op.yieldsTo stacked = true)
    (hmade : reduceAll pending (made ++ n.current.trees) = .ok (tree :: n.current.trees)) :
    (n.extend pending made vars created).pushOperator op =
      .ok (n.extend [op] [tree] vars created) := by
  obtain ⟨htake, hdrop⟩ := span_append n.current.operators hyields
    (fun stacked hs => hkeeps stacked hs op (Nat.le_refl _))
  simp only [pushOperator, extend, Level.pushOperator, htake, hdrop, hmade]
  rfl

theorem pushOperator_keeps {op : Operator}
    (hkeeps : Operator.Keeps op.precedence n.current.operators) :
    n.pushOperator op = .ok (n.extend [op] [] n.vars n.created) := by
  obtain ⟨htake, hdrop⟩ := span_append (p := op.yieldsTo) (s := []) n.current.operators (by simp)
    (fun stacked hs => hkeeps stacked hs op (Nat.le_refl _))
  rw [List.nil_append] at htake hdrop
  simp only [pushOperator, extend, Level.pushOperator, htake, hdrop]
  rfl

end Nesting

theorem reduceAll_append {operators more : List Operator} {trees made : List Tree}
    (h : reduceAll operators trees = .ok made) :
    reduceAll (operators ++ more) trees = reduceAll more made := by
  simp only [reduceAll] at h
  simp only [reduceAll, List.foldlM_append, h]
  rfl

/-- Tokens that leave operators of a kind and trees that come to one tree, the tree that `tree?`
gives over the cells from then on. -/
def ReadsAs (functions : Functions) (n : Nesting) (tokens : List Token) (waits : Operator → Prop)
    (tree? : Table String Cell → Option Tree) : Prop :=
  ∃ pending made vars created tree,
    n.acceptAll functions tokens = .ok (n.extend pending made vars created) ∧
    (∀ op ∈ pending, waits op) ∧
    (∀ rest, reduceAll pending (made ++ rest) = .ok (tree :: rest)) ∧
    CellsKept n.vars.cells vars.cells ∧
    ∀ cells, CellsKept vars.cells cells → tree? cells = some tree

/-- Tokens that leave the trees of entries on a level, the last entry not yet put together. -/
def ReadsAllAs (functions : Functions) (n : Nesting) (tokens : List Token)
    (trees? : Table String Cell → Option (List Tree)) : Prop :=
  ∃ operators made vars created trees,
    n.acceptAll functions tokens =
      .ok { n with
        current := ⟨n.current.call, operators, made⟩
        vars := vars
        created := created } ∧
    reduceAll operators made = .ok (trees.reverse ++ n.current.trees) ∧
    CellsKept n.vars.cells vars.cells ∧
    ∀ cells, CellsKept vars.cells cells → trees? cells = some trees

theorem ReadsAs.imp {functions : Functions} {n : Nesting} {tokens : List Token}
    {waits others : Operator → Prop} {tree? : Table String Cell → Option Tree}
    (h : ReadsAs functions n tokens waits tree?) (himp : ∀ op, waits op → others op) :
    ReadsAs functions n tokens others tree? := by
  obtain ⟨pending, made, vars, created, tree, hread, hpending, hrest⟩ := h
  exact ⟨pending, made, vars, created, tree, hread, fun op hop => himp op (hpending op hop), hrest⟩

section Values

variable {functions : Functions} {n : Nesting} (waits : Operator → Prop) {tokens : List Token}
  {trees? : Table String Cell → Option (List Tree)}

theorem readsAs_number {text : String} (hn : n.awaited = none)
    (h : Lexer.IsNumber text.toList) :
    ReadsAs functions n [⟨.number, text⟩] waits (fun _ => (Double.read? text).map .const) := by
  obtain ⟨value, hvalue⟩ := Double.read?_of_isNumber h
  refine ⟨[], [.const value], n.vars, n.created, .const value, ?_, by simp, fun _ => rfl, .refl _, ?_⟩
  · have haccept : n.accept functions ⟨.number, text⟩ = .ok (n.push (.const value)) := by
      simp only [Nesting.accept, hn, hvalue]
    exact Nesting.acceptAll_cons haccept
  · simp [hvalue]

theorem readsAs_name {text : String} (hn : n.awaited = none)
    (h : functions.find? text = none) :
    ReadsAs functions n [⟨.identifier, text⟩] waits (fun cells => (cells.find? text).map .var) := by
  have haccept : n.accept functions ⟨.identifier, text⟩ = .ok (n.pushVariable text) := by
    simp only [Nesting.accept, hn, h]
  refine ⟨[], [.var (n.vars.resolve text).1], (n.vars.resolve text).2, _,
    .var (n.vars.resolve text).1, Nesting.acceptAll_cons haccept, by simp, fun _ => rfl,
    n.vars.resolve_keeps text, ?_⟩
  intro cells hcells
  have hcell := hcells text _ (n.vars.resolve_find? text)
  simp [hcell]

/-- A group, with the call that waits in front of it or without. -/
theorem acceptAll_group {call : Option (String × Function)} {node : List Tree → Tree}
    (hn : n.awaited = none)
    (h : ReadsAllAs functions (Nesting.openGroup { n with awaited := call }) tokens trees?)
    (hnode : ∀ cells trees, trees? cells = some trees →
      (Level.mk call [] trees.reverse).result = .ok (node trees)) :
    ∃ vars created trees,
      ({ n with awaited := call } : Nesting).acceptAll functions
          (.opening :: (tokens ++ [.closing])) = .ok (n.extend [] [node trees] vars created) ∧
      CellsKept n.vars.cells vars.cells ∧
      ∀ cells, CellsKept vars.cells cells → trees? cells = some trees := by
  obtain ⟨operators, made, vars, created, trees, hread, hmade, hkept, htrees⟩ := h
  refine ⟨vars, created, trees, ?_, hkept, htrees⟩
  obtain ⟨awaited, current, outer, before, names⟩ := n
  cases hn
  rw [Nesting.acceptAll_cons rfl, Nesting.acceptAll_append hread]
  have hentries : reduceAll operators made = .ok trees.reverse := by
    simpa [Nesting.openGroup, Level.empty] using hmade
  exact Nesting.acceptAll_cons
    (Nesting.endGroup_reduce hentries (hnode _ trees (htrees _ (.refl _))))

theorem readsAs_call {key : String} {f : Function} (hn : n.awaited = none)
    (hf : functions.find? key = some f)
    (h : ReadsAllAs functions (Nesting.openGroup { n with awaited := some (key, f) }) tokens trees?)
    (htakes : ∀ cells trees, trees? cells = some trees → f.takes trees.length) :
    ReadsAs functions n (⟨.identifier, key⟩ :: .opening :: (tokens ++ [.closing])) waits
      (fun cells => (trees? cells).map (.call f)) := by
  have haccept : n.accept functions ⟨.identifier, key⟩ =
      .ok { n with awaited := some (key, f) } := by
    simp only [Nesting.accept, hn, hf]
  have hnode : ∀ cells trees, trees? cells = some trees →
      (Level.mk (some (key, f)) [] trees.reverse).result = .ok (.call f trees) := by
    intro cells trees htrees
    simp [Level.result, Function.apply, htakes cells trees htrees]
  obtain ⟨vars, created, trees, hread, hkept, htrees⟩ := acceptAll_group hn h hnode
  refine ⟨[], [.call f trees], vars, created, .call f trees, ?_, by simp, fun _ => rfl, hkept, ?_⟩
  · exact (Nesting.acceptAll_cons haccept).trans hread
  · intro cells hcells
    simp [htrees cells hcells]

theorem readsAs_group (hn : n.awaited = none) (h : ReadsAllAs functions n.openGroup tokens trees?) :
    ReadsAs functions n (.opening :: (tokens ++ [.closing])) waits
      (fun cells => (trees? cells).map Tree.ofGroup) := by
  have hsame : ({ n with awaited := none } : Nesting) = n := by rw [← hn]
  have hnode : ∀ cells trees, trees? cells = some trees →
      (Level.mk none [] trees.reverse).result = .ok (Tree.ofGroup trees) := by
    intro cells trees _
    simp [Level.result]
  rw [← hsame] at h
  obtain ⟨vars, created, trees, hread, hkept, htrees⟩ := acceptAll_group hn h hnode
  rw [hsame] at hread
  refine ⟨[], [Tree.ofGroup trees], vars, created, Tree.ofGroup trees, hread, by simp,
    fun _ => rfl, hkept, ?_⟩
  intro cells hcells
  simp [htrees cells hcells]

theorem readsAs_parenthesized {tree? : Table String Cell → Option Tree} (hn : n.awaited = none)
    (h : ReadsAllAs functions n.openGroup tokens (fun cells => (tree? cells).map ([·]))) :
    ReadsAs functions n (.opening :: (tokens ++ [.closing])) waits tree? := by
  have hgroup := readsAs_group waits hn h
  simpa [Function.comp_def, Tree.ofGroup] using hgroup

end Values

section Operators

variable {functions : Functions} {n : Nesting} {op : Operator} {waits : Operator → Prop}
  {left right : List Token} {left? right? tree? : Table String Cell → Option Tree}

/-- An operator, once what stands in front of it is a tree, with the operand that follows. -/
theorem readsAs_operand {vars : Variables} {created : List String} {made : List Tree}
    (hright : ReadsAs functions (n.extend [op] made vars created) right
      (fun stacked => stacked.precedence ≤ op.precedence) right?)
    (hnode : ∀ cells operand, CellsKept vars.cells cells → right? cells = some operand →
      ∃ tree, (∀ rest, op.reduce (operand :: (made ++ rest)) = .ok (tree :: rest)) ∧
        ∀ cells, CellsKept vars.cells cells → right? cells = some operand →
          tree? cells = some tree) :
    ∃ pending made' vars' created' tree,
      (n.extend [op] made vars created).acceptAll functions right =
        .ok (n.extend pending made' vars' created') ∧
      (∀ stacked ∈ pending, stacked.precedence ≤ op.precedence) ∧
      (∀ rest, reduceAll pending (made' ++ rest) = .ok (tree :: rest)) ∧
      CellsKept vars.cells vars'.cells ∧
      ∀ cells, CellsKept vars'.cells cells → tree? cells = some tree := by
  obtain ⟨pending, trees, vars', created', operand, hread, hpending, hmade, hkept, hoperand⟩ := hright
  obtain ⟨tree, hreduce, htree⟩ := hnode _ operand hkept (hoperand _ (.refl _))
  refine ⟨pending ++ [op], trees ++ made, vars', created', tree, ?_, ?_, ?_, hkept, ?_⟩
  · rw [hread, Nesting.extend_extend]
  · intro stacked hs
    rcases List.mem_append.mp hs with hs | hs
    · exact hpending stacked hs
    · rw [List.mem_singleton.mp hs]
  · intro rest
    have hlast : reduceAll [op] (operand :: (made ++ rest)) = .ok (tree :: rest) := by
      simp only [reduceAll, List.foldlM_cons, hreduce]
      rfl
    rw [List.append_assoc, reduceAll_append (hmade _), hlast]
  · exact fun cells hcells => htree cells (hkept.trans hcells) (hoperand cells hcells)

theorem readsAs_prefix (hn : n.awaited = none)
    (hkeeps : Operator.Keeps op.precedence n.current.operators)
    (hright : ReadsAs functions (n.extend [op] [] n.vars n.created) right
      (fun stacked => stacked.precedence ≤ op.precedence) right?)
    (hnode : ∀ cells operand, right? cells = some operand →
      ∃ tree, (∀ rest, op.reduce (operand :: rest) = .ok (tree :: rest)) ∧
        ∀ cells, right? cells = some operand → tree? cells = some tree) :
    ReadsAs functions n (.ofOperator op :: right)
      (fun stacked => stacked.precedence ≤ op.precedence) tree? := by
  have haccept := (Nesting.accept_operator functions hn).trans
    (Nesting.pushOperator_keeps hkeeps)
  have hoperand := readsAs_operand hright fun cells operand _ hcells =>
    (hnode cells operand hcells).imp fun tree htree => ⟨htree.1, fun cells _ => htree.2 cells⟩
  rw [← Nesting.acceptAll_cons haccept] at hoperand
  exact hoperand

theorem readsAs_infix (hn : n.awaited = none)
    (hkeeps : Operator.Keeps op.precedence n.current.operators)
    (hleft : ReadsAs functions n left (fun stacked => op.yieldsTo stacked = true) left?)
    (hright : ∀ tree vars created, ReadsAs functions (n.extend [op] [tree] vars created) right
      (fun stacked => stacked.precedence ≤ op.precedence) right?)
    (hnode : ∀ cells first operand, left? cells = some first → right? cells = some operand →
      ∃ tree, (∀ rest, op.reduce (operand :: first :: rest) = .ok (tree :: rest)) ∧
        ∀ cells, left? cells = some first → right? cells = some operand → tree? cells = some tree) :
    ReadsAs functions n (left ++ .ofOperator op :: right)
      (fun stacked => stacked.precedence ≤ op.precedence) tree? := by
  obtain ⟨pending, made, vars, created, first, hread, hyields, hmade, hkept, hfirst⟩ := hleft
  have haccept : (n.extend pending made vars created).accept functions (.ofOperator op) =
      .ok (n.extend [op] [first] vars created) := by
    rw [Nesting.accept_operator functions (by exact hn)]
    exact Nesting.pushOperator_extend vars created hkeeps hyields (hmade _)
  obtain ⟨waiting, trees, vars', created', tree, hrest, hwaiting, hreduce, hkept', htree⟩ :=
    readsAs_operand (hright first vars created) fun cells operand hcells hoperand =>
      (hnode cells first operand (hfirst cells hcells) hoperand).imp fun tree htree =>
        ⟨htree.1, fun cells hcells => htree.2 cells (hfirst cells hcells)⟩
  refine ⟨waiting, trees, vars', created', tree, ?_, hwaiting, hreduce, hkept.trans hkept', htree⟩
  rw [Nesting.acceptAll_append hread, Nesting.acceptAll_cons haccept, hrest]

end Operators

section Entries

variable {functions : Functions} {n : Nesting} {waits : Operator → Prop} {tokens more : List Token}
  {tree? : Table String Cell → Option Tree} {trees? : Table String Cell → Option (List Tree)}

theorem readsAllAs_nil (hn : n.current.operators = []) :
    ReadsAllAs functions n [] (fun _ => some []) := by
  refine ⟨[], n.current.trees, n.vars, n.created, [], ?_, rfl, .refl _, fun _ _ => rfl⟩
  obtain ⟨awaited, ⟨call, operators, trees⟩, outer, vars, created⟩ := n
  cases hn
  rfl

theorem ReadsAs.last (hn : n.current.operators = []) (h : ReadsAs functions n tokens waits tree?) :
    ReadsAllAs functions n tokens (fun cells => (tree? cells).map ([·])) := by
  obtain ⟨pending, made, vars, created, tree, hread, -, hmade, hkept, htree⟩ := h
  refine ⟨pending, made ++ n.current.trees, vars, created, [tree], ?_, hmade _, hkept, ?_⟩
  · simpa [Nesting.extend, hn] using hread
  · intro cells hcells
    simp [htree cells hcells]

theorem ReadsAs.entry (hn : n.awaited = none) (houter : n.outer ≠ [])
    (hempty : n.current.operators = []) (h : ReadsAs functions n tokens waits tree?)
    (hmore : ∀ tree vars created, ReadsAllAs functions (n.extend [] [tree] vars created) more trees?) :
    ReadsAllAs functions n (tokens ++ .comma :: more)
      (fun cells => do return (← tree? cells) :: (← trees? cells)) := by
  obtain ⟨pending, made, vars, created, tree, hread, -, hmade, hkept, htree⟩ := h
  have haccept : (n.extend pending made vars created).accept functions .comma =
      .ok (n.extend [] [tree] vars created) := by
    obtain ⟨awaited, ⟨call, operators, trees⟩, outer, before, names⟩ := n
    cases hn
    cases hempty
    exact Nesting.endEntry_reduce houter ((congrArg (reduceAll · _) (List.append_nil _)).trans (hmade _))
  obtain ⟨operators, left, vars', created', trees, hrest, hleft, hkept', htrees⟩ :=
    hmore tree vars created
  refine ⟨operators, left, vars', created', tree :: trees, ?_, ?_, hkept.trans hkept', ?_⟩
  · rw [Nesting.acceptAll_append hread, Nesting.acceptAll_cons haccept, hrest]
    rfl
  · rw [hleft]
    simp [Nesting.extend]
  · intro cells hcells
    simp [htree cells (hkept'.trans hcells), htrees cells hcells]

end Entries

end Formula.Parser
