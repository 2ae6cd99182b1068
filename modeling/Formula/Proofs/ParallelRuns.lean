import Formula.Proofs.Balance
import Mathlib.Data.List.Forall2

namespace Formula.Parser

/-- What relations between trees and between variables have to keep for runs to go side by side. -/
structure Congruence (R : Tree → Tree → Prop) (S : Variables → Variables → Prop) : Prop where
  const (value : Float) : R (.const value) (.const value)
  unary {op : UnaryOp} {tree tree' : Tree} : R tree tree' → R (.unary op tree) (.unary op tree')
  binary {op : BinaryOp} {left left' right right' : Tree} : R left left' → R right right' →
    R (.binary op left right) (.binary op left' right')
  assign {left left' right right' tree : Tree} : R left left' → R right right' →
    left.assignTo right = .ok tree → ∃ tree', left'.assignTo right' = .ok tree' ∧ R tree tree'
  call {f : Function} {args args' : List Tree} : List.Forall₂ R args args' →
    R (.call f args) (.call f args')
  name {vars vars' : Variables} (name : String) : S vars vars' →
    R (.var (vars.resolve name).1) (.var (vars'.resolve name).1) ∧
      S (vars.resolve name).2 (vars'.resolve name).2

variable {R : Tree → Tree → Prop} {S : Variables → Variables → Prop}

section Trees

variable {trees made own : List Tree}

theorem reduce_alike (hR : Congruence R S) (below : List Tree) {op : Operator}
    (h : op.reduce trees = .ok made) (hown : List.Forall₂ R trees own) :
    ∃ made', op.reduce (own ++ below) = .ok (made' ++ below) ∧ List.Forall₂ R made made' := by
  match op, trees, h, hown with
  | .unary kind, operand :: rest, rfl, .cons hoperand hrest =>
    exact ⟨_, rfl, .cons (hR.unary hoperand) hrest⟩
  | .binary kind, right :: left :: rest, rfl, .cons hright (.cons hleft hrest) =>
    exact ⟨_, rfl, .cons (hR.binary hleft hright) hrest⟩
  | .assign, right :: left :: rest, h, .cons hright (.cons hleft hrest) =>
    simp only [Operator.reduce, Except.map] at h
    split at h
    · cases h
    next tree htree =>
      cases h
      obtain ⟨tree', htree', htrees⟩ := hR.assign hleft hright htree
      refine ⟨tree' :: _, ?_, .cons htrees hrest⟩
      simp [Operator.reduce, htree', Except.map]

theorem reduceAll_alike (hR : Congruence R S) (below : List Tree) {operators : List Operator}
    (h : reduceAll operators trees = .ok made) (hown : List.Forall₂ R trees own) :
    ∃ made', reduceAll operators (own ++ below) = .ok (made' ++ below) ∧
      List.Forall₂ R made made' := by
  induction operators generalizing trees own with
  | nil =>
    cases h
    exact ⟨own, rfl, hown⟩
  | cons op operators ih =>
    obtain ⟨middle, hop, hrest⟩ := bind_eq_ok h
    obtain ⟨middle', hop', hmiddle⟩ := reduce_alike hR below hop hown
    obtain ⟨made', hrest', hmade⟩ := ih hrest hmiddle
    refine ⟨made', ?_, hmade⟩
    rw [reduceAll, List.foldlM_cons, hop']
    exact hrest'

theorem ofGroup_alike (hR : Congruence R S) (h : List.Forall₂ R trees own) :
    R (Tree.ofGroup trees) (Tree.ofGroup own) := by
  match trees, own, h with
  | _, _, .nil => exact hR.const 0
  | _, _, .cons h .nil => exact h
  | _, _, .cons h (.cons hsecond hrest) => exact hR.call (.cons h (.cons hsecond hrest))

theorem result_alike (hR : Congruence R S) {call : Option (String × Function)} {tree : Tree}
    (h : (Level.mk call [] made).result = .ok tree) (hmade : List.Forall₂ R made own) :
    ∃ tree', (Level.mk call [] own).result = .ok tree' ∧ R tree tree' := by
  have hreverse : List.Forall₂ R made.reverse own.reverse := List.rel_reverse hmade
  cases call with
  | none =>
    cases h
    exact ⟨_, rfl, ofGroup_alike hR hreverse⟩
  | some entry =>
    simp only [Level.result, Function.apply] at h
    split at h
    next htakes =>
      cases h
      refine ⟨_, ?_, hR.call hreverse⟩
      simp only [Level.result, Function.apply]
      rw [if_pos (by simpa [hmade.length_eq] using htakes)]
    next => cases h

end Trees

/-- Levels with corresponding trees, of which the second one has some more below. -/
structure LevelAlike (R : Tree → Tree → Prop) (below : List Tree) (l l' : Level) : Prop where
  call : l'.call = l.call
  operators : l'.operators = l.operators
  trees : ∃ own, List.Forall₂ R l.trees own ∧ l'.trees = own ++ below

/-- Levels of two runs: so many inside one that may have more trees, with any around it. -/
inductive LevelsAlike (R : Tree → Tree → Prop) (below : List Tree) (base base' : List Level) :
    Nat → List Level → List Level → Prop
  | bottom {l l' : Level} : LevelAlike R below l l' →
      LevelsAlike R below base base' 0 (l :: base) (l' :: base')
  | inner {depth : Nat} {l l' : Level} {outer outer' : List Level} : LevelAlike R [] l l' →
      LevelsAlike R below base base' depth outer outer' →
      LevelsAlike R below base base' (depth + 1) (l :: outer) (l' :: outer')

section Levels

variable {below : List Tree} {base base' outer outer' : List Level} {l l' m m' : Level}
  {depth : Nat} {tree tree' : Tree}

theorem LevelAlike.push (h : LevelAlike R below l l') (htree : R tree tree') :
    LevelAlike R below (l.push tree) (l'.push tree') := by
  obtain ⟨own, hown, htrees⟩ := h.trees
  exact ⟨h.call, h.operators, tree' :: own, .cons htree hown, by simp [Level.push, htrees]⟩

/-- The innermost levels correspond, and others that correspond may take their place. -/
theorem LevelsAlike.focus (h : LevelsAlike R below base base' depth (l :: outer) (l' :: outer')) :
    ∃ more, LevelAlike R more l l' ∧ ∀ m m', LevelAlike R more m m' →
      LevelsAlike R below base base' depth (m :: outer) (m' :: outer') := by
  cases h with
  | bottom hl => exact ⟨below, hl, fun m m' hm => .bottom hm⟩
  | inner hl houter => exact ⟨[], hl, fun m m' hm => .inner hm houter⟩

theorem LevelsAlike.inside (hdepth : depth ≠ 0)
    (h : LevelsAlike R below base base' depth (l :: outer) (l' :: outer')) :
    LevelAlike R [] l l' ∧ LevelsAlike R below base base' (depth - 1) outer outer' := by
  cases h with
  | bottom => exact absurd rfl hdepth
  | inner hl houter => exact ⟨hl, houter⟩

theorem LevelsAlike.push (h : LevelsAlike R below base base' depth (l :: outer) (l' :: outer'))
    (htree : R tree tree') :
    LevelsAlike R below base base' depth (l.push tree :: outer) (l'.push tree' :: outer') := by
  obtain ⟨more, hl, hreplace⟩ := h.focus
  exact hreplace _ _ (hl.push htree)

theorem LevelsAlike.exists_cons {levels : List Level}
    (h : LevelsAlike R below base base' depth (l :: outer) levels) :
    ∃ l' outer', levels = l' :: outer' := by
  cases h with
  | bottom hl => exact ⟨_, _, rfl⟩
  | inner hl houter => exact ⟨_, _, rfl⟩

theorem LevelsAlike.outer_ne_nil (hbase : base' ≠ [])
    (h : LevelsAlike R below base base' depth (l :: outer) (l' :: outer')) : outer' ≠ [] := by
  cases h with
  | bottom hl => exact hbase
  | inner hl houter => cases houter <;> exact List.cons_ne_nil _ _

/-- Putting operators in place keeps levels alike. -/
theorem LevelAlike.reduceAll (hR : Congruence R S) (h : LevelAlike R below l l')
    {taken : List Operator} (left : List Operator) {made : List Tree}
    (hmade : Parser.reduceAll taken l.trees = .ok made) :
    ∃ made', Parser.reduceAll taken l'.trees = .ok made' ∧
      LevelAlike R below ⟨l.call, left, made⟩ ⟨l'.call, left, made'⟩ := by
  obtain ⟨own, hown, htrees⟩ := h.trees
  obtain ⟨made', hmade', hboth⟩ := reduceAll_alike hR below hmade hown
  exact ⟨made' ++ below, by rw [htrees, hmade'], h.call, rfl, made', hboth, rfl⟩

end Levels

namespace Nesting

/-- Two nestings side by side. -/
structure Alike (R : Tree → Tree → Prop) (S : Variables → Variables → Prop) (below : List Tree)
    (base base' : List Level) (depth : Nat) (n n' : Nesting) : Prop where
  awaited : n'.awaited = n.awaited
  levels : LevelsAlike R below base base' depth n.levels n'.levels
  vars : S n.vars n'.vars

variable {functions : Functions} {n n' next : Nesting} {t : Token} {below : List Tree}
  {base base' : List Level} {depth depth' : Nat}

theorem Alike.accept (hR : Congruence R S) (hbase : base' ≠ [])
    (h : Alike R S below base base' depth n n') (hdepth : depthBehind depth t = some depth')
    (hnext : n.accept functions t = .ok next) :
    ∃ next', n'.accept functions t = .ok next' ∧
      Alike R S below base base' depth' next next' := by
  obtain ⟨hawaited, hlevels, hvars⟩ := h
  obtain ⟨more, hl, hreplace⟩ := hlevels.focus
  cases accepts_of_ok hnext with
  | opening hk =>
    obtain rfl : depth + 1 = depth' := by simpa [depthBehind, hk] using hdepth
    exact ⟨_, Accepts.ok (.opening hk), rfl, .inner ⟨hawaited, rfl, [], .nil, rfl⟩ hlevels, hvars⟩
  | @closing made tree level rest hk hn houter hmade htree =>
    obtain ⟨hpos, rfl⟩ : depth ≠ 0 ∧ depth - 1 = depth' := by simpa [depthBehind, hk] using hdepth
    obtain ⟨hcurrent, hbelow⟩ := LevelsAlike.inside hpos hlevels
    rw [houter] at hbelow
    obtain ⟨level', rest', houter'⟩ := hbelow.exists_cons
    rw [houter'] at hbelow
    obtain ⟨made', hmade', hlevel⟩ := hcurrent.reduceAll hR [] hmade
    obtain ⟨own, hown, htrees⟩ := hlevel.trees
    obtain ⟨tree', htree', hboth⟩ := result_alike hR htree hown
    simp only [List.append_nil] at htrees
    rw [← hl.operators, htrees] at hmade'
    rw [← hl.call] at htree'
    exact ⟨_, Accepts.ok (.closing hk (hawaited.trans hn) houter' hmade' htree'), hawaited,
      hbelow.push hboth, hvars⟩
  | comma hk hn hopen hmade =>
    obtain rfl : depth = depth' := by simpa [depthBehind, hk] using hdepth
    obtain ⟨made', hmade', hlevel⟩ := hl.reduceAll hR [] hmade
    rw [← hl.operators] at hmade'
    have hopen := LevelsAlike.outer_ne_nil hbase hlevels
    exact ⟨_, Accepts.ok (.comma hk (hawaited.trans hn) hopen hmade'),
      hawaited, hreplace _ _ hlevel, hvars⟩
  | number hk hn hvalue =>
    obtain rfl : depth = depth' := by simpa [depthBehind, hk] using hdepth
    exact ⟨_, Accepts.ok (.number hk (hawaited.trans hn) hvalue), hawaited,
      hlevels.push (hR.const _), hvars⟩
  | key hk hn hf =>
    obtain rfl : depth = depth' := by simpa [depthBehind, hk] using hdepth
    exact ⟨_, Accepts.ok (.key hk (hawaited.trans hn) hf), rfl, hlevels, hvars⟩
  | name hk hn hf =>
    obtain rfl : depth = depth' := by simpa [depthBehind, hk] using hdepth
    obtain ⟨hcell, hlater⟩ := hR.name t.text hvars
    exact ⟨_, Accepts.ok (.name hk (hawaited.trans hn) hf), hawaited, hlevels.push hcell, hlater⟩
  | @operator op level hk hn hop hlevel =>
    obtain rfl : depth = depth' := by simpa [depthBehind, hk] using hdepth
    obtain ⟨made, hmade, hl'⟩ := bind_eq_ok hlevel
    cases hl'
    obtain ⟨made', hmade', hlevel'⟩ :=
      hl.reduceAll hR (op :: n.current.operators.dropWhile op.yieldsTo) hmade
    have hpush : n'.current.pushOperator op = .ok
        ⟨n'.current.call, op :: n.current.operators.dropWhile op.yieldsTo, made'⟩ := by
      rw [Level.pushOperator, hl.operators, hmade']
      rfl
    exact ⟨_, Accepts.ok (.operator hk (hawaited.trans hn) hop hpush), hawaited,
      hreplace _ _ hlevel', hvars⟩

theorem Alike.acceptAll {tokens : List Token} {last : Nat} (hR : Congruence R S)
    (hbase : base' ≠ []) (h : Alike R S below base base' depth n n')
    (hdepth : tokens.foldlM depthBehind depth = some last)
    (hnext : n.acceptAll functions tokens = .ok next) :
    ∃ next', n'.acceptAll functions tokens = .ok next' ∧
      Alike R S below base base' last next next' := by
  induction tokens generalizing n n' depth with
  | nil =>
    cases hnext
    cases hdepth
    exact ⟨n', rfl, h⟩
  | cons t tokens ih =>
    obtain ⟨m, ht, hrest⟩ := bind_eq_ok hnext
    obtain ⟨middle, hmiddle, hlast⟩ := Option.bind_eq_some_iff.mp hdepth
    obtain ⟨m', ht', hm⟩ := h.accept hR hbase hmiddle ht
    obtain ⟨next', hrest', hboth⟩ := ih hm hlast hrest
    exact ⟨next', (acceptAll_cons ht').trans hrest', hboth⟩

/-- A group that may end in the one run may end in the other, behind the trees that were there. -/
theorem Alike.ends (hR : Congruence R S) (h : Alike R S below base base' 0 n n')
    {entries : List Tree} (hends : n.Ends entries) :
    ∃ entries', List.Forall₂ R entries entries' ∧ n'.Ends (below.reverse ++ entries') := by
  have hcurrent : LevelAlike R below n.current n'.current := by
    cases h.levels with
    | bottom hl => exact hl
  obtain ⟨made', hmade', hlevel⟩ := hcurrent.reduceAll hR [] hends.reduced
  obtain ⟨own, hown, htrees⟩ := hlevel.trees
  refine ⟨own.reverse, ?_, ?_, ?_⟩
  · simpa using List.rel_reverse hown
  · rw [h.awaited, hends.awaited]
  · simp only at htrees
    rw [hcurrent.operators, hmade', htrees]
    simp

end Nesting

end Formula.Parser
