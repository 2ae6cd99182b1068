import Formula.Proofs.EntriesRead
import Formula.Proofs.OperandCounts
import Mathlib.Data.List.TakeWhile

namespace Formula.Parser

/-- Operators put in place are nodes of the trees. -/
theorem reduceAll_sizeAll {operators : List Operator} {trees made : List Tree}
    (h : reduceAll operators trees = .ok made) :
    Tree.sizeAll made = Tree.sizeAll trees + operators.length := by
  induction operators generalizing trees with
  | nil =>
    cases h
    rfl
  | cons op operators ih =>
    obtain ⟨middle, hop, hrest⟩ := bind_eq_ok h
    have hmiddle : Tree.sizeAll middle = Tree.sizeAll trees + 1 := by
      match op, trees, hop with
      | .unary kind, operand :: rest, rfl =>
        simp only [Tree.sizeAll, Tree.size]
        omega
      | .binary kind, right :: left :: rest, rfl =>
        simp only [Tree.sizeAll, Tree.size]
        omega
      | .assign, right :: left :: rest, hop =>
        cases left <;> cases hop
        simp only [Tree.sizeAll, Tree.size]
        omega
    rw [ih hrest, hmiddle, List.length_cons]
    omega

/-- A level that is read by itself, and one on top of whose trees the same is read. Operators wait
there below those of the first level, and there are trees for them above the ones below. -/
structure LevelAbove (below : List Tree) (l l' : Level) : Prop where
  call : l'.call = l.call
  above : ∃ waiting own, l'.operators = l.operators ++ waiting ∧ l'.trees = own ++ below ∧
    own.length = l.trees.length + infixes waiting ∧ (waiting ≠ [] → l.operators ≠ [])

section Levels

variable {below own trees made made' : List Tree} {taken first second : List Operator}
  {l l' next next' : Level} {op : Operator} {tree : Tree}

theorem reduceAll_beside (hlength : own.length = trees.length + infixes (first ++ second))
    (hfirst : first ≠ [] → taken ≠ []) (hmade : reduceAll taken trees = .ok made)
    (hmade' : reduceAll (taken ++ first) (own ++ below) = .ok made') :
    ∃ own', made' = own' ++ below ∧ own'.length = made.length + infixes second := by
  have hsplit := infixes_append first second
  have hboth := infixes_append taken first
  have henough : taken ++ first ≠ [] → infixes (taken ++ first) + 1 ≤ own.length := by
    intro hne
    have htaken : taken ≠ [] := by
      intro hnil
      by_cases hnone : first = []
      · exact hne (by simp [hnil, hnone])
      · exact hfirst hnone hnil
    have := enough_of_reduceAll hmade htaken
    omega
  obtain ⟨own', hown', rfl⟩ := reduceAll_own henough hmade'
  have hlengthMade := (reduceAll_length hmade).1
  have hlengthOwn := (reduceAll_length hown').1
  exact ⟨own', rfl, by omega⟩

theorem LevelAbove.push (h : LevelAbove below l l') (tree : Tree) :
    LevelAbove below (l.push tree) (l'.push tree) := by
  obtain ⟨waiting, own, hoperators, htrees, hlength, hwaiting⟩ := h.above
  refine ⟨h.call, waiting, tree :: own, hoperators, ?_, ?_, hwaiting⟩
  · simp [Level.push, htrees]
  · simp only [Level.push, List.length_cons]
    omega

/-- What stands in front of two lists together goes on into the second one only behind all of the
first one. -/
theorem takeWhile_append_split {α : Type} (p : α → Bool) (l waiting : List α) :
    ∃ first second, waiting = first ++ second ∧
      (l ++ waiting).takeWhile p = l.takeWhile p ++ first ∧
      (l ++ waiting).dropWhile p = l.dropWhile p ++ second ∧ (first ≠ [] → l.takeWhile p = l) := by
  induction l with
  | nil =>
    exact ⟨waiting.takeWhile p, waiting.dropWhile p, List.takeWhile_append_dropWhile.symm, rfl, rfl,
      fun _ => rfl⟩
  | cons a l ih =>
    by_cases ha : p a = true
    · obtain ⟨first, second, hsplit, htake, hdrop, hall⟩ := ih
      refine ⟨first, second, hsplit, ?_, ?_, ?_⟩
      · simp [ha, htake]
      · simp [ha, hdrop]
      · intro hne
        simp [ha, hall hne]
    · exact ⟨[], waiting, rfl, by simp [ha], by simp [ha], fun hne => absurd rfl hne⟩

/-- When all operators have been put in place, those below have been as well. -/
theorem LevelAbove.entry (h : LevelAbove below l l') (hmade : reduceAll l.operators l.trees = .ok made)
    (hmade' : reduceAll l'.operators l'.trees = .ok made') :
    ∃ own, made' = own ++ below ∧ own.length = made.length := by
  obtain ⟨waiting, own, hoperators, htrees, hlength, hwaiting⟩ := h.above
  rw [hoperators, htrees] at hmade'
  rw [← List.append_nil waiting] at hlength
  exact reduceAll_beside hlength hwaiting hmade hmade'

theorem LevelAbove.pushOperator (h : LevelAbove below l l') (hnext : l.pushOperator op = .ok next)
    (hnext' : l'.pushOperator op = .ok next') : LevelAbove below next next' := by
  obtain ⟨waiting, own, hoperators, htrees, hlength, hwaiting⟩ := h.above
  obtain ⟨made, hmade, hl⟩ := bind_eq_ok hnext
  obtain ⟨made', hmade', hl'⟩ := bind_eq_ok hnext'
  cases hl
  cases hl'
  obtain ⟨first, second, rfl, htake, hdrop, hall⟩ :=
    takeWhile_append_split op.yieldsTo l.operators waiting
  rw [hoperators, htake, htrees] at hmade'
  have hfirst : first ≠ [] → l.operators.takeWhile op.yieldsTo ≠ [] := by
    intro hne
    rw [hall hne]
    exact hwaiting (by simp [hne])
  obtain ⟨own', rfl, hlength'⟩ := reduceAll_beside hlength hfirst hmade hmade'
  exact ⟨h.call, second, own', by simp [hoperators, hdrop], rfl, hlength',
    fun _ => List.cons_ne_nil _ _⟩

/-- Levels of two runs: the same ones, so many, inside two of which one is above the other. -/
inductive LevelsAbove (below : List Tree) (base base' : List Level) :
    Nat → List Level → List Level → Prop
  | bottom {l l' : Level} : LevelAbove below l l' →
      LevelsAbove below base base' 0 (l :: base) (l' :: base')
  | inner {depth : Nat} {outer outer' : List Level} (l : Level) :
      LevelsAbove below base base' depth outer outer' →
      LevelsAbove below base base' (depth + 1) (l :: outer) (l :: outer')

variable {base base' outer outer' levels : List Level} {depth : Nat}

theorem LevelsAbove.push (h : LevelsAbove below base base' depth (l :: outer) (l' :: outer'))
    (tree : Tree) :
    LevelsAbove below base base' depth (l.push tree :: outer) (l'.push tree :: outer') := by
  cases h with
  | bottom hl => exact .bottom (hl.push tree)
  | inner l houter => exact .inner (l.push tree) houter

theorem LevelsAbove.exists_cons (h : LevelsAbove below base base' depth (l :: outer) levels) :
    ∃ l' outer', levels = l' :: outer' := by
  cases h with
  | bottom => exact ⟨_, _, rfl⟩
  | inner => exact ⟨_, _, rfl⟩

theorem LevelsAbove.inside (hdepth : depth ≠ 0)
    (h : LevelsAbove below base base' depth (l :: outer) (l' :: outer')) :
    l' = l ∧ LevelsAbove below base base' (depth - 1) outer outer' := by
  cases h with
  | bottom => exact absurd rfl hdepth
  | inner l houter => exact ⟨rfl, houter⟩

/-- Work on the innermost levels that does the same to one level and keeps one above the other. -/
theorem LevelsAbove.replace (h : LevelsAbove below base base' depth (l :: outer) (l' :: outer'))
    (hsame : l' = l → next' = next)
    (habove : LevelAbove below l l' → LevelAbove below next next') :
    LevelsAbove below base base' depth (next :: outer) (next' :: outer') := by
  cases h with
  | bottom hl => exact .bottom (habove hl)
  | inner l houter =>
    obtain rfl := hsame rfl
    exact .inner next' houter

end Levels

namespace Nesting

/-- Two nestings, of which one has read on top of what the other one does not have. -/
structure Above (below : List Tree) (base base' : List Level) (depth : Nat) (n n' : Nesting) :
    Prop where
  awaited : n'.awaited = n.awaited
  levels : LevelsAbove below base base' depth n.levels n'.levels
  vars : n'.vars = n.vars

variable {functions : Functions} {n n' next next' : Nesting} {t : Token} {below : List Tree}
  {base base' : List Level} {depth depth' last : Nat} {tokens : List Token}

/-- What a token makes of a nesting it makes of no other. -/
theorem Accepts.eq {m : Nesting} (h : Accepts functions n t m)
    (hnext : n.accept functions t = .ok next) : next = m :=
  Except.ok.inj (hnext.symm.trans h.ok)

theorem Above.accept (h : Above below base base' depth n n')
    (hdepth : depthBehind depth t = some depth') (hnext : n.accept functions t = .ok next)
    (hnext' : n'.accept functions t = .ok next') : Above below base base' depth' next next' := by
  obtain ⟨hawaited, hlevels, hvars⟩ := h
  cases accepts_of_ok hnext with
  | opening hk =>
    obtain rfl : depth + 1 = depth' := by simpa [depthBehind, hk] using hdepth
    obtain rfl := (Accepts.opening hk).eq hnext'
    have hinner := LevelsAbove.inner (.empty n.awaited) hlevels
    refine ⟨rfl, ?_, hvars⟩
    simp only [openGroup, hawaited] at hinner ⊢
    exact hinner
  | @closing made tree level outer hk hn houter hmade htree =>
    obtain ⟨hpos, rfl⟩ : depth ≠ 0 ∧ depth - 1 = depth' := by simpa [depthBehind, hk] using hdepth
    obtain ⟨hcurrent, hbelow⟩ := hlevels.inside hpos
    rw [houter] at hbelow
    obtain ⟨level', outer', houter'⟩ := hbelow.exists_cons
    rw [houter'] at hbelow
    rw [← hcurrent] at hmade htree
    obtain rfl := (Accepts.closing hk (hawaited.trans hn) houter' hmade htree).eq hnext'
    exact ⟨hawaited, hbelow.push tree, hvars⟩
  | @comma made hk hn hopen hmade =>
    obtain rfl : depth = depth' := by simpa [depthBehind, hk] using hdepth
    cases accepts_of_ok hnext' with
    | @comma made' _ _ _ hmade' =>
      refine ⟨hawaited, hlevels.replace ?_ ?_, hvars⟩
      · intro hsame
        rw [hsame, hmade] at hmade'
        rw [hsame, Except.ok.inj hmade']
      · intro habove
        obtain ⟨own, rfl, hlength⟩ := habove.entry hmade hmade'
        exact ⟨habove.call, [], own, rfl, rfl, hlength, fun hne => absurd rfl hne⟩
    | opening hother | closing hother | number hother | key hother | name hother
    | operator hother => simp [hk] at hother
  | number hk hn hvalue =>
    obtain rfl : depth = depth' := by simpa [depthBehind, hk] using hdepth
    obtain rfl := (Accepts.number hk (hawaited.trans hn) hvalue).eq hnext'
    exact ⟨hawaited, hlevels.push _, hvars⟩
  | key hk hn hf =>
    obtain rfl : depth = depth' := by simpa [depthBehind, hk] using hdepth
    obtain rfl := (Accepts.key hk (hawaited.trans hn) hf).eq hnext'
    exact ⟨rfl, hlevels, hvars⟩
  | name hk hn hf =>
    obtain rfl : depth = depth' := by simpa [depthBehind, hk] using hdepth
    obtain rfl := (Accepts.name hk (hawaited.trans hn) hf).eq hnext'
    refine ⟨hawaited, ?_, ?_⟩
    · simp only [pushVariable, hvars]
      exact hlevels.push _
    · simp only [pushVariable, hvars]
  | @operator op level hk hn hop hlevel =>
    obtain rfl : depth = depth' := by simpa [depthBehind, hk] using hdepth
    cases accepts_of_ok hnext' with
    | @operator op' level' _ _ hop' hlevel' =>
      obtain rfl : op = op' := Option.some.inj (hop.symm.trans hop')
      refine ⟨hawaited, hlevels.replace ?_ ?_, hvars⟩
      · intro hsame
        rw [hsame, hlevel] at hlevel'
        exact (Except.ok.inj hlevel').symm
      · exact fun habove => habove.pushOperator hlevel hlevel'
    | opening hother | closing hother | number hother | key hother | name hother
    | comma hother => simp [hk] at hother

theorem Above.acceptAll (h : Above below base base' depth n n')
    (hdepth : tokens.foldlM depthBehind depth = some last)
    (hnext : n.acceptAll functions tokens = .ok next)
    (hnext' : n'.acceptAll functions tokens = .ok next') :
    Above below base base' last next next' := by
  induction tokens generalizing n n' depth with
  | nil =>
    cases hnext
    cases hnext'
    cases hdepth
    exact h
  | cons t tokens ih =>
    obtain ⟨m, ht, hrest⟩ := bind_eq_ok hnext
    obtain ⟨m', ht', hrest'⟩ := bind_eq_ok hnext'
    obtain ⟨middle, hmiddle, hlast⟩ := Option.bind_eq_some_iff.mp hdepth
    exact ih (h.accept hmiddle ht ht') hlast hrest hrest'

/-- With both groups at their end, the trees that were below are the first entries of the one. -/
theorem Above.ends {entries entries' : List Tree} (h : Above below base base' 0 n n')
    (hends : n.Ends entries) (hends' : n'.Ends entries') :
    ∃ own, entries' = below.reverse ++ own ∧ own.length = entries.length := by
  have hcurrent : LevelAbove below n.current n'.current := by
    cases h.levels with
    | bottom hl => exact hl
  obtain ⟨own, hown, hlength⟩ := hcurrent.entry hends.reduced hends'.reduced
  refine ⟨own.reverse, ?_, by simpa using hlength⟩
  rw [← List.reverse_reverse entries', hown, List.reverse_append]

/-- A prefix operator goes on top of operators that wait, as it goes into an empty group. -/
theorem above_prefixOp {op : UnaryOp} {trees made : List Tree} {operators : List Operator}
    {vars : Variables} {created : List String} (hmade : reduceAll operators trees = .ok made)
    (hnext : (Nesting.start vars []).openGroup.accept functions (.ofOperator (.unary op)) = .ok next)
    (hnext' : (Nesting.mk none ⟨none, operators, trees⟩ base' vars created).accept functions
      (.ofOperator (.unary op)) = .ok next') :
    Above (trees.drop (infixes operators)) [.empty none] base' 0 next next' := by
  have hlength := (reduceAll_length hmade).1
  have hpush (l : Level) : l.pushOperator (.unary op) =
      .ok { l with operators := .unary op :: l.operators } := Level.pushOperator_of_isUnary rfl
  have hwaits {n : Nesting} (hn : n.awaited = none) :
      n.accept functions (.ofOperator (.unary op)) = .ok { n with
        current := { n.current with operators := .unary op :: n.current.operators } } :=
    Accepts.ok (.operator rfl hn (Operator.ofLexeme?_lexeme _) (hpush n.current))
  cases hnext.symm.trans (hwaits rfl)
  cases hnext'.symm.trans (hwaits rfl)
  refine ⟨rfl, .bottom ⟨rfl, operators, trees.take (infixes operators), rfl, ?_, ?_, ?_⟩, rfl⟩
  · exact (List.take_append_drop _ _).symm
  · have hshort : infixes operators ≤ trees.length := by omega
    simp [openGroup, Level.empty, hshort]
  · exact fun _ => List.cons_ne_nil _ _

end Nesting

variable {functions : Functions} {vars behind last : Variables} {first rest : List Token}
  {entries more all : List Tree} {n : Nesting} {op : UnaryOp}

/-- With operators that wait in front, tokens that begin with a prefix operator have other entries
than behind a comma, though as many. -/
theorem Reads.waiting (hfirst : Balanced first) (hrest : Balanced rest)
    (h : (Nesting.start vars []).openGroup.acceptAll functions first = .ok n) (hends : n.Ends entries)
    (hwaiting : n.current.operators ≠ [])
    (hmore : Reads functions n.vars (.ofOperator (.unary op) :: rest) more behind)
    (hall : Reads functions vars (first ++ .ofOperator (.unary op) :: rest) all last) :
    all ≠ entries ++ more ∧ all.length = entries.length + more.length := by
  obtain ⟨m, hm, hendsMore, -⟩ := hmore
  obtain ⟨m', hboth, hendsAll, -⟩ := hall
  obtain ⟨hcall, houter⟩ := acceptAll_balanced hfirst h
  rw [Nesting.acceptAll_append h] at hboth
  obtain ⟨next, hnext, hlater⟩ := bind_eq_ok hm
  obtain ⟨next', hnext', hlater'⟩ := bind_eq_ok hboth
  obtain ⟨awaited, ⟨call, operators, trees⟩, outer, vars, created⟩ := n
  obtain rfl : awaited = none := hends.awaited
  obtain rfl : call = none := hcall
  have habove := (Nesting.above_prefixOp hends.reduced hnext hnext').acceptAll hrest hlater hlater'
  obtain ⟨own, rfl, hlength⟩ := habove.ends hendsMore hendsAll
  have hentries : entries.reverse.length + infixes operators = trees.length :=
    (reduceAll_length hends.reduced).1
  have hsize : Tree.sizeAll entries.reverse = Tree.sizeAll trees + operators.length :=
    reduceAll_sizeAll hends.reduced
  have hbelow : (trees.drop (infixes operators)).length = entries.length := by
    simp only [List.length_reverse] at hentries
    simp only [List.length_drop]
    omega
  refine ⟨fun hsame => ?_, by simp only [List.length_append, List.length_reverse, hbelow, hlength]⟩
  -- The trees below would be the entries, but operators that wait are in the entries only.
  obtain ⟨hsame, -⟩ := List.append_inj hsame (by simpa using hbelow)
  have hreversed : trees.drop (infixes operators) = entries.reverse := by
    rw [← hsame, List.reverse_reverse]
  have hparts := Tree.sizeAll_append (trees.take (infixes operators)) (trees.drop (infixes operators))
  rw [List.take_append_drop, hreversed, hsize] at hparts
  have hpos : 0 < operators.length := List.length_pos_iff.mpr hwaiting
  omega

end Formula.Parser
