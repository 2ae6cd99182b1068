import Formula.Proofs.OpenGroups

namespace Formula.Parser

/-- The levels of a nesting are those of open groups, which hold the tokens read. Behind a value the
last entry of the innermost group has a tree for each infix operator and one more. -/
structure Arranged (functions : Functions) (cells : Table String Cell) (first : List Token)
    (n : Nesting) (g : OpenGroup) (outer : List OpenGroup) : Prop where
  current : n.current = g.level
  levels : n.outer = outer.map OpenGroup.level ++ [.empty none]
  reads : g.Reads functions cells
  readsOuter : ∀ other ∈ outer, other.Reads functions cells
  awaited : CallFound functions n.awaited
  tokens : Token.opening :: first =
    OpenGroup.tokensOfAll outer ++ g.tokens ++ callTokens n.awaited
  ready : n.awaited = none → expectsBehind first = false →
    infixes g.entry.operators + 1 ≤ g.entry.trees.length

namespace Arranged

variable {functions : Functions} {cells : Table String Cell} {first : List Token}
  {n next : Nesting} {g : OpenGroup} {outer : List OpenGroup} {t : Token}

theorem start (functions : Functions) (vars : Variables) (cells : Table String Cell) :
    Arranged functions cells [] (Nesting.start vars []).openGroup (.start none) [] where
  current := rfl
  levels := rfl
  reads := OpenGroup.reads_start (fun _ _ h => by cases h)
  readsOuter := fun _ h => by cases h
  awaited := fun _ _ h => by cases h
  tokens := rfl
  ready := fun _ h => by simp [expectsBehind] at h

/-- Behind anything but an operator the last entry has a tree for each of its operators. -/
theorem enough (h : Arranged functions cells first n g outer) (hcounted : Counted functions first n)
    (hn : n.awaited = none) (hlast : ∀ u ∈ first.getLast?, u.kind ≠ .operator) :
    g.entry.operators ≠ [] → infixes g.entry.operators + 1 ≤ g.entry.trees.length := by
  intro hne
  have hwait : n.current.operators ≠ [] := by
    rw [h.current]
    exact hne
  exact h.ready hn (hcounted.behind_value hwait hlast)

/-- One more item in the last entry of the innermost group. -/
theorem add (h : Arranged functions cells first n g outer) {item : Item} {entry : Level}
    (hn : n.awaited = none) (hreads : (g.add item entry).Reads functions cells)
    (htokens : item.tokens = [t]) (hawaited : next.awaited = none)
    (hcurrent : next.current = (g.add item entry).level) (houter : next.outer = n.outer)
    (hready : t.expectsValue = false → infixes entry.operators + 1 ≤ entry.trees.length) :
    Arranged functions cells (first ++ [t]) next (g.add item entry) outer where
  current := hcurrent
  levels := houter.trans h.levels
  reads := hreads
  readsOuter := h.readsOuter
  awaited := fun _ _ hsome => by simp [hawaited] at hsome
  tokens := by
    have hfirst := h.tokens
    simp only [hn] at hfirst
    rw [← List.cons_append, hfirst, hawaited, OpenGroup.tokens_add, htokens]
    simp [callTokens, Item.keyTokens]
  ready := fun _ hbehind => hready (by simpa [expectsBehind] using hbehind)

theorem value (h : Arranged functions cells first n g outer) {item : Item} {tree : Tree}
    (hn : n.awaited = none) (hitem : item.read? functions cells g.entry = some (g.entry.push tree))
    (htokens : item.tokens = [t]) (hawaited : next.awaited = none)
    (hcurrent : next.current = n.current.push tree) (houter : next.outer = n.outer) :
    Arranged functions cells (first ++ [t]) next (g.add item (g.entry.push tree)) outer := by
  have henough := h.reads.enough
  refine h.add hn (h.reads.push hitem) htokens hawaited ?_ houter (fun _ => ?_)
  · rw [hcurrent, h.current]
    rfl
  · simp only [Level.push, List.length_cons]
    omega

theorem openGroup (h : Arranged functions cells first n g outer) (ht : t = .opening) :
    Arranged functions cells (first ++ [t]) n.openGroup (.start n.awaited) (g :: outer) where
  current := rfl
  levels := by
    simp only [Nesting.openGroup, h.current, h.levels]
    rfl
  reads := OpenGroup.reads_start h.awaited
  readsOuter := List.forall_mem_cons.mpr ⟨h.reads, h.readsOuter⟩
  awaited := fun _ _ hsome => by cases hsome
  tokens := by
    rw [← List.cons_append, h.tokens, ht, OpenGroup.tokens_start]
    simp [OpenGroup.tokensOfAll, Nesting.openGroup, callTokens, Item.keyTokens]
  ready := fun _ hbehind => by simp [expectsBehind, ht, Token.opening, Token.expectsValue] at hbehind

theorem comma (h : Arranged functions cells first n g outer) (ht : t = .comma)
    (hn : n.awaited = none) {made : List Tree}
    (htrees : Item.treesOfEntries? functions cells g.entries = some made.reverse) :
    Arranged functions cells (first ++ [t]) { n with current := ⟨n.current.call, [], made⟩ }
      (g.nextEntry made) outer where
  current := by
    rw [h.current]
    rfl
  levels := h.levels
  reads := h.reads.nextEntry htrees
  readsOuter := h.readsOuter
  awaited := h.awaited
  tokens := by
    have hfirst := h.tokens
    simp only [hn] at hfirst ⊢
    rw [← List.cons_append, hfirst, ht, OpenGroup.tokens_nextEntry]
    simp [callTokens, Item.keyTokens]
  ready := fun _ hbehind => by simp [expectsBehind, ht, Token.comma, Token.expectsValue] at hbehind

/-- A group that has ended is an item of the group around it. -/
theorem closing {around : OpenGroup} {made : List Tree} {tree : Tree} {rest : List Level}
    (h : Arranged functions cells first n g (around :: outer)) (ht : t = .closing)
    (hn : n.awaited = none) (houter : n.outer = around.level :: rest)
    (htrees : Item.treesOfEntries? functions cells g.entries = some made.reverse)
    (htree : (Level.mk g.call [] made).result = .ok tree) :
    Arranged functions cells (first ++ [t])
      { n with current := around.level.push tree, outer := rest }
      (around.add g.item (around.entry.push tree)) outer where
  current := rfl
  levels := (List.cons.inj (houter.symm.trans h.levels)).2
  reads := by
    have haround := h.readsOuter around (by simp)
    exact haround.push (h.reads.read_item htrees htree _)
  readsOuter := fun other hother => h.readsOuter other (by simp [hother])
  awaited := h.awaited
  tokens := by
    have hfirst := h.tokens
    simp only [hn] at hfirst ⊢
    rw [← List.cons_append, hfirst, ht, OpenGroup.tokens_add, OpenGroup.tokens_item]
    simp [callTokens, Item.keyTokens, OpenGroup.tokensOfAll]
  ready := fun _ _ => by
    have henough := (h.readsOuter around (by simp)).enough
    simp only [OpenGroup.add, Level.push, List.length_cons]
    omega

/-- The key of a function waits for the group behind it. -/
theorem key (h : Arranged functions cells first n g outer) {text : String} {f : Function}
    (hn : n.awaited = none) (hf : functions.find? text = some f) :
    Arranged functions cells (first ++ [⟨.identifier, text⟩])
      { n with awaited := some (text, f) } g outer where
  current := h.current
  levels := h.levels
  reads := h.reads
  readsOuter := h.readsOuter
  awaited := by
    rintro key' f' hsome
    cases hsome
    exact hf
  tokens := by
    have hfirst := h.tokens
    simp only [hn] at hfirst
    rw [← List.cons_append, hfirst]
    simp [callTokens, Item.keyTokens]
  ready := fun hnone => by cases hnone

theorem accept (h : Arranged functions cells first n g outer) (hcounted : Counted functions first n)
    (hlexical : t.IsLexical) (hfits : t.FitsWhere (expectsBehind first))
    (hplaced : t.kind = .closing ∨ t.kind = .comma → ∀ u ∈ first.getLast?, u.kind ≠ .operator)
    (hinner : t.kind = .closing → outer ≠ []) (hcells : CellsKept next.vars.cells cells)
    (hnext : n.accept functions t = .ok next) :
    ∃ g' outer', Arranged functions cells (first ++ [t]) next g' outer' := by
  obtain ⟨kind, text⟩ := t
  cases Nesting.accepts_of_ok hnext with
  | opening hk =>
    cases hk
    exact ⟨_, _, h.openGroup hlexical⟩
  | @closing made tree level rest hk hn houter hmade htree =>
    cases hk
    have henough := h.enough hcounted hn (hplaced (.inl rfl))
    rw [h.current] at hmade htree
    cases outer with
    | nil => exact absurd rfl (hinner rfl)
    | cons around outer =>
      have hlevel : level = around.level := (List.cons.inj (houter.symm.trans h.levels)).1
      subst hlevel
      exact ⟨_, _, h.closing hlexical hn houter (h.reads.trees henough hmade) htree⟩
  | comma hk hn hopen hmade =>
    cases hk
    have henough := h.enough hcounted hn (hplaced (.inr rfl))
    rw [h.current] at hmade
    exact ⟨_, _, h.comma hlexical hn (h.reads.trees henough hmade)⟩
  | @number value hk hn hvalue =>
    cases hk
    have hitem : (Item.number text).read? functions cells g.entry =
        some (g.entry.push (.const value)) := by
      simp [Item.read?, hvalue]
    exact ⟨_, _, h.value hn hitem rfl hn rfl rfl⟩
  | @key f hk hn hf =>
    cases hk
    exact ⟨g, outer, h.key hn hf⟩
  | name hk hn hf =>
    cases hk
    have hcell := hcells text _ (Variables.resolve_find? n.vars text)
    have hitem : (Item.name text).read? functions cells g.entry =
        some (g.entry.push (.var (n.vars.resolve text).1)) := by
      simp [Item.read?, Table.contains, hf, hcell]
    exact ⟨_, _, h.value hn hitem rfl hn rfl rfl⟩
  | @operator op level hk hn hop hlevel =>
    have htoken := eq_ofOperator hk hop
    rw [h.current] at hlevel
    have hready : op.isUnary = false → infixes g.entry.operators + 1 ≤ g.entry.trees.length :=
      fun hunary => h.ready hn (expected_of_not_unary hk hfits hop hunary)
    obtain ⟨entry, hreads, hentry⟩ := h.reads.operator hready hlevel
    refine ⟨_, _, h.add hn hreads (congrArg (fun u => [u]) htoken.symm) hn hentry.symm rfl ?_⟩
    intro hexpects
    simp [Token.expectsValue, show kind = .operator from hk] at hexpects

end Arranged

end Formula.Parser
