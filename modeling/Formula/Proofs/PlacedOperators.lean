import Formula.Proofs.Balance
import Formula.Proofs.DanglingOperators
import Formula.Proofs.EntryReading

namespace Formula

open Formula.Parser

/-- The keys of functions have an opening parenthesis behind them. -/
def KeysCalled (functions : Functions) (tokens : List Token) : Prop :=
  ∀ before t after, tokens = before ++ t :: after → t.kind = .identifier →
    functions.contains t.text = true → ∃ next ∈ after.head?, next.kind = .opening

/-- No operator dangles if none stands in front of a comma or a closing parenthesis, the one around
the text included. -/
theorem not_dangles_of_isChain {tokens : List Token}
    (h : (tokens ++ [Token.closing]).IsChain
      (fun t next => t.kind = .operator → next.kind ≠ .closing ∧ next.kind ≠ .comma)) :
    ∀ before t, ¬ Dangles tokens before t := by
  intro before t hdangles
  obtain ⟨ht, next, rest, hsplit, hnext⟩ := dangles_iff.mp hdangles
  rw [hsplit, List.append_assoc] at h
  obtain ⟨_, hbehind, _⟩ := List.isChain_append.mp h
  obtain ⟨hclosing, hcomma⟩ := (List.isChain_cons_cons.mp hbehind).1 ht
  exact hnext.elim hclosing hcomma

theorem keysCalled_of_isChain {functions : Functions} {tokens : List Token}
    (h : (tokens ++ [Token.closing]).IsChain (fun t next => t.kind = .identifier →
      functions.contains t.text = true → next.kind = .opening)) : KeysCalled functions tokens := by
  rintro before t after rfl ht hkey
  rw [List.append_assoc] at h
  obtain ⟨_, hbehind, _⟩ := List.isChain_append.mp h
  cases after with
  | nil =>
    have hclosing := (List.isChain_cons_cons.mp hbehind).1 ht hkey
    cases hclosing
  | cons next rest => exact ⟨next, rfl, (List.isChain_cons_cons.mp hbehind).1 ht hkey⟩

namespace Parser

variable {functions : Functions} {vars : Variables} {tokens : List Token} {n : Nesting}

/-- What waits for its group is the key that was read last. -/
theorem awaited_last {first : List Token} {key : String} {f : Function}
    (h : (Nesting.start vars []).openGroup.acceptAll functions first = .ok n)
    (hn : n.awaited = some (key, f)) :
    ∃ before t, first = before ++ [t] ∧ t.kind = .identifier ∧ functions.contains t.text = true := by
  cases first using List.reverseRecOn with
  | nil =>
    cases h
    cases hn
  | append_singleton before t =>
    obtain ⟨m, _, ht⟩ := Nesting.acceptAll_snoc_ok h
    refine ⟨before, t, rfl, ?_⟩
    cases Nesting.accepts_of_ok ht with
    | opening => cases hn
    | key hk _ hf => exact ⟨hk, by simp [Table.contains, hf]⟩
    | closing _ hnone | comma _ hnone | number _ hnone | name _ hnone | operator _ hnone =>
      exact absurd (hnone.symm.trans hn) (by simp)

/-- In front of a comma or a closing parenthesis stands no operator, if none dangles. -/
theorem last_of_placed {before after : List Token} {t : Token}
    (hplaced : ∀ before t, ¬ Dangles tokens before t)
    (hsplit : tokens ++ [Token.closing] = before ++ t :: after)
    (ht : t.kind = .closing ∨ t.kind = .comma) : ∀ u ∈ before.getLast?, u.kind ≠ .operator := by
  intro u hu hkind
  obtain ⟨init, rfl⟩ := List.getLast?_eq_some_iff.mp hu
  exact hplaced init u (dangles_iff.mpr ⟨hkind, t, after, hsplit, ht⟩)

/-- Reading goes on group by group through the tokens of a formula. -/
theorem Arranged.acceptAll {cells : Table String Cell} {first rest : List Token}
    (hadjoined : WellAdjoined tokens) (hlexical : ∀ t ∈ tokens, t.IsLexical)
    (hplaced : ∀ before t, ¬ Dangles tokens before t) (hbalanced : Balanced tokens)
    (hsplit : tokens = first ++ rest) (hcells : CellsKept n.vars.cells cells)
    (h : (Nesting.start vars []).openGroup.acceptAll functions first = .ok n) :
    ∃ g outer, Arranged functions cells first n g outer := by
  induction first using List.reverseRecOn generalizing n rest with
  | nil =>
    cases h
    exact ⟨_, _, .start functions vars cells⟩
  | append_singleton first t ih =>
    obtain ⟨m, hfirst, ht⟩ := Nesting.acceptAll_snoc_ok h
    have hsplitT : tokens = first ++ t :: rest := by simpa using hsplit
    have hwhole : tokens ++ [Token.closing] = first ++ t :: (rest ++ [Token.closing]) := by
      simp [hsplitT]
    obtain ⟨g, outer, harranged⟩ := ih hsplitT ((Nesting.accept_keeps ht).trans hcells) hfirst
    have hcounted := Counted.of_formula hadjoined hwhole hfirst
    obtain ⟨hlexicalT, hfits⟩ := formula_token hadjoined hlexical hwhole
    refine harranged.accept hcounted hlexicalT hfits (last_of_placed hplaced hwhole) ?_ hcells ht
    -- A closing parenthesis in the text does not end the group around the text.
    rintro hk rfl
    rw [hsplitT] at hbalanced
    obtain ⟨depth, hdepth, hrest⟩ := balanced_split hbalanced
    have hlength := outer_length hfirst hdepth
    rw [harranged.levels] at hlength
    obtain ⟨later, hlater, _⟩ := Option.bind_eq_some_iff.mp hrest
    simp only [depthBehind, hk, Option.ite_none_left_eq_some] at hlater
    simp only [List.map_nil, List.nil_append, List.length_cons, List.length_nil] at hlength
    omega

/-- A formula like this fails for the number of arguments of a call or at a bad assignment. -/
theorem readFormula_error_of_placed {e : ParseError} (hadjoined : WellAdjoined tokens)
    (hlexical : ∀ t ∈ tokens, t.IsLexical) (hbalanced : Balanced tokens)
    (hplaced : ∀ before t, ¬ Dangles tokens before t) (hkeys : KeysCalled functions tokens)
    (h : Nesting.readFormula functions vars tokens = .error e) :
    (∃ f count, e = .wrongCount f count ∧ f.takes count = false) ∨ e.IsBadAssignment := by
  rcases readFormula_error hadjoined hlexical h with
    ⟨before, t, after, n, hsplit, hbefore, hfailure⟩ | ⟨n, hread, houter, _⟩ | hbad
  · have htokens := eq_dropLast_of_closing (List.cons_ne_nil t after) hsplit
    cases hfailure with
    | call hn ht =>
      obtain ⟨init, u, rfl, hu, hkey⟩ := awaited_last hbefore hn
      have hbehind : tokens = init ++ u :: (t :: after).dropLast := by simpa using htokens
      obtain ⟨next, hnext, hopening⟩ := hkeys init u _ hbehind hu hkey
      cases after with
      | nil => simp at hnext
      | cons _ _ =>
        simp only [List.dropLast_cons_cons, List.head?_cons, Option.mem_some_iff] at hnext
        exact absurd (hnext ▸ hopening) ht
    | unmatched _ houter =>
      rw [htokens] at hbalanced
      obtain ⟨depth, hdepth, _⟩ := balanced_split hbalanced
      have hlength := outer_length hbefore hdepth
      simp [houter] at hlength
    | count htakes => exact .inl ⟨_, _, rfl, htakes⟩
    | assignment => exact .inr ⟨_, rfl⟩
    | missing ht hlast hu => exact absurd hu (last_of_placed hplaced hsplit ht _ hlast)
  · exact absurd (outer_of_formula hbalanced hread) houter
  · exact .inr hbad

/-- The tree of a formula like this is made from the trees of its entries, each read by itself. -/
theorem readFormula_entries {tree : Tree} (hadjoined : WellAdjoined tokens)
    (hlexical : ∀ t ∈ tokens, t.IsLexical) (hbalanced : Balanced tokens)
    (hplaced : ∀ before t, ¬ Dangles tokens before t)
    (hread : (Nesting.start vars []).readGroup functions tokens = .ok n)
    (hfinish : n.finish = .ok tree) :
    ∃ entries, Item.tokensOfEntries entries = tokens ∧
      (Item.treesOfEntries? functions n.vars.cells entries).map Tree.ofGroup = some tree := by
  rw [readGroup_eq] at hread
  obtain ⟨m, htokens, hlast⟩ := Nesting.acceptAll_snoc_ok hread
  obtain ⟨g, outer, harranged⟩ := Arranged.acceptAll hadjoined hlexical hplaced hbalanced
    (List.append_nil _).symm (Nesting.accept_keeps hlast) htokens
  have hwhole : tokens ++ [Token.closing] = tokens ++ Token.closing :: [] := rfl
  have hcounted := Counted.of_formula hadjoined hwhole htokens
  have hafter := last_of_placed hplaced hwhole (.inl rfl)
  have hlength := outer_length htokens hbalanced
  rw [harranged.levels] at hlength
  have houter : outer = [] := by
    cases outer with
    | nil => rfl
    | cons _ _ => simp at hlength
  subst houter
  obtain ⟨made, whole, level, rest, hn, hlevels, hmade, hwholeTree, rfl⟩ :=
    Nesting.closing_of_ok hlast
  have hlevel := hlevels.symm.trans harranged.levels
  cases hlevel
  have hgroup : Token.opening :: tokens = g.tokens := by
    simpa [hn, OpenGroup.tokensOfAll, callTokens, Item.keyTokens] using harranged.tokens
  -- The group around the text has no key in front of it.
  have hcall : g.call = none := by
    cases hcall : g.call with
    | none => rfl
    | some pair => simp [OpenGroup.tokens, hcall, callTokens, Item.keyTokens, Token.opening] at hgroup
  have henough := harranged.enough hcounted hn hafter
  rw [harranged.current] at hmade hwholeTree
  have htrees := harranged.reads.trees henough hmade
  simp only [OpenGroup.level, hcall, Level.result, Except.ok.injEq] at hwholeTree
  have hfinished : whole = tree := by
    simpa [Nesting.finish, hn, Level.push, Level.empty, reduceAll] using hfinish
  refine ⟨g.entries, ?_, ?_⟩
  · simpa [OpenGroup.tokens, hcall, callTokens, Item.keyTokens] using hgroup.symm
  · rw [htrees, Option.map_some, hwholeTree, hfinished]

end Parser

variable {functions : Functions} {vars : Variables} {text : String} {tokens : List Token}

/-- With balanced parentheses, called keys and no operator that dangles, a text fails at most for the
number of arguments of a call or the target of an assignment. Its tree is that of entries whose
operators take operands from their own entry alone. -/
theorem parse_placed (htokens : tokenize text = .ok tokens) (hbalanced : Balanced tokens)
    (hplaced : ∀ before t, ¬ Dangles tokens before t) (hkeys : KeysCalled functions tokens) :
    (∀ failure, (parse functions vars text).outcome = .error failure →
      (∃ f count, failure = .parse (.wrongCount f count) ∧ f.takes count = false) ∨
        ∃ target, failure = .parse (.notAssignable target)) ∧
    ∀ tree, (parse functions vars text).outcome = .ok tree →
      ∃ entries, Item.tokensOfEntries entries = tokens ∧
        (Item.treesOfEntries? functions (parse functions vars text).parser.variables.cells
          entries).map Tree.ofGroup = some tree := by
  obtain ⟨hadjoined, hlexical, _⟩ := tokenize_iff.mp htokens
  rw [parse_outcome htokens]
  constructor
  · intro failure hfailure
    cases hread : Nesting.readFormula functions vars tokens with
    | ok tree => simp [hread, Except.mapError] at hfailure
    | error e =>
      rw [hread] at hfailure
      cases hfailure
      rcases readFormula_error_of_placed hadjoined hlexical hbalanced hplaced hkeys hread with
        ⟨f, count, rfl, htakes⟩ | ⟨target, rfl⟩
      · exact .inl ⟨f, count, rfl, htakes⟩
      · exact .inr ⟨target, rfl⟩
  · intro tree htree
    cases hread : Nesting.readFormula functions vars tokens with
    | error e => simp [hread, Except.mapError] at htree
    | ok made =>
      rw [hread] at htree
      cases htree
      obtain ⟨n, hgroup, hfinish⟩ := bind_eq_ok hread
      rw [parse_variables htokens hgroup hfinish]
      exact readFormula_entries hadjoined hlexical hbalanced hplaced hgroup hfinish

theorem parse_placed_call : ∃ tokens tree entries,
    tokenize "f(,x!y)" = .ok tokens ∧ Balanced tokens ∧ (∀ before t, ¬ Dangles tokens before t) ∧
      KeysCalled ⟨[("f", Function.last)]⟩ tokens ∧
      (parse ⟨[("f", Function.last)]⟩ .empty "f(,x!y)").outcome = .ok tree ∧
      Item.tokensOfEntries entries = tokens ∧
      (Item.treesOfEntries? ⟨[("f", Function.last)]⟩
        (parse ⟨[("f", Function.last)]⟩ .empty "f(,x!y)").parser.variables.cells entries).map
        Tree.ofGroup = some tree := by
  have htokens : tokenize "f(,x!y)" = .ok [⟨.identifier, "f"⟩, .opening, .comma, ⟨.identifier, "x"⟩,
      .ofOperator (.unary .logicalNot), ⟨.identifier, "y"⟩, .closing] := by
    refine tokenize_iff.mpr ⟨?_, ?_, ?_⟩
    · have fits : Token.FitsWhere false (.ofOperator (.unary .logicalNot)) :=
        Token.ofOperator_fitsWhere.mpr trivial
      have hbehind : AdjoinedFrom true [⟨.identifier, "y"⟩, .closing] :=
        adjoinedFrom_cons.mpr ⟨rfl, adjoinedFrom_cons.mpr ⟨trivial, adjoinedFrom_nil _⟩⟩
      have hentry : AdjoinedFrom true [⟨.identifier, "x"⟩, .ofOperator (.unary .logicalNot),
          ⟨.identifier, "y"⟩, .closing] :=
        adjoinedFrom_cons.mpr ⟨rfl, adjoinedFrom_cons.mpr ⟨fits, hbehind⟩⟩
      exact adjoinedFrom_cons.mpr ⟨rfl, adjoinedFrom_cons.mpr ⟨trivial,
        adjoinedFrom_cons.mpr ⟨trivial, hentry⟩⟩⟩
    · intro t ht
      simp only [List.mem_cons, List.not_mem_nil, or_false] at ht
      rcases ht with rfl | rfl | rfl | rfl | rfl | rfl | rfl
      · exact ⟨by decide, by simp⟩
      · rfl
      · rfl
      · exact ⟨by decide, by simp⟩
      · exact ⟨.unary .logicalNot, rfl⟩
      · exact ⟨by decide, by simp⟩
      · rfl
    · exact .token _ (.token _ (.token _ (.token _ (.token _ (.token _ (.token _ .nil))))))
  obtain ⟨tree, htree⟩ :
      ∃ tree, (parse ⟨[("f", Function.last)]⟩ .empty "f(,x!y)").outcome = .ok tree := by
    rw [parse_outcome htokens]
    exact ⟨_, rfl⟩
  obtain ⟨entries, hentries, hforest⟩ := (parse_placed htokens rfl
    (not_dangles_of_isChain (by decide)) (keysCalled_of_isChain (by decide))).2 tree htree
  exact ⟨_, tree, entries, htokens, rfl, not_dangles_of_isChain (by decide),
    keysCalled_of_isChain (by decide), htree, hentries, hforest⟩

end Formula
