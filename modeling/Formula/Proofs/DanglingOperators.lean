import Formula.Proofs.NestingRuns
import Formula.Proofs.Tallies
import Formula.Proofs.Tokenizing

namespace Formula

open Formula.Parser

/-- The operator behind `before` has no operand behind it. -/
def Dangles (tokens before : List Token) (t : Token) : Prop :=
  t.kind = .operator ∧ ∃ after, tokens = before ++ t :: after ∧
    ∀ next ∈ after.head?, next.kind = .closing ∨ next.kind = .comma

/-- The group of an operator that dangles has no more values than infix operators so far. -/
def ShortOfValues (functions : Functions) (tokens : List Token) : Prop :=
  ∃ before t, Dangles tokens before t ∧
    (Tallies.behind functions (before ++ [t])).current.values ≤
      (Tallies.behind functions (before ++ [t])).current.infixes

/-- Where the tokens of a formula end, the closing parenthesis around it left out. -/
theorem eq_dropLast_of_closing {tokens before rest : List Token} (hne : rest ≠ [])
    (h : tokens ++ [Token.closing] = before ++ rest) : tokens = before ++ rest.dropLast := by
  have hdrop := congrArg List.dropLast h
  rwa [List.dropLast_concat, List.dropLast_append_of_ne_nil hne] at hdrop

/-- What follows an operator that dangles, the closing parenthesis around the text included. -/
theorem dangles_iff {tokens before : List Token} {t : Token} :
    Dangles tokens before t ↔ t.kind = .operator ∧ ∃ next rest,
      tokens ++ [Token.closing] = before ++ [t] ++ next :: rest ∧
        (next.kind = .closing ∨ next.kind = .comma) := by
  refine and_congr_right (fun _ => ⟨?_, ?_⟩)
  · rintro ⟨after, rfl, hafter⟩
    cases after with
    | nil => exact ⟨Token.closing, [], by simp, .inl rfl⟩
    | cons next rest => exact ⟨next, rest ++ [Token.closing], by simp, hafter next rfl⟩
  · rintro ⟨next, rest, hsplit, hnext⟩
    have htokens := eq_dropLast_of_closing (List.cons_ne_nil _ _) hsplit
    refine ⟨(next :: rest).dropLast, by simpa using htokens, ?_⟩
    intro u hu
    cases rest with
    | nil => simp at hu
    | cons _ _ =>
      simp only [List.dropLast_cons_cons, List.head?_cons, Option.mem_some_iff] at hu
      exact hu ▸ hnext

theorem wellAdjoined_closing {tokens : List Token} (h : WellAdjoined tokens) :
    WellAdjoined (tokens ++ [Token.closing]) := by
  refine ⟨fun t ht => ?_, List.isChain_append.mpr ⟨h.2, .singleton _, ?_⟩⟩
  · cases tokens with
    | nil =>
      cases ht
      trivial
    | cons first rest => exact h.1 t ht
  · intro _ _ t ht
    cases ht
    trivial

namespace Parser

variable {functions : Functions} {vars : Variables} {tokens : List Token}

/-- Any token of a formula or the parenthesis that ends it. -/
theorem formula_token {before after : List Token} {t : Token} (hadjoined : WellAdjoined tokens)
    (hlexical : ∀ t ∈ tokens, t.IsLexical)
    (hsplit : tokens ++ [Token.closing] = before ++ t :: after) :
    t.IsLexical ∧ t.FitsWhere (expectsBehind before) := by
  have hadjoinedAll := wellAdjoined_closing hadjoined
  have hmem : t ∈ tokens ++ [Token.closing] := by simp [hsplit]
  rw [hsplit] at hadjoinedAll
  refine ⟨?_, (wellAdjoined_append hadjoinedAll).2⟩
  rcases List.mem_append.mp hmem with ht | ht
  · exact hlexical t ht
  · rw [List.mem_singleton.mp ht]
    rfl

/-- Counting goes on behind the first tokens of a formula and the parenthesis that ends it. -/
theorem Counted.of_formula {first rest : List Token} {n : Nesting} (hadjoined : WellAdjoined tokens)
    (hsplit : tokens ++ [Token.closing] = first ++ rest)
    (h : (Nesting.start vars []).openGroup.acceptAll functions first = .ok n) :
    Counted functions first n := by
  have hadjoinedAll := wellAdjoined_closing hadjoined
  rw [hsplit] at hadjoinedAll
  refine Counted.acceptAll ?_ h
  cases rest with
  | nil => simpa using hadjoinedAll
  | cons next rest => exact (wellAdjoined_append hadjoinedAll).1

theorem readGroup_eq (functions : Functions) (n : Nesting) (tokens : List Token) :
    n.readGroup functions tokens = n.openGroup.acceptAll functions (tokens ++ [Token.closing]) :=
  rfl

/-- All groups have ended or the last step fails, for want of an end or at a bad assignment. -/
theorem Counted.finish_error {n : Nesting} {e : ParseError} (hn : n.awaited = none)
    (h : Counted functions (tokens ++ [Token.closing]) n) (herror : n.finish = .error e) :
    e.IsBadAssignment ∨ e = .unclosed ∧ n.outer ≠ [] := by
  have hready : infixes n.current.operators + 1 ≤ n.current.trees.length :=
    h.ready hn (by simp [expectsBehind, Token.expectsValue, Token.closing])
  simp only [Nesting.finish, hn] at herror
  rcases bind_eq_error herror with hreduce | ⟨made, hmade, hlast⟩
  · rcases reduceAll_of_enough (fun _ => hready) with ⟨made, hmade⟩ | ⟨e', hbad, he⟩
    · simp [hmade] at hreduce
    · rw [hbad] at hreduce
      cases hreduce
      exact .inl he
  · have hlength := (reduceAll_length hmade).1
    cases houter : n.outer with
    | nil =>
      cases made with
      | nil =>
        simp only [List.length_nil] at hlength
        omega
      | cons tree rest => simp [houter] at hlast
    | cons level outer =>
      simp only [houter] at hlast
      cases hlast
      exact .inr ⟨rfl, by simp⟩

/-- A formula fails at one of its tokens or at the parenthesis behind them, or when they end. -/
theorem readFormula_error {e : ParseError} (hadjoined : WellAdjoined tokens)
    (hlexical : ∀ t ∈ tokens, t.IsLexical)
    (h : Nesting.readFormula functions vars tokens = .error e) :
    (∃ before t after n, tokens ++ [Token.closing] = before ++ t :: after ∧
      (Nesting.start vars []).openGroup.acceptAll functions before = .ok n ∧
      Failure functions before n t e) ∨
    (∃ n : Nesting, (Nesting.start vars []).openGroup.acceptAll functions
        (tokens ++ [Token.closing]) = .ok n ∧ n.outer ≠ [] ∧ e = .unclosed) ∨
    e.IsBadAssignment := by
  rcases bind_eq_error h with hread | ⟨n, hread, hfinish⟩
  · rw [readGroup_eq] at hread
    obtain ⟨before, t, after, n, hsplit, hbefore, ht⟩ := Nesting.acceptAll_refused hread
    have hcounted := Counted.of_formula hadjoined hsplit hbefore
    obtain ⟨hlexicalT, hfits⟩ := formula_token hadjoined hlexical hsplit
    exact .inl ⟨before, t, after, n, hsplit, hbefore, hcounted.refused hlexicalT hfits ht⟩
  · rw [readGroup_eq] at hread
    have hcounted := Counted.of_formula hadjoined (List.append_nil _).symm hread
    obtain ⟨m, _, hlast⟩ := Nesting.acceptAll_snoc_ok hread
    obtain ⟨_, _, _, _, hn, _, _, _, hnext⟩ := Nesting.closing_of_ok hlast
    have hawaited : n.awaited = none := by
      rw [hnext]
      exact hn
    rcases hcounted.finish_error hawaited hfinish with hbad | ⟨rfl, houter⟩
    · exact .inr (.inr hbad)
    · exact .inr (.inl ⟨n, hread, houter, rfl⟩)

/-- A token refused for want of an operand has an operator in front of it that is short of values. -/
theorem Failure.short_or_other {before after : List Token} {t : Token} {n : Nesting} {e : ParseError}
    (h : Failure functions before n t e) (hsplit : tokens ++ [Token.closing] = before ++ t :: after) :
    ShortOfValues functions tokens ∨
      e.kind = .parenthesisMismatch ∨ e.kind = .badCall ∨ e.kind = .badAssignment := by
  cases h with
  | call => exact .inr (.inr (.inl rfl))
  | unmatched => exact .inr (.inl rfl)
  | count => exact .inr (.inr (.inl rfl))
  | assignment => exact .inr (.inr (.inr rfl))
  | @missing u op ht hlast hu hlack =>
    left
    obtain ⟨init, rfl⟩ := List.getLast?_eq_some_iff.mp hlast
    exact ⟨init, u, dangles_iff.mpr ⟨hu, t, after, hsplit, ht⟩, hlack⟩

theorem not_short_of_readFormula {tree : Tree} (hadjoined : WellAdjoined tokens)
    (h : Nesting.readFormula functions vars tokens = .ok tree) : ¬ ShortOfValues functions tokens := by
  rintro ⟨before, t, hdangles, hlack⟩
  obtain ⟨ht, next, rest, hsplit, hnext⟩ := dangles_iff.mp hdangles
  obtain ⟨n, hread, _⟩ := bind_eq_ok h
  rw [readGroup_eq, hsplit] at hread
  obtain ⟨m, hbefore, hmore⟩ := Nesting.acceptAll_append_ok hread
  have hcounted := Counted.of_formula hadjoined hsplit hbefore
  have hwaiting : m.current.operators ≠ [] := hcounted.waiting t (by simp) ht
  obtain ⟨⟨hcount, _⟩, _⟩ := List.forall₂_cons.mp hcounted.levels
  -- The token behind the operator puts all operators that wait in place.
  have hmade : ∃ made, reduceAll m.current.operators m.current.trees = .ok made := by
    obtain ⟨last, haccept, _⟩ := bind_eq_ok hmore
    cases Nesting.accepts_of_ok haccept with
    | closing _ _ _ hmade => exact ⟨_, hmade⟩
    | comma _ _ _ hmade => exact ⟨_, hmade⟩
    | opening hk | number hk | key hk | name hk | operator hk => simp [hk] at hnext
  obtain ⟨made, hmade⟩ := hmade
  have henough := enough_of_reduceAll hmade hwaiting
  omega

end Parser

variable {functions : Functions} {vars : Variables} {text : String} {tokens : List Token}

/-- A text with an operator that dangles fails if that operator's group has too few values in front
of it, and otherwise only for its parentheses, its calls or the targets of its assignments. -/
theorem parse_fails_iff_short (htokens : tokenize text = .ok tokens) :
    (∃ failure, (parse functions vars text).outcome = .error failure) ↔
      ShortOfValues functions tokens ∨
        ∃ e, (parse functions vars text).outcome = .error (.parse e) ∧
          (e.kind = .parenthesisMismatch ∨ e.kind = .badCall ∨ e.kind = .badAssignment) := by
  obtain ⟨hadjoined, hlexical, _⟩ := tokenize_iff.mp htokens
  rw [parse_outcome htokens]
  cases hread : Nesting.readFormula functions vars tokens with
  | ok tree =>
    have hnot := not_short_of_readFormula hadjoined hread
    simp [Except.mapError, hnot]
  | error e =>
    refine ⟨fun _ => ?_, fun _ => ⟨.parse e, rfl⟩⟩
    rcases readFormula_error hadjoined hlexical hread with
      ⟨before, t, after, n, hsplit, _, hfailure⟩ | ⟨_, _, _, rfl⟩ | ⟨target, rfl⟩
    · exact (hfailure.short_or_other hsplit).imp_right (fun hkind => ⟨e, rfl, hkind⟩)
    · exact .inr ⟨_, rfl, .inl rfl⟩
    · exact .inr ⟨_, rfl, .inr (.inr rfl)⟩

/-- A number with an operator behind it and nothing else is split into the two. -/
theorem tokenize_number_operator {number : String} (op : Operator)
    (hnumber : Lexer.IsNumber number.toList) (hop : op.FitsWhere false) :
    tokenize (number ++ op.lexeme) = .ok [⟨.number, number⟩, .ofOperator op] := by
  have hnotNegation : op ≠ .unary .negate := by
    rintro rfl
    cases hop
  refine tokenize_iff.mpr ⟨?_, ?_, ?_⟩
  · exact adjoinedFrom_cons.mpr ⟨rfl,
      adjoinedFrom_cons.mpr ⟨Token.ofOperator_fitsWhere.mpr hop, adjoinedFrom_nil _⟩⟩
  · intro t ht
    simp only [List.mem_cons, List.not_mem_nil, or_false] at ht
    rcases ht with rfl | rfl
    · exact hnumber
    · exact ⟨op, rfl⟩
  · have hrenders := renders_flatMap_written [⟨.number, number⟩, .ofOperator op]
    have hwritten := Token.written_ofOperator hnotNegation
    have hplain : (Token.mk .number number).written = number.toList :=
      Token.written_of_kind_ne (by simp)
    simpa [hwritten, hplain, Operator.lexeme] using hrenders

theorem isNumber_two : Lexer.IsNumber "2".toList :=
  .whole (by decide) (List.all_eq_true.mp (by decide))

theorem parse_two_plus : tokenize "2+" = .ok [⟨.number, "2"⟩, .ofOperator (.binary .add)] ∧
    ∃ failure, (parse .empty .empty "2+").outcome = .error failure := by
  have htokens : tokenize "2+" = .ok [⟨.number, "2"⟩, .ofOperator (.binary .add)] :=
    tokenize_number_operator (.binary .add) isNumber_two rfl
  exact ⟨htokens, (parse_fails_iff_short htokens).mpr
    (.inl ⟨[⟨.number, "2"⟩], .ofOperator (.binary .add), ⟨rfl, [], rfl, by simp⟩, by decide⟩)⟩

/-- A prefix operator behind a value, with no operand of its own, is put on that value. -/
theorem parse_two_not : ∃ value tokens before t,
    tokenize "2!" = .ok tokens ∧ Dangles tokens before t ∧
      (parse .empty .empty "2!").outcome = .ok (.unary .logicalNot (.const value)) := by
  have htokens : tokenize "2!" = .ok [⟨.number, "2"⟩, .ofOperator (.unary .logicalNot)] :=
    tokenize_number_operator (.unary .logicalNot) isNumber_two trivial
  obtain ⟨value, hvalue⟩ := Double.read?_of_isNumber isNumber_two
  refine ⟨value, _, [⟨.number, "2"⟩], _, htokens, ⟨rfl, [], rfl, by simp⟩, ?_⟩
  have hnumber : (Nesting.start .empty []).openGroup.accept .empty ⟨.number, "2"⟩ =
      .ok ((Nesting.start .empty []).openGroup.push (.const value)) := by
    simp only [Nesting.accept, Nesting.openGroup, Nesting.start, hvalue]
  rw [parse_outcome htokens]
  simp only [Nesting.readFormula, readGroup_eq, Nesting.acceptAll, List.cons_append,
    List.foldlM_cons, hnumber]
  rfl

end Formula
