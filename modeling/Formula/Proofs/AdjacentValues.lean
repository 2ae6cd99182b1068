import Formula.Proofs.GroupRuns

namespace Formula

open Formula.Parser

section Texts

variable {text : String} {tokens : List Token} {blanks rest : List Char} {c : Char}

theorem Lexer.tokensFrom_blanks {expected : Bool} {s : List Char}
    (hblanks : ∀ b ∈ blanks, Text.isBlank b = true) :
    tokensFrom candidates expected (blanks ++ s) = tokensFrom candidates expected s := by
  induction blanks with
  | nil => rfl
  | cons b blanks ih =>
    rw [List.cons_append, tokensFrom_blank (hblanks b (by simp)),
      ih (fun d hd => hblanks d (by simp [hd]))]

theorem Lexer.endsAt_blank {t : Token} (h : Text.isBlank c = true) : EndsAt t c :=
  Begins.endsAt (.inl h)

/-- Behind a value the text is split on from the next character that is no blank. -/
theorem tokenize_behind_value (htokens : tokenize text = .ok tokens)
    (hvalue : expectsBehind tokens = false) (hblanks : ∀ b ∈ blanks, Text.isBlank b = true)
    (hends : blanks = [] → ∀ t ∈ tokens.getLast?, Lexer.EndsAt t c) :
    tokenize (text ++ String.ofList (blanks ++ c :: rest)) =
      (Lexer.tokensFrom Lexer.candidates false (c :: rest)).map (tokens ++ ·) := by
  have hcut : ∀ t ∈ tokens.getLast?, ∀ d ∈ (blanks ++ c :: rest).head?, Lexer.EndsAt t d := by
    intro t ht d hd
    cases blanks with
    | nil =>
      cases hd
      exact hends rfl t ht
    | cons b blanks =>
      obtain rfl : b = d := by simpa using hd
      exact Lexer.endsAt_blank (hblanks b (by simp))
  rw [tokenize_eq, String.toList_append, String.toList_ofList,
    Lexer.tokensFrom_append htokens hcut, Lexer.tokensFrom_blanks hblanks]
  exact congrArg (fun flag => Except.map _ (Lexer.tokensFrom Lexer.candidates flag _)) hvalue

theorem Lexer.tokensFrom_digit (h : Text.isDigit c = true) :
    tokensFrom candidates false (c :: rest) = .error (.unexpectedNumber (c :: rest)) :=
  tokensFrom_error (Text.isBlank_of_isDigit h) (by simp [nextToken, h])

theorem Lexer.tokensFrom_letter (h : Text.isLetter c = true) :
    tokensFrom candidates false (c :: rest) = .error (.unexpectedIdentifier (c :: rest)) :=
  tokensFrom_error (Text.isBlank_of_isLetter h)
    (by simp [nextToken, Text.isDigit_of_isLetter h, h])

end Texts

section Tokens

variable {functions : Functions} {vars behind : Variables} {first tokens : List Token} {tree : Tree}

/-- Tokens that are a value by themselves, with their tree and the variables behind them. -/
inductive IsValue (functions : Functions) (vars : Variables) :
    List Token → Tree → Variables → Prop
  | number {text : String} {value : Float} : Double.read? text = some value →
      IsValue functions vars [⟨.number, text⟩] (.const value) vars
  | name {name : String} : functions.find? name = none →
      IsValue functions vars [⟨.identifier, name⟩] (.var (vars.resolve name).1)
        (vars.resolve name).2
  | group {tokens : List Token} {tree : Tree} {parser : ParserState} : Balanced tokens →
      (ParserState.start vars).parseTokens functions tokens = ⟨.ok tree, parser⟩ →
      IsValue functions vars (Token.opening :: tokens ++ [Token.closing]) tree parser.variables

theorem resolveName_run (name : String) (s : ParserState) :
    (resolveName name).run s =
      .ok (s.variables.resolve name).1 ⟨s.markers, s.values, (s.variables.resolve name).2,
        s.created ++ if s.variables.cells.contains name then [] else [name]⟩ := by
  have hcreated : (s.created ++ if s.variables.cells.contains name then [] else [name]) =
      if s.variables.cells.contains name then s.created else s.created ++ [name] := by
    split <;> simp
  rw [hcreated]
  rfl

/-- A value comes to the others, unless a call is waiting for its group. -/
theorem IsValue.run (h : IsValue functions vars first tree behind) :
    ∃ names, ∀ s : ParserState, s.variables = vars → (∀ key f, .call key f ∉ s.markers.head?) →
      ∀ more, (acceptAll functions false (first ++ more)).run s =
        (acceptAll functions false more).run
          ⟨s.markers, some tree :: s.values, behind, s.created ++ names⟩ := by
  cases h with
  | number hvalue =>
    refine ⟨[], ?_⟩
    rintro ⟨markers, values, _, created⟩ rfl _ more
    simp only [List.cons_append, List.nil_append, List.append_nil, acceptAll, accept,
      acceptNumber, hvalue]
    rfl
  | @name name hname =>
    refine ⟨if vars.cells.contains name then [] else [name], ?_⟩
    rintro ⟨markers, values, now, created⟩ rfl _ more
    simp only [List.cons_append, List.nil_append, acceptAll, accept, acceptIdentifier, hname,
      EStateM.run_bind, resolveName_run]
    rfl
  | @group tokens tree parser hbalanced hparse =>
    rcases group_run functions vars hbalanced with
      ⟨e, last, hfails⟩ | ⟨entries, last, names, _, hruns⟩
    · obtain ⟨left, hleft, _⟩ := hfails (.start vars) false [] rfl
      simp [ParserState.parseTokens, parse_of_error hleft] at hparse
    · have halone : (Parser.acceptAll functions false
          (Token.opening :: tokens ++ [Token.closing])).run (.start vars) =
          .ok () ⟨[], [some (Tree.ofGroup entries)], last, names⟩ :=
        hruns (.start vars) false [] rfl
      simp only [ParserState.parseTokens, parse_of_tree halone, Attempt.mk.injEq,
        Except.ok.injEq] at hparse
      obtain ⟨rfl, rfl⟩ := hparse
      refine ⟨names, fun s hs hnone more => ?_⟩
      rw [List.append_assoc, List.singleton_append, hruns s false more hs]
      exact run_bind_of_ok _ (putGroup_none hnone)

/-- A group behind a value is one more value, and the two are a list. -/
theorem parseTokens_value_group (h : IsValue functions vars first tree behind)
    (hbalanced : Balanced tokens) :
    ((ParserState.start vars).parseTokens functions
        (first ++ Token.opening :: tokens ++ [Token.closing])).outcome =
      ((ParserState.start behind).parseTokens functions tokens).outcome.map
        (fun second => .call Function.last [tree, second]) := by
  obtain ⟨names, hfirst⟩ := h.run
  have hstart : (acceptAll functions false (Token.opening ::
      (first ++ Token.opening :: tokens ++ [Token.closing]) ++ [Token.closing])).run (.start vars) =
      (acceptAll functions false (Token.opening :: tokens ++ Token.closing :: [Token.closing])).run
        ⟨[.group], [some tree, none], behind, names⟩ := by
    have hopen := hfirst ⟨[.group], [none], vars, []⟩ rfl (by simp)
      (Token.opening :: tokens ++ Token.closing :: [Token.closing])
    simp only [List.cons_append, List.append_assoc, List.nil_append] at hopen ⊢
    exact hopen
  rcases group_run functions behind hbalanced with
    ⟨e, last, hfails⟩ | ⟨entries, last, more, _, hruns⟩
  · obtain ⟨left, hleft, _⟩ :=
      hfails ⟨[.group], [some tree, none], behind, names⟩ false [Token.closing] rfl
    obtain ⟨alone, halone, _⟩ := hfails (.start behind) false [] rfl
    simp only [ParserState.parseTokens, parse_of_error (hstart.trans hleft), parse_of_error halone]
    rfl
  · have hread : (acceptAll functions false (Token.opening ::
        (first ++ Token.opening :: tokens ++ [Token.closing]) ++ [Token.closing])).run
        (.start vars) = .ok () ⟨[], [some (.call Function.last [tree, Tree.ofGroup entries])], last,
          names ++ more⟩ :=
      hstart.trans (hruns ⟨[.group], [some tree, none], behind, names⟩ false [Token.closing] rfl)
    have halone : (acceptAll functions false
        (Token.opening :: tokens ++ [Token.closing])).run (.start behind) =
        .ok () ⟨[], [some (Tree.ofGroup entries)], last, more⟩ :=
      hruns (.start behind) false [] rfl
    simp only [ParserState.parseTokens, parse_of_tree hread, parse_of_tree halone]
    rfl

end Tokens

/-- Two values with nothing but blanks between them. Behind a value a number and an identifier are
refused for their place. An opening parenthesis is taken there like everywhere else, and the group
is one more value: with a value alone in front of it, the two are a list. -/
theorem parse_adjacent_values (functions : Functions) (vars : Variables) :
    (∀ (text : String) (tokens : List Token) (blanks rest : List Char) (c : Char),
      tokenize text = .ok tokens → expectsBehind tokens = false →
      (∀ b ∈ blanks, Text.isBlank b = true) →
      (blanks = [] → ∀ t ∈ tokens.getLast?, Lexer.EndsAt t c) →
      let whole := text ++ String.ofList (blanks ++ c :: rest)
      (Text.isDigit c = true →
        (parse functions vars whole).outcome = .error (.lex (.unexpectedNumber (c :: rest)))) ∧
      (Text.isLetter c = true →
        (parse functions vars whole).outcome = .error (.lex (.unexpectedIdentifier (c :: rest)))) ∧
      (c = '(' → tokenize whole =
        (tokenize (String.ofList rest)).map (fun more => tokens ++ Token.opening :: more))) ∧
    ∀ (first tokens : List Token) (tree : Tree) (behind : Variables),
      IsValue functions vars first tree behind → Balanced tokens →
      ((ParserState.start vars).parseTokens functions
          (first ++ Token.opening :: tokens ++ [Token.closing])).outcome =
        ((ParserState.start behind).parseTokens functions tokens).outcome.map
          (fun second => .call Function.last [tree, second]) := by
  refine ⟨fun text tokens blanks rest c htokens hvalue hblanks hends => ?_,
    fun first tokens tree behind h hbalanced => parseTokens_value_group h hbalanced⟩
  have hwhole : tokenize (text ++ String.ofList (blanks ++ c :: rest)) =
      (Lexer.tokensFrom Lexer.candidates false (c :: rest)).map (tokens ++ ·) :=
    tokenize_behind_value htokens hvalue hblanks hends
  refine ⟨fun hdigit => ?_, fun hletter => ?_, ?_⟩
  · rw [Lexer.tokensFrom_digit hdigit] at hwhole
    simp only [parse, ParserState.parseText, hwhole]
    rfl
  · rw [Lexer.tokensFrom_letter hletter] at hwhole
    simp only [parse, ParserState.parseText, hwhole]
    rfl
  · rintro rfl
    rw [Lexer.tokensFrom_opening] at hwhole
    rw [hwhole, tokenize_eq, String.toList_ofList]
    cases Lexer.tokensFrom Lexer.candidates true rest <;> rfl

theorem isIdentifier_foo : Lexer.IsIdentifier "foo".toList :=
  ⟨by decide, List.all_eq_true.mp (by decide)⟩

theorem tokenize_foo : tokenize "foo" = .ok [⟨.identifier, "foo"⟩] :=
  tokenize_identifier isIdentifier_foo

theorem parse_adjacent_values_foo :
    tokenize "foo" = .ok [⟨.identifier, "foo"⟩] ∧
    tokenize ("foo" ++ String.ofList ([] ++ '(' :: ['x', ')'])) =
      (tokenize (String.ofList ['x', ')'])).map
        (fun more => [⟨.identifier, "foo"⟩] ++ Token.opening :: more) ∧
    ∃ tree behind, IsValue .empty .empty [⟨.identifier, "foo"⟩] tree behind ∧
      Balanced [⟨.identifier, "x"⟩] ∧
      ((ParserState.start .empty).parseTokens .empty
          ([⟨.identifier, "foo"⟩] ++ Token.opening :: [⟨.identifier, "x"⟩] ++
            [Token.closing])).outcome =
        ((ParserState.start behind).parseTokens .empty [⟨.identifier, "x"⟩]).outcome.map
          (fun second => .call Function.last [tree, second]) := by
  have hends : ∀ t ∈ [(⟨.identifier, "foo"⟩ : Token)].getLast?, Lexer.EndsAt t '(' := by
    rintro t ⟨⟩
    exact Lexer.Begins.endsAt (.inr (by decide))
  have hblanks : ∀ b ∈ ([] : List Char), Text.isBlank b = true := by simp
  obtain ⟨_, _, hopening⟩ := (parse_adjacent_values .empty .empty).1 "foo" _ [] ['x', ')'] '('
    tokenize_foo rfl hblanks (fun _ => hends)
  have hvalue : IsValue .empty .empty [⟨.identifier, "foo"⟩] _ _ := .name rfl
  exact ⟨tokenize_foo, hopening rfl, _, _, hvalue, rfl,
    (parse_adjacent_values .empty .empty).2 _ [⟨.identifier, "x"⟩] _ _ hvalue rfl⟩

/-- What looks like a call of a function that there is none of is a list of two variables. -/
theorem parse_unknown_call : ∃ name argument,
    (parse .empty .empty "foo(x)").outcome =
      .ok (.call Function.last [.var name, .var argument]) := by
  have htokens : tokenize "foo(x)" =
      .ok [⟨.identifier, "foo"⟩, .opening, ⟨.identifier, "x"⟩, .closing] := by
    refine tokenize_iff.mpr ⟨?_, ?_, .token _ (.token _ (.token _ (.token _ .nil)))⟩
    · have hinside : AdjoinedFrom true [⟨.identifier, "x"⟩, .closing] :=
        adjoinedFrom_cons.mpr ⟨rfl, adjoinedFrom_cons.mpr ⟨trivial, adjoinedFrom_nil _⟩⟩
      exact adjoinedFrom_cons.mpr ⟨rfl, adjoinedFrom_cons.mpr ⟨trivial, hinside⟩⟩
    · intro t ht
      simp only [List.mem_cons, List.not_mem_nil, or_false] at ht
      rcases ht with rfl | rfl | rfl | rfl
      · exact isIdentifier_foo
      · rfl
      · exact ⟨by decide, by simp⟩
      · rfl
  rw [parse_outcome htokens]
  exact ⟨_, _, rfl⟩

end Formula
