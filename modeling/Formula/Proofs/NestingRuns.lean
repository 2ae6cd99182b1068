import Formula.Formulas
import Formula.Proofs.NestingSteps
import Formula.Proofs.Stacks

namespace Formula.Parser

section Steps

variable {functions : Functions} {base : List Marker} {values : List (Option Tree)} {n n' : Nesting}
  {e : ParseError}

theorem operatorMarkers_head {operators : List Operator} {call : Option (String × Function)}
    {outer : List Level} (hbase : outer = [] → ∀ key f, .call key f ∉ base.head?) :
    ∀ key f, Marker.call key f ∉
      (operators.map Marker.operator ++ markersBelow base call outer).head? := by
  cases operators with
  | nil =>
    cases outer with
    | nil => exact hbase rfl
    | cons next outer => simp [markersBelow]
  | cons op operators => simp

/-- A group whose last entry has ended goes from the stacks, and its tree comes to the values. -/
theorem endGroup_run {call : Option (String × Function)} {operators : List Operator}
    {trees made : List Tree} {next : Level} {outer : List Level} {vars : Variables}
    {created : List String}
    (hcall : call = none → outer = [] → ∀ key f, .call key f ∉ base.head?)
    (hmade : reduceAll operators trees = .ok made) :
    Parser.endGroup.run
        (Nesting.state ⟨none, ⟨call, operators, trees⟩, next :: outer, vars, created⟩ base values) =
      match (Level.mk call [] made).result with
      | .ok tree => .ok () (Nesting.state ⟨none, next.push tree, outer, vars, created⟩ base values)
      | .error e => .error e (Nesting.state ⟨none, next, outer, vars, created⟩ base values) := by
  have hentry : (Parser.endEntry (Nesting.state ⟨none, ⟨call, operators, trees⟩, next :: outer, vars,
      created⟩ base values).markers).run
        (Nesting.state ⟨none, ⟨call, operators, trees⟩, next :: outer, vars, created⟩ base values) =
      .ok () (Nesting.state ⟨none, ⟨call, [], made⟩, next :: outer, vars, created⟩ base values) :=
    run_reduceAll endEntry_goesOn hmade
  have hpop := popEntries_run made (next.trees.map some ++ valuesBelow values outer)
    (next.operators.map Marker.operator ++ markersBelow base next.call outer) vars created
  simp only [Parser.endGroup, EStateM.run_bind, EStateM.run_get, hentry]
  cases call with
  | some call =>
    obtain ⟨key, function⟩ := call
    simp only [Nesting.state, callMarkers, markersBelow, valuesBelow, List.map_nil, List.nil_append,
      List.singleton_append, EStateM.run_bind, setMarkers_run, hpop]
    cases h : function.apply made.reverse <;> simp only [Level.result, h] <;> rfl
  | none =>
    have hrest : ∀ key f, Marker.call key f ∉
        (next.operators.map Marker.operator ++ markersBelow base next.call outer).head? :=
      operatorMarkers_head (hcall rfl)
    simp only [Nesting.state, callMarkers, markersBelow, valuesBelow, List.map_nil, List.nil_append]
    split
    next hmarkers =>
      simp only [List.cons.injEq, true_and] at hmarkers
      simp [hmarkers] at hrest
    next hmarkers =>
      simp only [List.cons.injEq, true_and] at hmarkers
      simp only [← hmarkers, EStateM.run_bind, setMarkers_run, hpop, pushValue_run, Level.result]
      rfl
    next hmarkers => exact absurd rfl (hmarkers _)

/-- A token takes the stacks of a nesting to the stacks of the next one. -/
theorem accept_ok {t : Token}
    (hcall : t.kind = .closing → n.outer.tail = [] → ∀ key f, .call key f ∉ base.head?)
    (hbase : n.outer = [] → ∀ op, .operator op ∉ base.head?) (h : n.accept functions t = .ok n') :
    (accept functions n.awaited.isSome t).run (n.state base values) =
      .ok n'.awaited.isSome (n'.state base values) := by
  obtain ⟨kind, text⟩ := t
  obtain ⟨awaited, ⟨call, operators, trees⟩, outer, vars, created⟩ := n
  cases Nesting.accepts_of_ok h with
  | opening hk =>
    cases hk
    cases awaited <;> rfl
  | @closing made tree level rest hk hn houter hmade htree =>
    cases hk
    cases hn
    cases houter
    have hlast : call = none → rest = [] → ∀ key f, .call key f ∉ base.head? := fun _ => hcall rfl
    refine run_bind_of_ok _ (a := ()) ((endGroup_run hlast hmade).trans ?_)
    rw [htree]
  | comma hk hn hopen hmade =>
    cases hk
    cases hn
    obtain ⟨level, rest, rfl⟩ := List.exists_cons_of_ne_nil hopen
    exact (run_bind_of_ok _ rfl).trans (run_bind_of_ok _ (run_reduceAll endEntry_goesOn hmade))
  | number hk hn hvalue =>
    cases hk
    cases hn
    simp only [accept, Option.isSome_none, acceptNumber, hvalue]
    rfl
  | key hk hn hf =>
    cases hk
    cases hn
    simp only [accept, Option.isSome_none, acceptIdentifier, hf]
    rfl
  | name hk hn hf =>
    cases hk
    cases hn
    simp only [accept, Option.isSome_none, acceptIdentifier, hf]
    rfl
  | operator hk hn hop hlevel =>
    cases hk
    cases hn
    obtain ⟨made, hmade, hl⟩ := bind_eq_ok hlevel
    cases hl
    simp only [accept, Option.isSome_none, acceptOperator, hop]
    exact run_bind_of_ok _ ((run_bind_of_ok _ rfl).trans
      (run_bind_of_ok _ (applyTighter_ok (markersBelow_head hbase) hmade)))

/-- An entry that cannot end makes the token fail that ends it. -/
theorem accept_fails {t : Token} (hk : t.kind = .closing ∨ t.kind = .comma)
    (hn : n.awaited = none)
    (h : FailsWith (Parser.endEntry (n.state base values).markers) (n.state base values) e) :
    FailsWith (accept functions n.awaited.isSome t) (n.state base values) e := by
  obtain ⟨kind, text⟩ := t
  rw [hn]
  rcases hk with hk | hk <;> cases hk
  · exact (FailsWith.after rfl rfl rfl (h.bind _)).bind _
  · exact .after rfl rfl rfl (h.bind _)

theorem accept_error {t : Token}
    (hcall : t.kind = .closing → n.outer.tail = [] → ∀ key f, .call key f ∉ base.head?)
    (hbase : n.outer = [] → base = [] ∧ ∀ value ∈ values.head?, value = none)
    (h : n.accept functions t = .error e) :
    FailsWith (accept functions n.awaited.isSome t) (n.state base values) e := by
  have hvalues := valuesBelow_head (fun houter => (hbase houter).2)
  obtain ⟨kind, text⟩ := t
  obtain ⟨awaited, ⟨call, operators, trees⟩, outer, vars, created⟩ := n
  cases Nesting.refuses_of_error h with
  | call hn hk =>
    cases hn
    cases kind <;> first | exact absurd rfl hk | exact ⟨_, rfl, rfl, rfl⟩
  | entry hk hn hreduce =>
    cases hn
    exact accept_fails hk rfl (failsWith_of_reduceAll endEntry_goesOn hvalues hreduce)
  | unmatched hk hn houter hmade =>
    cases hn
    cases houter
    obtain ⟨rfl, -⟩ := hbase rfl
    exact accept_fails hk rfl ⟨_, run_reduceAll endEntry_goesOn hmade, rfl, rfl⟩
  | @result made level rest _ hk hn houter hmade hresult =>
    cases hk
    cases hn
    cases houter
    have hlast : call = none → rest = [] → ∀ key f, .call key f ∉ base.head? := fun _ => hcall rfl
    refine FailsWith.bind ⟨Nesting.state ⟨none, level, rest, vars, created⟩ base values,
      (endGroup_run hlast hmade).trans ?_, rfl, rfl⟩ _
    rw [hresult]
  | number hk hn hvalue =>
    cases hk
    cases hn
    simp only [accept, Option.isSome_none, acceptNumber, hvalue]
    exact ⟨_, rfl, rfl, rfl⟩
  | unknown hk hn hop =>
    cases hk
    cases hn
    simp only [accept, Option.isSome_none, acceptOperator, hop]
    exact ⟨_, rfl, rfl, rfl⟩
  | operator hk hn hop hlevel =>
    cases hk
    cases hn
    rcases bind_eq_error hlevel with hreduce | ⟨made, _, hl⟩
    · simp only [accept, Option.isSome_none, acceptOperator, hop]
      exact FailsWith.bind (.after rfl rfl rfl ((applyTighter_error hvalues hreduce).bind _)) _
    · cases hl

end Steps

section Runs

variable {functions : Functions} {n n' : Nesting} {e : ParseError}

theorem acceptAll_ok (values : List (Option Tree)) {tokens : List Token}
    (h : n.acceptAll functions tokens = .ok n') :
    (acceptAll functions n.awaited.isSome tokens).run (n.state [] values) =
      .ok () (n'.state [] values) := by
  induction tokens generalizing n with
  | nil =>
    cases h
    rfl
  | cons t tokens ih =>
    obtain ⟨next, hnext, hrest⟩ := bind_eq_ok h
    exact (run_bind_of_ok _ (accept_ok (by simp) (by simp) hnext)).trans (ih hrest)

/-- A run that fails leaves the variables and their record as they were in front of the refused
token. -/
theorem acceptAll_error {values : List (Option Tree)} {tokens : List Token}
    (hvalues : ∀ value ∈ values.head?, value = none)
    (h : n.acceptAll functions tokens = .error e) :
    ∃ left, (acceptAll functions n.awaited.isSome tokens).run (n.state [] values) =
        .error e left ∧
      ∃ before t after, ∃ m : Nesting, tokens = before ++ t :: after ∧
        n.acceptAll functions before = .ok m ∧ m.accept functions t = .error e ∧
        left.variables = m.vars ∧ left.created = m.created := by
  induction tokens generalizing n with
  | nil => cases h
  | cons t tokens ih =>
    rcases bind_eq_error h with hnext | ⟨next, hnext, hrest⟩
    · have hfails := accept_error (by simp) (fun _ => ⟨rfl, hvalues⟩) hnext
      obtain ⟨left, hrun, hleft⟩ :=
        hfails.bind (fun awaits => acceptAll functions awaits tokens)
      exact ⟨left, hrun, [], t, tokens, n, rfl, rfl, hnext, hleft⟩
    · obtain ⟨left, hrun, before, u, after, m, rfl, hbefore, hu, hleft⟩ := ih hrest
      exact ⟨left, (run_bind_of_ok _ (accept_ok (by simp) (by simp) hnext)).trans hrun,
        t :: before, u, after, m, rfl, (Nesting.acceptAll_cons hnext).trans hbefore, hu, hleft⟩

/-- A formula ends with its tree on top of what it has left and of what was there before. -/
theorem finish_ok {tree : Tree} {rest : List Tree} (values : List (Option Tree))
    (h : n.awaited = none ∧ n.outer = [] ∧
      reduceAll n.current.operators n.current.trees = .ok (tree :: rest)) :
    (applyRest (n.state [] values).markers >>= fun _ => result).run (n.state [] values) =
      .ok tree ⟨[], (tree :: rest).map some ++ values, n.vars, n.created⟩ := by
  obtain ⟨hn, houter, hmade⟩ := h
  obtain ⟨awaited, ⟨call, operators, trees⟩, outer, vars, created⟩ := n
  cases hn
  cases houter
  exact (run_bind_of_ok _ (run_reduceAll applyRest_goesOn hmade)).trans rfl

theorem finish_error (h : n.finish = .error e) :
    FailsWith (applyRest (n.state [] []).markers >>= fun _ => result) (n.state [] []) e := by
  obtain ⟨awaited, ⟨call, operators, trees⟩, outer, vars, created⟩ := n
  cases awaited with
  | some call =>
    cases h
    exact ⟨_, rfl, rfl, rfl⟩
  | none =>
    rcases bind_eq_error h with hreduce | ⟨made, hmade, h⟩
    · exact (failsWith_of_reduceAll applyRest_goesOn (valuesBelow_head (by simp)) hreduce).bind _
    · cases outer with
      | cons next outer =>
        cases h
        refine .bind ?_ _
        refine .of_run_eq (run_reduceAll applyRest_goesOn hmade) rfl rfl ?_
        exact ⟨_, rfl, rfl, rfl⟩
      | nil =>
        cases made with
        | cons tree rest => cases h
        | nil =>
          cases h
          exact .after (run_reduceAll applyRest_goesOn hmade) rfl rfl ⟨_, rfl, rfl, rfl⟩

end Runs

section Formulas

variable {functions : Functions} {vars : Variables} {tokens : List Token} {n : Nesting}

theorem parse_ok {created : List String} {tree : Tree} {rest : List Tree}
    (values : List (Option Tree))
    (h : (Nesting.start vars created).readGroup functions tokens = .ok n)
    (hlast : n.awaited = none ∧ n.outer = [] ∧
      reduceAll n.current.operators n.current.trees = .ok (tree :: rest)) :
    (parse functions tokens).run ⟨[], values, vars, created⟩ =
      .ok tree ⟨[], (tree :: rest).map some ++ values, n.vars, n.created⟩ := by
  have hread := acceptAll_ok values h
  exact (run_bind_of_ok _ hread).trans ((run_bind_of_ok _ rfl).trans (finish_ok values hlast))

/-- A parse that fails leaves what the tokens lead to that it got over: those in front of the one
that is refused, or all of them. -/
theorem parse_error {e : ParseError} (h : Nesting.readFormula functions vars tokens = .error e) :
    ∃ left, (parse functions tokens).run ⟨[], [], vars, []⟩ = .error e left ∧
      ∃ before, ∃ m : Nesting, (Nesting.start vars []).acceptAll functions before = .ok m ∧
        left.variables = m.vars ∧ left.created = m.created ∧
        (before = Token.opening :: tokens ++ [Token.closing] ∨
          ∃ t after, Token.opening :: tokens ++ [Token.closing] = before ++ t :: after ∧
            m.accept functions t = .error e) := by
  rcases bind_eq_error h with hread | ⟨n, hread, hfinish⟩
  · have hnone : ∀ value ∈ ([] : List (Option Tree)).head?, value = none := by simp
    obtain ⟨left, hrun, before, t, after, m, hsplit, hbefore, ht, hvariables, hcreated⟩ :=
      acceptAll_error hnone hread
    exact ⟨left, run_bind_of_error _ hrun, before, m, hbefore, hvariables, hcreated,
      .inr ⟨t, after, hsplit, ht⟩⟩
  · obtain ⟨left, hrun, hvariables, hcreated⟩ := finish_error hfinish
    have hrunRead := acceptAll_ok [] hread
    exact ⟨left, (run_bind_of_ok _ hrunRead).trans ((run_bind_of_ok _ rfl).trans hrun),
      _, n, hread, hvariables, hcreated, .inl rfl⟩

end Formulas

end Formula.Parser

namespace Formula

open Formula.Parser

variable {functions : Functions} {vars : Variables} {text : String} {tokens : List Token}

theorem parse_of_tokenize (htokens : tokenize text = .ok tokens) :
    parse functions vars text = (ParserState.start vars).parseTokens functions tokens := by
  simp only [parse, ParserState.parseText, htokens]

theorem parseTokens_outcome (functions : Functions) (vars : Variables) (tokens : List Token) :
    ((ParserState.start vars).parseTokens functions tokens).outcome =
      (Nesting.readFormula functions vars tokens).mapError .parse := by
  cases h : Nesting.readFormula functions vars tokens with
  | ok tree =>
    obtain ⟨n, hread, hfinish⟩ := bind_eq_ok h
    obtain ⟨rest, hlast⟩ := Nesting.finished_of_ok hfinish
    have hrun := parse_ok [] hread hlast
    simp [ParserState.parseTokens, ParserState.start, hrun, Except.mapError]
  | error e =>
    obtain ⟨left, hrun, _⟩ := parse_error h
    simp [ParserState.parseTokens, ParserState.start, hrun, Except.mapError]

theorem parseTokens_ok_iff {tree : Tree} :
    ((ParserState.start vars).parseTokens functions tokens).outcome = .ok tree ↔
      Nesting.readFormula functions vars tokens = .ok tree := by
  rw [parseTokens_outcome]
  cases Nesting.readFormula functions vars tokens <;> simp [Except.mapError]

/-- The variables that a parse of tokens leaves are those of its reading. -/
theorem parseTokens_variables {n : Nesting} {tree : Tree}
    (h : (Nesting.start vars []).readGroup functions tokens = .ok n)
    (hfinish : n.finish = .ok tree) :
    ((ParserState.start vars).parseTokens functions tokens).parser.variables = n.vars := by
  obtain ⟨rest, hlast⟩ := Nesting.finished_of_ok hfinish
  have hrun := parse_ok [] h hlast
  simp [ParserState.parseTokens, ParserState.start, hrun]

/-- Whether it fails or not, a parse leaves the variables that accepted tokens lead to. -/
theorem parseTokens_left (functions : Functions) (vars : Variables) (tokens : List Token) :
    ∃ before, ∃ n : Nesting, (Nesting.start vars []).acceptAll functions before = .ok n ∧
      ((ParserState.start vars).parseTokens functions tokens).parser.variables = n.vars := by
  cases h : Nesting.readFormula functions vars tokens with
  | ok tree =>
    obtain ⟨n, hread, hfinish⟩ := bind_eq_ok h
    exact ⟨_, n, hread, parseTokens_variables hread hfinish⟩
  | error e =>
    obtain ⟨left, hrun, before, n, hbefore, hvariables, -⟩ := parse_error h
    refine ⟨before, n, hbefore, ?_⟩
    simpa [ParserState.parseTokens, ParserState.start, hrun] using hvariables

/-- What a parse that returns a tree has read. -/
theorem parse_readings {tree : Tree} (h : (parse functions vars text).outcome = .ok tree) :
    ∃ tokens, ∃ n : Nesting, tokenize text = .ok tokens ∧
      (Nesting.start vars []).readGroup functions tokens = .ok n ∧ n.finish = .ok tree := by
  cases htokens : tokenize text with
  | error error => simp [parse, ParserState.parseText, htokens] at h
  | ok tokens =>
    rw [parse_of_tokenize htokens] at h
    obtain ⟨n, hread, hfinish⟩ := bind_eq_ok (parseTokens_ok_iff.mp h)
    exact ⟨tokens, n, rfl, hread, hfinish⟩

theorem parse_outcome (htokens : tokenize text = .ok tokens) :
    (parse functions vars text).outcome =
      (Nesting.readFormula functions vars tokens).mapError .parse := by
  rw [parse_of_tokenize htokens, parseTokens_outcome]

theorem parse_variables {n : Nesting} {tree : Tree} (htokens : tokenize text = .ok tokens)
    (h : (Nesting.start vars []).readGroup functions tokens = .ok n)
    (hfinish : n.finish = .ok tree) : (parse functions vars text).parser.variables = n.vars := by
  rw [parse_of_tokenize htokens, parseTokens_variables h hfinish]

end Formula
