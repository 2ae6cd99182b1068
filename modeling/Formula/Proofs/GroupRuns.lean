import Formula.Proofs.Balance
import Formula.Proofs.LongerTexts
import Formula.Proofs.NestingRuns

namespace Formula.Parser

namespace Nesting

variable {functions : Functions} {n next : Nesting} {t : Token} {tokens : List Token}
  {e : ParseError}

/-- The same nesting with names on record before its own. -/
def recorded (names : List String) (n : Nesting) : Nesting :=
  { n with created := names ++ n.created }

theorem accept_recorded (names : List String) :
    (n.recorded names).accept functions t = (n.accept functions t).map (recorded names) := by
  obtain ⟨kind, text⟩ := t
  obtain ⟨awaited, current, outer, vars, created⟩ := n
  cases awaited with
  | some call => cases kind <;> rfl
  | none =>
    cases kind with
    | opening => rfl
    | closing =>
      simp only [accept, recorded, endGroup]
      cases current.endEntry with
      | error e => rfl
      | ok level =>
        cases outer with
        | nil => rfl
        | cons next outer =>
          cases h : level.result with
          | error e => simp [h, bind, Except.bind, Except.map]
          | ok tree => simp [h, bind, Except.bind, Except.map, recorded, pure, Except.pure]
    | comma =>
      simp only [accept, recorded, endEntry]
      cases current.endEntry with
      | error e => rfl
      | ok level => cases outer <;> rfl
    | number =>
      simp only [accept, recorded]
      cases Double.read? text <;> rfl
    | identifier =>
      simp only [accept, recorded]
      cases functions.find? text with
      | some f => rfl
      | none =>
        cases h : vars.cells.contains text <;>
          simp [pushVariable, push, recorded, h, Except.map]
    | operator =>
      simp only [accept, recorded]
      cases Operator.ofLexeme? text with
      | none => rfl
      | some op =>
        simp only [pushOperator]
        cases current.pushOperator op <;> rfl

theorem acceptAll_recorded (names : List String) :
    (n.recorded names).acceptAll functions tokens =
      (n.acceptAll functions tokens).map (recorded names) := by
  induction tokens generalizing n with
  | nil => rfl
  | cons t tokens ih =>
    simp only [acceptAll, List.foldlM_cons, accept_recorded]
    cases n.accept functions t with
    | error e => rfl
    | ok m => exact ih

theorem recorded_ok (names : List String) (h : n.acceptAll functions tokens = .ok next) :
    (n.recorded names).acceptAll functions tokens = .ok (next.recorded names) := by
  rw [acceptAll_recorded, h]
  rfl

theorem recorded_error (names : List String) (h : n.accept functions t = .error e) :
    (n.recorded names).accept functions t = .error e := by
  rw [accept_recorded, h]
  rfl

variable {depth depth' last : Nat} {call : Option (String × Function)} {around : List Level}
  {base : List Marker} {values : List (Option Tree)}

/-- A token in a group has that group's boundary around it, and one that ends a group inside has
another one in between. -/
theorem Inside.outside (h : n.Inside depth call around) (haround : around ≠ [])
    (hdepth : depthBehind depth t = some depth') :
    n.outer ≠ [] ∧ (t.kind = .closing → n.outer.tail ≠ []) := by
  have hlength := h.outer_length
  have hpos : 0 < around.length := List.length_pos_of_ne_nil haround
  refine ⟨List.ne_nil_of_length_pos (by omega), fun hk => List.ne_nil_of_length_pos ?_⟩
  simp only [depthBehind, hk, Option.ite_none_left_eq_some] at hdepth
  rw [List.length_tail]
  omega

/-- Tokens in a group do the same on all stacks below it. -/
theorem Inside.run_ok (h : n.Inside depth call around) (haround : around ≠ [])
    (hdepth : tokens.foldlM depthBehind depth = some last)
    (hnext : n.acceptAll functions tokens = .ok next) (more : List Token) :
    (Parser.acceptAll functions n.awaited.isSome (tokens ++ more)).run (n.state base values) =
      (Parser.acceptAll functions next.awaited.isSome more).run (next.state base values) := by
  induction tokens generalizing n depth with
  | nil =>
    cases hnext
    rfl
  | cons t tokens ih =>
    obtain ⟨m, ht, hrest⟩ := bind_eq_ok hnext
    obtain ⟨middle, hmiddle, hlast⟩ := Option.bind_eq_some_iff.mp hdepth
    obtain ⟨houter, htail⟩ := h.outside haround hmiddle
    have hstep : (Parser.accept functions n.awaited.isSome t).run (n.state base values) =
        .ok m.awaited.isSome (m.state base values) :=
      accept_ok (fun hk hnil => absurd hnil (htail hk)) (fun hnil => absurd hnil houter) ht
    exact (run_bind_of_ok _ hstep).trans (ih (h.accept hmiddle ht) hlast hrest)

theorem Inside.recorded (h : n.Inside depth call around) (names : List String) :
    (n.recorded names).Inside depth call around :=
  h

/-- A failure in a group is the same on all stacks below it, and whatever is on record. -/
theorem Inside.run_error (h : n.Inside depth call around) (haround : around ≠ [])
    (hdepth : tokens.foldlM depthBehind depth = some last)
    (herror : n.acceptAll functions tokens = .error e) :
    ∃ m : Nesting, ∀ names base values more, ∃ left,
      (Parser.acceptAll functions n.awaited.isSome (tokens ++ more)).run
        ((n.recorded names).state base values) = .error e left ∧ left.variables = m.vars := by
  obtain ⟨before, t, after, m, rfl, hbefore, ht⟩ := acceptAll_refused herror
  rw [List.foldlM_append] at hdepth
  obtain ⟨middle, hmiddle, hdepth⟩ := Option.bind_eq_some_iff.mp hdepth
  obtain ⟨_, hbehind, _⟩ := Option.bind_eq_some_iff.mp hdepth
  obtain ⟨houter, htail⟩ := (h.acceptAll hmiddle hbefore).outside haround hbehind
  refine ⟨m, fun names base values more => ?_⟩
  have hfails : FailsWith (Parser.accept functions m.awaited.isSome t)
      ((m.recorded names).state base values) e :=
    accept_error (n := m.recorded names) (fun hk hnil => absurd hnil (htail hk))
      (fun hnil => absurd hnil houter) (recorded_error names ht)
  obtain ⟨left, hleft, hvariables, _⟩ := hfails.bind
    (fun awaits => Parser.acceptAll functions awaits (after ++ more))
  refine ⟨left, ?_, hvariables⟩
  rw [List.append_assoc]
  exact ((h.recorded names).run_ok haround hmiddle (recorded_ok names hbefore)
    (t :: after ++ more)).trans hleft

end Nesting

/-- Puts what a group with these entries comes to on the stacks in front of which it stands. -/
def putGroup (entries : List Tree) : ParserM Unit := do
  match (← get).markers with
  | .call _ function :: outer =>
    setMarkers outer
    pushValue (← MonadExcept.ofExcept (function.apply entries))
  | _ => pushValue (Tree.ofGroup entries)

theorem call_or_none (markers : List Marker) :
    (∃ key f outer, markers = .call key f :: outer) ∨ ∀ key f, .call key f ∉ markers.head? := by
  by_cases h : ∃ key f outer, markers = .call key f :: outer
  · exact .inl h
  · refine .inr (fun key f hhead => ?_)
    obtain ⟨outer, houter⟩ := List.head?_eq_some_iff.mp hhead
    exact h ⟨key, f, outer, houter⟩

theorem putGroup_call {entries : List Tree} {key : String} {f : Function} {outer : List Marker}
    {values : List (Option Tree)} {vars : Variables} {created : List String} :
    (putGroup entries).run ⟨.call key f :: outer, values, vars, created⟩ =
      match f.apply entries with
      | .ok tree => .ok () ⟨outer, some tree :: values, vars, created⟩
      | .error e => .error e ⟨outer, values, vars, created⟩ := by
  cases h : f.apply entries with
  | ok tree =>
    simp only [putGroup, EStateM.run_bind, EStateM.run_get, h]
    rfl
  | error e =>
    simp only [putGroup, EStateM.run_bind, EStateM.run_get, h]
    rfl

theorem putGroup_none {entries : List Tree} {markers : List Marker} {values : List (Option Tree)}
    {vars : Variables} {created : List String} (h : ∀ key f, .call key f ∉ markers.head?) :
    (putGroup entries).run ⟨markers, values, vars, created⟩ =
      .ok () ⟨markers, some (Tree.ofGroup entries) :: values, vars, created⟩ := by
  simp only [putGroup, EStateM.run_bind, EStateM.run_get]
  split
  next key f outer => exact absurd rfl (h key f)
  next => rfl

/-- Reads tokens as the entries of a group that does not end yet, and takes these. -/
def readEntries (functions : Functions) (tokens : List Token) : ParserM (List Tree) := do
  acceptAll functions false (Token.opening :: tokens ++ [Token.comma])
  popEntries

section Groups

variable {functions : Functions} {n : Nesting} {tokens : List Token} {around : List Level}
  {base : List Marker} {values : List (Option Tree)} {entries : List Tree}

theorem acceptAll_closing (more : List Token) :
    acceptAll functions false (Token.closing :: more) = (do
      endGroup
      acceptAll functions false more) := by
  simp [acceptAll, accept, Token.closing]

/-- A group ends on the stacks below it. A call that is the last marker there takes the entries. -/
theorem closing_ok (hcall : n.current.call = none) (houter : n.outer = [.empty none])
    (hends : n.Ends entries) :
    endGroup.run (n.state base values) =
      (putGroup entries).run ⟨base, values, n.vars, n.created⟩ := by
  obtain ⟨awaited, ⟨call, operators, trees⟩, outer, vars, created⟩ := n
  obtain ⟨hawaited, hreduced⟩ := hends
  cases hawaited
  cases hcall
  cases houter
  rcases call_or_none base with ⟨key, f, rest, rfl⟩ | hnone
  · -- The same stacks are those of a group that belongs to the call.
    have hstate : Nesting.state ⟨none, ⟨none, operators, trees⟩, [.empty none], vars, created⟩
        (.call key f :: rest) values =
        Nesting.state ⟨none, ⟨some (key, f), operators, trees⟩, [.empty none], vars, created⟩
          rest values := rfl
    rw [hstate, endGroup_run (by simp) hreduced, putGroup_call]
    simp only [Level.result, List.reverse_reverse]
    cases f.apply entries <;> rfl
  · rw [endGroup_run (fun _ _ => hnone) hreduced, putGroup_none hnone]
    simp only [Level.result, List.reverse_reverse]
    rfl

theorem comma_ok (hcall : n.current.call = none) (houter : n.outer = [.empty none])
    (hends : n.Ends entries) :
    (acceptAll functions n.awaited.isSome [Token.comma]).run (n.state base values) =
      .ok () ⟨.group :: base, entries.reverse.map some ++ none :: values, n.vars, n.created⟩ := by
  obtain ⟨awaited, ⟨call, operators, trees⟩, outer, vars, created⟩ := n
  obtain ⟨hawaited, hreduced⟩ := hends
  cases hawaited
  cases hcall
  cases houter
  have hcomma : acceptAll functions false [Token.comma] =
      (do Parser.endEntry (← get).markers) := by
    simp [acceptAll, accept, Token.comma]
  rw [Option.isSome_none, hcomma]
  exact (run_reduceAll endEntry_goesOn hreduced).trans rfl

theorem closing_error {e : ParseError} (hcall : n.current.call = none)
    (houter : n.outer = [.empty none]) (h : n.accept functions Token.closing = .error e) :
    FailsWith (accept functions n.awaited.isSome Token.closing) (n.state base values) e := by
  cases Nesting.refuses_of_error h with
  | call hn =>
    rw [hn]
    obtain ⟨awaited, current, outer, vars, created⟩ := n
    cases hn
    exact ⟨_, rfl, rfl, rfl⟩
  | entry hk hn hreduce =>
    obtain ⟨awaited, current, outer, vars, created⟩ := n
    cases hn
    cases houter
    have hvalues : ∀ value ∈ (valuesBelow values [.empty none]).head?, value = none :=
      valuesBelow_head (by simp)
    exact accept_fails hk rfl (failsWith_of_reduceAll endEntry_goesOn hvalues hreduce)
  | unmatched _ _ hnil => simp [houter] at hnil
  | result _ _ _ _ hresult => simp [Level.result, hcall] at hresult
  | number hk | unknown hk | operator hk => cases hk

/-- A group that opens is read like the group of a new parser over the same variables. -/
theorem acceptAll_opening (functions : Functions) (s : ParserState) (awaits : Bool)
    (more : List Token) :
    (acceptAll functions awaits (Token.opening :: more)).run s =
      (acceptAll functions false more).run (((Nesting.start s.variables []).openGroup.recorded
        s.created).state s.markers s.values) := by
  obtain ⟨markers, values, vars, created⟩ := s
  simp only [Nesting.recorded, Nesting.openGroup, Nesting.start, List.append_nil]
  cases awaits <;> rfl

/-- Once a group is open its tokens leave the same nesting on all stacks. -/
theorem acceptAll_openGroup {s : ParserState} (hbalanced : Balanced tokens)
    (hread : (Nesting.start s.variables []).openGroup.acceptAll functions tokens = .ok n)
    (awaits : Bool) (more : List Token) :
    (acceptAll functions awaits (Token.opening :: tokens ++ more)).run s =
      (acceptAll functions n.awaited.isSome more).run
        ((n.recorded s.created).state s.markers s.values) := by
  have hinside := Nesting.inside_openGroup (Nesting.start s.variables [])
  rw [List.cons_append, acceptAll_opening]
  exact (hinside.recorded s.created).run_ok (List.cons_ne_nil _ _) hbalanced
    (Nesting.recorded_ok s.created hread) more

/-- A group fails alike in all parsers over the same variables, or comes to the same entries. -/
theorem group_run (functions : Functions) (vars : Variables) (hbalanced : Balanced tokens) :
    (∃ e last, ∀ (s : ParserState) (awaits : Bool) (more : List Token), s.variables = vars →
      ∃ left, (acceptAll functions awaits (Token.opening :: tokens ++ Token.closing :: more)).run s =
        .error e left ∧ left.variables = last) ∨
    ∃ entries last names,
      (readEntries functions tokens).run (.start vars) = .ok entries ⟨[.group], [], last, names⟩ ∧
      ∀ (s : ParserState) (awaits : Bool) (more : List Token), s.variables = vars →
        (acceptAll functions awaits (Token.opening :: tokens ++ Token.closing :: more)).run s =
          (putGroup entries >>= fun _ => acceptAll functions false more).run
            ⟨s.markers, s.values, last, s.created ++ names⟩ := by
  cases hread : (Nesting.start vars []).openGroup.acceptAll functions tokens with
  | error e =>
    have hinside := Nesting.inside_openGroup (Nesting.start vars [])
    obtain ⟨m, hm⟩ := hinside.run_error (List.cons_ne_nil _ _) hbalanced hread
    refine .inl ⟨e, m.vars, ?_⟩
    rintro s awaits more rfl
    rw [List.cons_append, acceptAll_opening]
    exact hm s.created s.markers s.values _
  | ok m =>
    obtain ⟨hcall, houter⟩ := acceptAll_balanced hbalanced hread
    cases hlast : m.accept functions Token.closing with
    | error e =>
      refine .inl ⟨e, m.vars, ?_⟩
      rintro s awaits more rfl
      have hfails : FailsWith (accept functions m.awaited.isSome Token.closing)
          ((m.recorded s.created).state s.markers s.values) e :=
        closing_error (n := m.recorded s.created) hcall houter
          (Nesting.recorded_error s.created hlast)
      obtain ⟨left, hleft, hvariables, _⟩ :=
        hfails.bind (fun awaits => acceptAll functions awaits more)
      exact ⟨left, (acceptAll_openGroup hbalanced hread awaits _).trans hleft, hvariables⟩
    | ok next =>
      obtain ⟨made, _, _, _, hawaited, _, hmade, _, _⟩ := Nesting.closing_of_ok hlast
      have hends : m.Ends made.reverse := ⟨hawaited, by simpa using hmade⟩
      refine .inr ⟨made.reverse, m.vars, m.created, ?_, ?_⟩
      · refine (run_bind_of_ok _ (a := ()) ?_).trans
          (popEntries_run made [] [Marker.group] m.vars m.created)
        refine (acceptAll_openGroup (s := .start vars) hbalanced hread false [Token.comma]).trans ?_
        refine (comma_ok (n := m.recorded []) hcall houter ⟨hends.awaited, hends.reduced⟩).trans ?_
        rw [List.reverse_reverse]
        rfl
      · rintro s awaits more rfl
        rw [acceptAll_openGroup hbalanced hread, hawaited, Option.isSome_none, acceptAll_closing,
          EStateM.run_bind, EStateM.run_bind,
          closing_ok (n := m.recorded s.created) hcall houter ⟨hends.awaited, hends.reduced⟩]
        rfl

theorem parse_of_error {s left : ParserState} {e : ParseError}
    (h : (acceptAll functions false (Token.opening :: tokens ++ [Token.closing])).run s =
      .error e left) : (parse functions tokens).run s = .error e left :=
  run_bind_of_error _ h

theorem parse_of_tree {s : ParserState} {tree : Tree} {last : Variables} {names : List String}
    (h : (acceptAll functions false (Token.opening :: tokens ++ [Token.closing])).run s =
      .ok () ⟨[], [some tree], last, names⟩) :
    (parse functions tokens).run s = .ok tree ⟨[], [some tree], last, names⟩ :=
  (run_bind_of_ok _ h).trans rfl

/-- How a group around tokens goes with a parser, against what a new parser over the same variables
makes of the tokens. -/
inductive GroupRun (functions : Functions) (tokens : List Token) (s : ParserState) :
    EStateM.Result ParseError ParserState Unit → Prop
  | error {e : ParseError} {alone left : ParserState} :
      (parse functions tokens).run (.start s.variables) = .error e alone →
      left.variables = alone.variables → GroupRun functions tokens s (.error e left)
  | tree {tree : Tree} {alone : ParserState} :
      (parse functions tokens).run (.start s.variables) = .ok tree alone →
      (∀ key f, .call key f ∉ s.markers.head?) →
      GroupRun functions tokens s (.ok () ⟨s.markers, some tree :: s.values, alone.variables,
        s.created ++ alone.created⟩)
  | call {entries : List Tree} {alone held : ParserState} {key : String} {f : Function}
      {outer : List Marker} :
      (parse functions tokens).run (.start s.variables) = .ok (Tree.ofGroup entries) alone →
      (readEntries functions tokens).run (.start s.variables) = .ok entries held →
      s.markers = .call key f :: outer → f.takes entries.length = true →
      GroupRun functions tokens s (.ok () ⟨outer, some (.call f entries) :: s.values,
        alone.variables, s.created ++ alone.created⟩)
  | wrongCount {entries : List Tree} {alone held : ParserState} {key : String} {f : Function}
      {outer : List Marker} :
      (parse functions tokens).run (.start s.variables) = .ok (Tree.ofGroup entries) alone →
      (readEntries functions tokens).run (.start s.variables) = .ok entries held →
      s.markers = .call key f :: outer → f.takes entries.length = false →
      GroupRun functions tokens s (.error (.wrongCount f entries.length) ⟨outer, s.values,
        alone.variables, s.created ++ alone.created⟩)

theorem putGroup_run (s : ParserState) (last : Variables) (names : List String)
    (hparse : (parse functions tokens).run (.start s.variables) =
      .ok (Tree.ofGroup entries) ⟨[], [some (Tree.ofGroup entries)], last, names⟩)
    (hentries : (readEntries functions tokens).run (.start s.variables) =
      .ok entries ⟨[.group], [], last, names⟩) :
    GroupRun functions tokens s
      ((putGroup entries).run ⟨s.markers, s.values, last, s.created ++ names⟩) := by
  rcases call_or_none s.markers with ⟨key, f, outer, hmarkers⟩ | hnone
  · rw [hmarkers, putGroup_call, Function.apply]
    cases htakes : f.takes entries.length with
    | true => exact .call hparse hentries hmarkers htakes
    | false => exact .wrongCount hparse hentries hmarkers htakes
  · rw [putGroup_none hnone]
    exact .tree hparse hnone

theorem acceptAll_groupRun (functions : Functions) (hbalanced : Balanced tokens) (s : ParserState)
    (awaits : Bool) :
    GroupRun functions tokens s
      ((acceptAll functions awaits (Token.opening :: tokens ++ [Token.closing])).run s) := by
  rcases group_run functions s.variables hbalanced with
    ⟨e, last, hfails⟩ | ⟨entries, last, names, hentries, hruns⟩
  · obtain ⟨left, hleft, hvariables⟩ := hfails s awaits [] rfl
    obtain ⟨alone, halone, hlast⟩ := hfails (.start s.variables) false [] rfl
    rw [hleft]
    exact .error (parse_of_error halone) (hvariables.trans hlast.symm)
  · have hrun := hruns s awaits [] rfl
    have hdone : (putGroup entries >>= fun _ => acceptAll functions false []) = putGroup entries :=
      bind_pure_unit
    rw [hdone] at hrun
    rw [hrun]
    have halone := (hruns (.start s.variables) false [] rfl).trans rfl
    exact putGroup_run s last names (parse_of_tree halone) hentries

end Groups

end Formula.Parser

namespace Formula

open Formula.Parser

variable {functions : Functions} {vars : Variables} {tokens : List Token} {text : String}

theorem parseTokens_parenthesised (hbalanced : Balanced tokens) :
    ((ParserState.start vars).parseTokens functions
        (Token.opening :: tokens ++ [Token.closing])).outcome =
      ((ParserState.start vars).parseTokens functions tokens).outcome := by
  -- The group that stands around every formula is open when the written one begins.
  have hopening : (Parser.acceptAll functions false (Token.opening ::
      (Token.opening :: tokens ++ [Token.closing]) ++ [Token.closing])).run (.start vars) =
      (Parser.acceptAll functions false (Token.opening :: tokens ++
        Token.closing :: [Token.closing])).run ⟨[.group], [none], vars, []⟩ := by
    simp only [List.cons_append, List.append_assoc, List.nil_append]
    rfl
  rcases group_run functions vars hbalanced with
    ⟨e, last, hfails⟩ | ⟨entries, last, names, _, hruns⟩
  · obtain ⟨left, hleft, _⟩ := hfails ⟨[.group], [none], vars, []⟩ false [Token.closing] rfl
    obtain ⟨alone, halone, _⟩ := hfails (.start vars) false [] rfl
    simp only [ParserState.parseTokens, parse_of_error (hopening.trans hleft),
      parse_of_error halone]
  · have hread : (Parser.acceptAll functions false (Token.opening ::
        (Token.opening :: tokens ++ [Token.closing]) ++ [Token.closing])).run (.start vars) =
        .ok () ⟨[], [some (Tree.ofGroup entries)], last, names⟩ :=
      hopening.trans (hruns ⟨[.group], [none], vars, []⟩ false [Token.closing] rfl)
    have halone : (Parser.acceptAll functions false
        (Token.opening :: tokens ++ [Token.closing])).run (.start vars) =
        .ok () ⟨[], [some (Tree.ofGroup entries)], last, names⟩ :=
      hruns (.start vars) false [] rfl
    simp only [ParserState.parseTokens, parse_of_tree hread, parse_of_tree halone]

/-- Parentheses around a whole text change neither its tree nor the kind of its error. -/
theorem parse_parenthesised (hbalanced : ∀ tokens, tokenize text = .ok tokens → Balanced tokens) :
    (parse functions vars ("(" ++ text ++ ")")).outcome.mapError Failure.kind =
      (parse functions vars text).outcome.mapError Failure.kind := by
  cases htokens : tokenize text with
  | ok tokens =>
    rw [parse_of_tokenize (tokenize_parenthesised htokens), parse_of_tokenize htokens,
      parseTokens_parenthesised (hbalanced tokens htokens)]
  | error error =>
    obtain ⟨later, hlater, hkind⟩ := tokenize_parenthesised_error htokens
    simp only [parse, ParserState.parseText, htokens, hlater, Except.mapError, Failure.kind, hkind]

/-- A group does in any state of a parser what its tokens do alone: it fails for the same reason, or
one tree comes to the values, unless a call is waiting for the entries. So a text may be put in
parentheses. -/
theorem parse_group (functions : Functions) :
    (∀ (tokens : List Token) (s : ParserState) (awaits : Bool), Balanced tokens →
      GroupRun functions tokens s
        ((Parser.acceptAll functions awaits
          (Token.opening :: tokens ++ [Token.closing])).run s)) ∧
    ∀ (vars : Variables) (text : String), (∀ tokens, tokenize text = .ok tokens → Balanced tokens) →
      (parse functions vars ("(" ++ text ++ ")")).outcome.mapError Failure.kind =
        (parse functions vars text).outcome.mapError Failure.kind :=
  ⟨fun _ s awaits hbalanced => acceptAll_groupRun functions hbalanced s awaits,
    fun _ _ hbalanced => parse_parenthesised hbalanced⟩

/-- Behind the name of a function, and as a text. -/
theorem parse_group_call :
    Balanced [⟨.identifier, "x"⟩, .comma, ⟨.identifier, "y"⟩] ∧
    GroupRun .empty [⟨.identifier, "x"⟩, .comma, ⟨.identifier, "y"⟩]
      ⟨[.call "f" Function.last, .operator .assign], [some (.const 0)], .empty, []⟩
      ((Parser.acceptAll .empty true
        [.opening, ⟨.identifier, "x"⟩, .comma, ⟨.identifier, "y"⟩, .closing]).run
        ⟨[.call "f" Function.last, .operator .assign], [some (.const 0)], .empty, []⟩) ∧
    tokenize "x" = .ok [⟨.identifier, "x"⟩] ∧
    (parse .empty .empty ("(" ++ "x" ++ ")")).outcome.mapError Failure.kind =
      (parse .empty .empty "x").outcome.mapError Failure.kind := by
  have htokens : tokenize "x" = .ok [⟨.identifier, "x"⟩] :=
    tokenize_identifier ⟨by decide, by simp⟩
  refine ⟨rfl, (parse_group .empty).1 [⟨.identifier, "x"⟩, .comma, ⟨.identifier, "y"⟩] _ _ rfl,
    htokens, (parse_group .empty).2 .empty "x" (fun tokens h => ?_)⟩
  rw [htokens] at h
  cases h
  rfl

end Formula
