import Formula.Proofs.Nesting
import Formula.Proofs.TokenPlaces

namespace Formula.Parser

section Run

variable {α β : Type} {s next : ParserState}

theorem run_bind_of_ok {x : ParserM α} {a : α} (f : α → ParserM β) (h : x.run s = .ok a next) :
    (x >>= f).run s = (f a).run next := by
  rw [EStateM.run_bind, h]

theorem run_bind_of_error {x : ParserM α} {e : ParseError} (f : α → ParserM β)
    (h : x.run s = .error e next) : (x >>= f).run s = .error e next := by
  rw [EStateM.run_bind, h]

end Run

def callMarkers : Option (String × Function) → List Marker
  | some (key, function) => [.call key function]
  | none => []

/-- The markers below the operators of a level with this call and these levels around it. -/
def markersBelow (base : List Marker) : Option (String × Function) → List Level → List Marker
  | _, [] => base
  | call, next :: outer =>
    .group :: (callMarkers call ++
      (next.operators.map .operator ++ markersBelow base next.call outer))

/-- The values below those of a level with these levels around it. -/
def valuesBelow (base : List (Option Tree)) : List Level → List (Option Tree)
  | [] => base
  | next :: outer => none :: (next.trees.map some ++ valuesBelow base outer)

/-- The stacks of a nesting on top of others. -/
def Nesting.state (n : Nesting) (base : List Marker) (values : List (Option Tree)) :
    ParserState where
  markers := callMarkers n.awaited ++
    (n.current.operators.map .operator ++ markersBelow base n.current.call n.outer)
  values := n.current.trees.map some ++ valuesBelow values n.outer
  «variables» := n.vars
  created := n.created

/-- A run that fails with an error, before it has made any variable. -/
def FailsWith {α : Type} (x : ParserM α) (s : ParserState) (e : ParseError) : Prop :=
  ∃ left, x.run s = .error e left ∧ left.variables = s.variables ∧ left.created = s.created

theorem FailsWith.bind {α β : Type} {x : ParserM α} {s : ParserState} {e : ParseError}
    (h : FailsWith x s e) (f : α → ParserM β) : FailsWith (x >>= f) s e := by
  obtain ⟨left, hrun, hrest⟩ := h
  exact ⟨left, run_bind_of_error f hrun, hrest⟩

theorem FailsWith.of_run_eq {α : Type} {x y : ParserM α} {s next : ParserState} {e : ParseError}
    (h : x.run s = y.run next) (hvariables : next.variables = s.variables)
    (hcreated : next.created = s.created) (hy : FailsWith y next e) : FailsWith x s e := by
  obtain ⟨left, hrun, hv, hc⟩ := hy
  exact ⟨left, h.trans hrun, hv.trans hvariables, hc.trans hcreated⟩

theorem FailsWith.after {α β : Type} {x : ParserM α} {s next : ParserState} {a : α}
    {f : α → ParserM β} {e : ParseError} (hx : x.run s = .ok a next)
    (hvariables : next.variables = s.variables) (hcreated : next.created = s.created)
    (h : FailsWith (f a) next e) : FailsWith (x >>= f) s e :=
  .of_run_eq (run_bind_of_ok f hx) hvariables hcreated h

section Operators

variable {op : Operator} {outer : List Marker} {trees made : List Tree}
  {below : List (Option Tree)} {s : ParserState}

theorem applyOperator_ok (hs : s.values = trees.map some ++ below)
    (h : op.reduce trees = .ok made) :
    (applyOperator op outer).run s =
      .ok () { s with markers := outer, values := made.map some ++ below } := by
  obtain ⟨markers, values, vars, created⟩ := s
  cases hs
  match op, trees, h with
  | .unary kind, operand :: rest, rfl => rfl
  | .binary kind, right :: left :: rest, rfl => rfl
  | .assign, right :: left :: rest, h =>
    cases left with
    | var target =>
      cases h
      rfl
    | _ => cases h

theorem applyOperator_error {e : ParseError} (hs : s.values = trees.map some ++ below)
    (hbelow : ∀ value ∈ below.head?, value = none) (h : op.reduce trees = .error e) :
    FailsWith (applyOperator op outer) s e := by
  obtain ⟨markers, values, vars, created⟩ := s
  cases hs
  have hbottom : below = [] ∨ ∃ rest, below = none :: rest := by
    cases below with
    | nil => exact .inl rfl
    | cons value rest => exact .inr ⟨rest, by rw [hbelow value rfl]⟩
  match op, trees, h with
  | .unary kind, [], rfl =>
    rcases hbottom with rfl | ⟨rest, rfl⟩ <;> exact ⟨_, rfl, rfl, rfl⟩
  | .binary kind, [], rfl =>
    rcases hbottom with rfl | ⟨_ | ⟨_ | value, rest⟩, rfl⟩ <;> exact ⟨_, rfl, rfl, rfl⟩
  | .binary kind, [operand], rfl =>
    rcases hbottom with rfl | ⟨rest, rfl⟩ <;> exact ⟨_, rfl, rfl, rfl⟩
  | .assign, [], rfl =>
    rcases hbottom with rfl | ⟨_ | ⟨_ | value, rest⟩, rfl⟩ <;> exact ⟨_, rfl, rfl, rfl⟩
  | .assign, [operand], rfl =>
    rcases hbottom with rfl | ⟨rest, rfl⟩ <;> exact ⟨_, rfl, rfl, rfl⟩
  | .assign, right :: left :: rest, h =>
    cases left <;> cases h <;> exact ⟨_, rfl, rfl, rfl⟩

/-- What applies the operators in front of the other markers, as long as it goes on. -/
theorem run_reduceAll {f : List Marker → ParserM Unit} {operators : List Operator}
    {vars : Variables} {created : List String}
    (hf : ∀ op ∈ operators, ∀ outer, f (.operator op :: outer) = (do
      applyOperator op outer
      f outer))
    (h : reduceAll operators trees = .ok made) :
    (f (operators.map .operator ++ outer)).run
        ⟨operators.map .operator ++ outer, trees.map some ++ below, vars, created⟩ =
      (f outer).run ⟨outer, made.map some ++ below, vars, created⟩ := by
  induction operators generalizing trees with
  | nil =>
    cases h
    rfl
  | cons op operators ih =>
    obtain ⟨middle, hop, hrest⟩ := bind_eq_ok h
    rw [List.map_cons, List.cons_append, hf op (by simp),
      run_bind_of_ok _ (applyOperator_ok rfl hop)]
    exact ih (fun other ho => hf other (by simp [ho])) hrest

theorem failsWith_of_reduceAll {f : List Marker → ParserM Unit} {operators : List Operator}
    {vars : Variables} {created : List String} {e : ParseError}
    (hf : ∀ op ∈ operators, ∀ outer, f (.operator op :: outer) = (do
      applyOperator op outer
      f outer))
    (hbelow : ∀ value ∈ below.head?, value = none) (h : reduceAll operators trees = .error e) :
    FailsWith (f (operators.map .operator ++ outer))
      ⟨operators.map .operator ++ outer, trees.map some ++ below, vars, created⟩ e := by
  induction operators generalizing trees with
  | nil => cases h
  | cons op operators ih =>
    rw [List.map_cons, List.cons_append, hf op (by simp)]
    rcases bind_eq_error h with hop | ⟨middle, hop, hrest⟩
    · exact (applyOperator_error rfl hbelow hop).bind _
    · exact .after (applyOperator_ok rfl hop) rfl rfl
        (ih (fun other ho => hf other (by simp [ho])) hrest)

end Operators

theorem valuesBelow_head {values : List (Option Tree)} {outer : List Level}
    (hvalues : outer = [] → ∀ value ∈ values.head?, value = none) :
    ∀ value ∈ (valuesBelow values outer).head?, value = none := by
  cases outer with
  | nil => exact hvalues rfl
  | cons next outer =>
    rintro value ⟨⟩
    rfl

theorem markersBelow_head {base : List Marker} {call : Option (String × Function)}
    {outer : List Level} (hbase : outer = [] → ∀ op, .operator op ∉ base.head?) :
    ∀ op, .operator op ∉ (markersBelow base call outer).head? := by
  cases outer with
  | nil => exact hbase rfl
  | cons next outer => simp [markersBelow]

theorem applyTighter_stops {op : Operator} {operators : List Operator} {below : List Marker}
    (hoperators : ∀ other ∈ operators.head?, op.yieldsTo other = false)
    (hbelow : ∀ other, .operator other ∉ below.head?) :
    applyTighter op (operators.map .operator ++ below) = pure () := by
  cases operators with
  | nil =>
    cases below with
    | nil => rfl
    | cons marker below =>
      cases marker with
      | operator other => simp at hbelow
      | call key function => rfl
      | group => rfl
  | cons other operators =>
    rw [List.map_cons, List.cons_append, applyTighter, if_neg (by simp [hoperators other rfl])]

theorem applyTighter_goesOn {op : Operator} {operators : List Operator} :
    ∀ other ∈ operators.takeWhile op.yieldsTo, ∀ outer,
      applyTighter op (.operator other :: outer) = (do
        applyOperator other outer
        applyTighter op outer) := by
  intro other ho outer
  have hyields : op.yieldsTo other = true := List.mem_takeWhile_imp ho
  rw [applyTighter, if_pos hyields]

theorem dropWhile_yieldsTo_head (op : Operator) (operators : List Operator) :
    ∀ other ∈ (operators.dropWhile op.yieldsTo).head?, op.yieldsTo other = false := by
  intro other ho
  have h := List.head?_dropWhile_not op.yieldsTo operators
  rw [ho] at h
  simpa using h

theorem split_operators (p : Operator → Bool) (operators : List Operator) (outer : List Marker) :
    operators.map .operator ++ outer = (operators.takeWhile p).map .operator ++
      ((operators.dropWhile p).map .operator ++ outer) := by
  rw [← List.append_assoc, ← List.map_append, List.takeWhile_append_dropWhile]

section Tighter

variable {op : Operator} {operators : List Operator} {outer : List Marker} {trees made : List Tree}
  {below : List (Option Tree)} {vars : Variables} {created : List String}

theorem applyTighter_ok (houter : ∀ other, .operator other ∉ outer.head?)
    (h : reduceAll (operators.takeWhile op.yieldsTo) trees = .ok made) :
    (applyTighter op (operators.map .operator ++ outer)).run
        ⟨operators.map .operator ++ outer, trees.map some ++ below, vars, created⟩ =
      .ok () ⟨(operators.dropWhile op.yieldsTo).map .operator ++ outer, made.map some ++ below, vars,
        created⟩ := by
  rw [split_operators op.yieldsTo, run_reduceAll applyTighter_goesOn h,
    applyTighter_stops (dropWhile_yieldsTo_head op operators) houter]
  rfl

theorem applyTighter_error {e : ParseError} (hbelow : ∀ value ∈ below.head?, value = none)
    (h : reduceAll (operators.takeWhile op.yieldsTo) trees = .error e) :
    FailsWith (applyTighter op (operators.map .operator ++ outer))
      ⟨operators.map .operator ++ outer, trees.map some ++ below, vars, created⟩ e := by
  rw [split_operators op.yieldsTo]
  exact failsWith_of_reduceAll applyTighter_goesOn hbelow h

end Tighter

theorem endEntry_goesOn {operators : List Operator} :
    ∀ op ∈ operators, ∀ outer, Parser.endEntry (.operator op :: outer) = (do
      applyOperator op outer
      Parser.endEntry outer) :=
  fun _ _ _ => rfl

theorem applyRest_goesOn {operators : List Operator} :
    ∀ op ∈ operators, ∀ outer, applyRest (.operator op :: outer) = (do
      applyOperator op outer
      applyRest outer) :=
  fun _ _ _ => rfl

theorem popEntries_run (trees : List Tree) (below : List (Option Tree)) (markers : List Marker)
    (vars : Variables) (created : List String) :
    popEntries.run ⟨markers, trees.map some ++ none :: below, vars, created⟩ =
      .ok trees.reverse ⟨markers, below, vars, created⟩ := by
  obtain ⟨htake, hdrop⟩ := span_append (p := Option.isSome) (s := trees.map some) (none :: below)
    (by simp) (by simp)
  have hentries : (trees.map some).filterMap id = trees := by simp [List.filterMap_map]
  have hrun : popEntries.run ⟨markers, trees.map some ++ none :: below, vars, created⟩ =
      .ok (((trees.map some ++ none :: below).takeWhile Option.isSome).filterMap id).reverse
        ⟨markers, ((trees.map some ++ none :: below).dropWhile Option.isSome).drop 1, vars,
          created⟩ :=
    rfl
  rw [hrun, htake, hdrop, hentries]
  rfl

theorem setMarkers_run (markers : List Marker) (s : ParserState) :
    (setMarkers markers).run s = .ok () { s with markers := markers } :=
  rfl

theorem pushValue_run (tree : Tree) (s : ParserState) :
    (pushValue tree).run s = .ok () { s with values := some tree :: s.values } :=
  rfl

end Formula.Parser
