import Formula.Proofs.LeftoverValues

namespace Formula

namespace Operator

variable {upper lower lowest : Operator} {stretch : List Operator}

/-- The lower operator binds less tightly, or just as tightly where the upper one binds to the
right. -/
def WaitsOn (upper lower : Operator) : Prop :=
  upper.precedence < lower.precedence ∨
    upper.precedence = lower.precedence ∧ (upper.isUnary = true ∨ upper = .assign)

/-- Operators with nothing else between them, the one on top first. -/
structure Ordered (stretch : List Operator) : Prop where
  waits : stretch.IsChain fun upper lower => upper.yieldsTo lower = false ∧ upper.WaitsOn lower
  single : ∀ level, (stretch.filter fun op =>
    !op.isRightAssociative && op.precedence == level).length ≤ 1
  unaryOnTop : ∃ unary others, stretch = unary ++ others ∧ (∀ op ∈ unary, op.isUnary = true) ∧
    ∀ op ∈ others, op.isUnary = false

theorem isRightAssociative_iff : upper.isRightAssociative = true ↔
    upper.isUnary = true ∨ upper = .assign := by
  cases upper <;> simp [isRightAssociative, isUnary]

theorem yieldsTo_eq_false_iff : upper.yieldsTo lower = false ↔ upper.WaitsOn lower := by
  simp only [yieldsTo, Bool.or_eq_false_iff, decide_eq_false_iff_not, Bool.and_eq_false_iff,
    beq_eq_false_iff_ne, Bool.not_eq_false', isRightAssociative_iff, WaitsOn]
  constructor
  · rintro ⟨hle, hne | hright⟩
    · exact .inl (by omega)
    · by_cases hlt : upper.precedence < lower.precedence
      · exact .inl hlt
      · exact .inr ⟨by omega, hright⟩
  · rintro (hlt | ⟨heq, hright⟩)
    · exact ⟨by omega, .inl (by omega)⟩
    · exact ⟨by omega, .inr hright⟩

theorem WaitsOn.precedence_le (h : upper.WaitsOn lower) : upper.precedence ≤ lower.precedence :=
  h.elim Nat.le_of_lt fun h => Nat.le_of_eq h.1

theorem WaitsOn.trans (h : upper.WaitsOn lower) (hlower : lower.WaitsOn lowest) :
    upper.WaitsOn lowest := by
  rcases h with hlt | ⟨heq, hright⟩
  · have hle := hlower.precedence_le
    exact .inl (by omega)
  · rcases hlower with hlt | ⟨heqLower, -⟩
    · exact .inl (by omega)
    · exact .inr ⟨by omega, hright⟩

instance : Trans WaitsOn WaitsOn WaitsOn :=
  ⟨WaitsOn.trans⟩

theorem isUnary_iff : upper.isUnary = true ↔ upper.precedence ≤ 1 := by
  have alike : ∀ op ∈ all, op.isUnary = true ↔ op.precedence ≤ 1 := by decide
  exact alike upper (mem_all upper)

theorem length_le_one_of_pairwise {α : Type} {R : α → α → Prop} {l : List α} (h : l.Pairwise R)
    (hnone : ∀ a ∈ l, ∀ b ∈ l, ¬ R a b) : l.length ≤ 1 := by
  match l with
  | [] | [_] => simp
  | a :: b :: rest =>
    have hab : R a b := (List.pairwise_cons.mp h).1 b (by simp)
    exact absurd hab (hnone a (by simp) b (by simp))

/-- Of two operators that bind to the left the upper one is the tighter one. -/
theorem single_of_pairwise (h : stretch.Pairwise WaitsOn) (level : Nat) :
    (stretch.filter fun op => !op.isRightAssociative && op.precedence == level).length ≤ 1 := by
  refine length_le_one_of_pairwise (h.sublist List.filter_sublist) ?_
  intro upper hupper lower hlower hwaits
  simp only [List.mem_filter, Bool.and_eq_true, Bool.not_eq_true', beq_iff_eq] at hupper hlower
  obtain ⟨-, hleft, hlevel⟩ := hupper
  rcases hwaits with hlt | ⟨-, hright⟩
  · omega
  · rw [isRightAssociative_iff.mpr hright] at hleft
    cases hleft

/-- Nothing that is not unary is on top of a unary operator. -/
theorem unaryOnTop_of_pairwise (h : stretch.Pairwise WaitsOn) :
    ∃ unary others, stretch = unary ++ others ∧ (∀ op ∈ unary, op.isUnary = true) ∧
      ∀ op ∈ others, op.isUnary = false := by
  refine ⟨stretch.takeWhile isUnary, stretch.dropWhile isUnary,
    List.takeWhile_append_dropWhile.symm, fun op hop => List.mem_takeWhile_imp hop, ?_⟩
  have hbelow := h.sublist (List.dropWhile_sublist isUnary)
  have hhead := List.head?_dropWhile_not isUnary stretch
  cases hothers : stretch.dropWhile isUnary with
  | nil => simp
  | cons first rest =>
    rw [hothers] at hbelow hhead
    have hfirst : first.isUnary = false := by simpa using hhead
    refine List.forall_mem_cons.mpr ⟨hfirst, fun op hop => Bool.eq_false_iff.mpr fun hunary => ?_⟩
    have hle := ((List.pairwise_cons.mp hbelow).1 op hop).precedence_le
    have hone := isUnary_iff.mp hunary
    rw [isUnary_iff.mpr (by omega)] at hfirst
    cases hfirst

theorem ordered_of_isChain
    (h : stretch.IsChain fun upper lower => upper.yieldsTo lower = false) : Ordered stretch := by
  have hwaits : stretch.IsChain WaitsOn := h.imp fun _ _ => yieldsTo_eq_false_iff.mp
  have hpairwise := List.isChain_iff_pairwise.mp hwaits
  refine ⟨h.imp fun _ _ hkeeps => ⟨hkeeps, yieldsTo_eq_false_iff.mp hkeeps⟩,
    single_of_pairwise hpairwise, unaryOnTop_of_pairwise hpairwise⟩

end Operator

open Formula.Parser

namespace Parser

/-- Of two markers that are operators, the upper one does not yield to the lower one. -/
def StaysOn : Marker → Marker → Prop
  | .operator upper, .operator lower => upper.yieldsTo lower = false
  | _, _ => True

/-- No operator yields to one directly below. -/
def OperatorsWait (markers : List Marker) : Prop :=
  markers.IsChain StaysOn

section Markers

variable {markers outer : List Marker} {marker : Marker} {op : Operator}

theorem OperatorsWait.suffix (h : OperatorsWait markers) (houter : outer <:+ markers) :
    OperatorsWait outer :=
  List.IsChain.suffix h houter

theorem OperatorsWait.push (h : OperatorsWait markers) (hmarker : ∀ op, marker ≠ .operator op) :
    OperatorsWait (marker :: markers) := by
  refine List.isChain_cons.mpr ⟨fun lower _ => ?_, h⟩
  cases marker with
  | operator op => exact absurd rfl (hmarker op)
  | call key function => trivial
  | group => trivial

theorem OperatorsWait.pushOperator (h : OperatorsWait markers) (htop : YieldsToNone op markers) :
    OperatorsWait (.operator op :: markers) := by
  refine List.isChain_cons.mpr ⟨fun lower hlower => ?_, h⟩
  obtain ⟨outer, rfl⟩ := List.head?_eq_some_iff.mp hlower
  cases lower with
  | operator stacked => exact htop stacked outer rfl
  | call key function => trivial
  | group => trivial

theorem OperatorsWait.ordered {above below : List Marker} {stretch : List Operator}
    (h : OperatorsWait (above ++ stretch.map .operator ++ below)) : Operator.Ordered stretch := by
  have hstretch : OperatorsWait (stretch.map .operator) :=
    List.IsChain.infix h ⟨above, below, rfl⟩
  exact Operator.ordered_of_isChain ((List.isChain_map _).mp hstretch)

end Markers

section Steps

variable {functions : Functions} {s : ParserState} {t : Token} {markers : List Marker}

/-- Whatever the markers are, the end of an entry takes some off the top at most. -/
theorem endEntry_takesOff (hs : s.markers = markers) :
    Leads (Parser.endEntry markers) s (fun _ next => next.markers <:+ markers)
      (fun _ left => left.markers <:+ markers) := by
  induction markers generalizing s with
  | nil =>
    have hnone : s.markers <:+ [] := hs ▸ List.suffix_refl _
    exact hnone
  | cons marker outer ih =>
    cases marker with
    | group =>
      have hall : s.markers <:+ .group :: outer := hs ▸ List.suffix_refl _
      exact hall
    | call key function => exact List.suffix_cons _ _
    | operator op =>
      refine ((applyOperator_leads op outer s).mono (fun _ _ h => h) ?_).bind ?_
      · exact fun e left h => h.1 ▸ List.suffix_cons _ _
      · intro _ next hnext
        refine (ih hnext.1).mono ?_ ?_
        · exact fun _ _ h => h.trans (List.suffix_cons _ _)
        · exact fun _ _ h => h.trans (List.suffix_cons _ _)

theorem endGroup_takesOff (s : ParserState) :
    Leads endGroup s (fun _ next => next.markers <:+ s.markers)
      (fun _ left => left.markers <:+ s.markers) := by
  refine (endEntry_takesOff rfl).bind ?_
  rintro _ ⟨markers, values, vars, created⟩ hnext
  match markers with
  | .group :: .call key function :: outer =>
    have houter : outer <:+ s.markers :=
      ((List.suffix_cons _ _).trans (List.suffix_cons _ _)).trans hnext
    refine (pushCall_leads function ⟨outer, values, vars, created⟩).mono ?_ ?_
    · rintro _ next ⟨rfl, -⟩
      exact houter
    · rintro _ left ⟨rfl, -⟩
      exact houter
  | [.group] | .group :: .group :: outer | .group :: .operator op :: outer =>
    exact (List.suffix_cons _ _).trans hnext
  | [] | .call key function :: outer | .operator op :: outer => exact hnext

theorem acceptOperator_operatorsWait (h : OperatorsWait s.markers) (text : String) :
    Leads (acceptOperator text) s (fun _ next => OperatorsWait next.markers)
      (fun _ left => OperatorsWait left.markers) := by
  unfold acceptOperator
  split
  next => exact h
  next op _ =>
    refine ((applyTighter_leads op s rfl).mono (fun _ _ h => h) ?_).bind ?_
    · exact fun e left hleft => h.suffix hleft.1
    · rintro _ next ⟨⟨applied, happlied⟩, hnone⟩
      have hnext : OperatorsWait next.markers := h.suffix ⟨_, happlied⟩
      exact hnext.pushOperator hnone

theorem refuseCall_keeps (got : String) (s : ParserState) :
    Leads (refuseCall got) s (fun _ next => next = s) (fun _ left => left = s) := by
  obtain ⟨markers, values, vars, created⟩ := s
  match markers with
  | .call key function :: outer => rfl
  | [] | .group :: outer | .operator op :: outer => rfl

/-- Taking a token keeps the order, also where the token is refused. -/
theorem accept_operatorsWait {awaits : Bool} (h : OperatorsWait s.markers) :
    Leads (accept functions awaits t) s (fun _ next => OperatorsWait next.markers)
      (fun _ left => OperatorsWait left.markers) := by
  obtain ⟨kind, text⟩ := t
  cases awaits with
  | true =>
    cases kind with
    | opening => exact h.push (by simp)
    | _ => exact (refuseCall_keeps text s).mono (fun _ _ hs => hs ▸ h) (fun _ _ hs => hs ▸ h)
  | false =>
    cases kind with
    | opening => exact h.push (by simp)
    | closing =>
      refine ((endGroup_takesOff s).mono (fun _ _ h => h) ?_).bind ?_
      · exact fun _ left hleft => h.suffix hleft
      · exact fun _ next hnext => h.suffix hnext
    | comma =>
      refine ((endEntry_takesOff rfl).mono (fun _ _ h => h) ?_).bind ?_
      · exact fun _ left hleft => h.suffix hleft
      · exact fun _ next hnext => h.suffix hnext
    | number =>
      simp only [accept, acceptNumber]
      cases Double.read? text with
      | none => exact h
      | some value => exact h
    | identifier =>
      simp only [accept, acceptIdentifier]
      cases functions.find? text with
      | some function => exact h.push (by simp)
      | none => exact h
    | operator => exact (acceptOperator_operatorsWait h text).bind fun _ next hnext => hnext

end Steps

/-- The state in which the work ends or fails. -/
def stateAfter {α : Type} (x : ParserM α) (s : ParserState) : ParserState :=
  match x.run s with
  | .ok _ next => next
  | .error _ left => left

/-- All states that a parser comes to are among these. Inside the work on a token, and where the
tokens have ended, it applies the operator on top of its markers, or has taken off the marker there
and some values. -/
inductive Reached (functions : Functions) : ParserState → Prop
  | start (vars : Variables) : Reached functions (.start vars)
  | accept {s : ParserState} (awaitsGroup : Bool) (t : Token) (h : Reached functions s) :
      Reached functions (stateAfter (Parser.accept functions awaitsGroup t) s)
  | applyOperator {s : ParserState} {op : Operator} {outer : List Marker} (h : Reached functions s)
      (hs : s.markers = .operator op :: outer) :
      Reached functions (stateAfter (Parser.applyOperator op outer) s)
  | takeOff {s : ParserState} {marker : Marker} {outer : List Marker} {values : List (Option Tree)}
      (h : Reached functions s) (hs : s.markers = marker :: outer) (hvalues : values <:+ s.values) :
      Reached functions { s with markers := outer, values := values }

section States

variable {α : Type} {x : ParserM α} {functions : Functions} {s : ParserState}

theorem leads_iff_stateAfter {P : ParserState → Prop} :
    Leads x s (fun _ next => P next) (fun _ left => P left) ↔ P (stateAfter x s) := by
  unfold Leads stateAfter
  cases x.run s <;> rfl

theorem Reached.operatorsWait (h : Reached functions s) : OperatorsWait s.markers := by
  induction h with
  | start vars => exact .nil
  | accept awaitsGroup t _ ih => exact leads_iff_stateAfter.mp (accept_operatorsWait ih)
  | @applyOperator s op outer _ hs ih =>
    rw [hs] at ih
    have houter := ih.suffix (List.suffix_cons _ _)
    refine leads_iff_stateAfter (P := fun last => OperatorsWait last.markers) |>.mp ?_
    refine (applyOperator_leads op outer s).mono ?_ ?_
    · exact fun _ _ hnext => hnext.1 ▸ houter
    · exact fun _ _ hleft => hleft.1 ▸ houter
  | takeOff _ hs _ ih =>
    rw [hs] at ih
    exact ih.suffix (List.suffix_cons _ _)

theorem acceptAll_reached {awaits : Bool} (h : Reached functions s) (tokens : List Token) :
    Leads (acceptAll functions awaits tokens) s (fun _ next => Reached functions next)
      (fun _ left => Reached functions left) := by
  induction tokens generalizing s awaits with
  | nil => exact h
  | cons t tokens ih =>
    exact (leads_iff_stateAfter.mpr (h.accept awaits t)).bind fun _ next hnext => ih hnext

theorem applyRest_reached {markers : List Marker} (h : Reached functions s)
    (hs : s.markers = markers) :
    Leads (applyRest markers) s (fun _ next => Reached functions next)
      (fun _ left => Reached functions left) := by
  induction markers generalizing s with
  | nil => exact h
  | cons marker outer ih =>
    cases marker with
    | call key function => exact h.takeOff hs (List.suffix_refl _)
    | group => exact h.takeOff hs (List.suffix_refl _)
    | operator op =>
      have happlied := leads_iff_stateAfter.mpr (h.applyOperator hs)
      refine ((happlied.and (applyOperator_leads op outer s)).mono (fun _ _ h => h) ?_).bind ?_
      · exact fun _ _ hleft => hleft.1
      · exact fun _ next hnext => ih hnext.1 hnext.2.1

theorem result_keeps (s : ParserState) :
    Leads result s (fun _ next => next = s) (fun _ left => left = s) := by
  obtain ⟨markers, values, vars, created⟩ := s
  match values with
  | some tree :: rest | none :: rest | [] => rfl

theorem parse_reached (h : Reached functions s) (tokens : List Token) :
    Leads (parse functions tokens) s (fun _ next => Reached functions next)
      (fun _ left => Reached functions left) := by
  refine (acceptAll_reached h (Token.opening :: tokens ++ [Token.closing])).bind ?_
  intro _ next hnext
  refine (applyRest_reached hnext rfl).bind (f := fun _ => result) fun _ last hlast => ?_
  exact (result_keeps last).mono (fun _ _ hs => hs ▸ hlast) (fun _ _ hs => hs ▸ hlast)

theorem parseTokens_reached (h : Reached functions s) (tokens : List Token) :
    Reached functions (s.parseTokens functions tokens).parser := by
  have hparse := leads_iff_stateAfter.mp (parse_reached h tokens)
  unfold stateAfter at hparse
  unfold ParserState.parseTokens
  cases hrun : (Parser.parse functions tokens).run s with
  | ok tree next =>
    rw [hrun] at hparse
    exact hparse
  | error e left =>
    rw [hrun] at hparse
    exact hparse

theorem afterEach_reached (h : Reached functions s) (inputs : List (List Token)) :
    Reached functions (s.afterEach functions inputs) := by
  induction inputs generalizing s with
  | nil => exact h
  | cons tokens rest ih => exact ih (parseTokens_reached h tokens)

end States

end Parser

/-- Whatever a parser has been given before, and however far it is in what it is given now: of the
operators between two other markers none yields to the one below it. -/
theorem operators_wait_in_order (functions : Functions) :
    (∀ (vars : Variables) (inputs : List (List Token)) (taken : List Token),
      Reached functions (stateAfter (acceptAll functions false taken)
        ((ParserState.start vars).afterEach functions inputs))) ∧
    ∀ s, Reached functions s → ∀ (above below : List Marker) (stretch : List Operator),
      s.markers = above ++ stretch.map .operator ++ below → Operator.Ordered stretch := by
  constructor
  · intro vars inputs taken
    have hbefore : Reached functions _ := afterEach_reached (.start vars) inputs
    exact leads_iff_stateAfter.mp (acceptAll_reached hbefore taken)
  · intro s h above below stretch hmarkers
    have hwait := h.operatorsWait
    rw [hmarkers] at hwait
    exact hwait.ordered

/-- A call without its group is refused on top of four operators that are waiting. -/
theorem operators_wait_in_order_refused :
    let functions : Functions := ⟨[("f", Function.last)]⟩
    let refused : List Token := [⟨.identifier, "a"⟩, .ofOperator .assign, ⟨.identifier, "b"⟩,
      .ofOperator (.binary .add), .ofOperator (.unary .negate), .ofOperator (.unary .logicalNot),
      ⟨.identifier, "f"⟩, .comma]
    let s := (ParserState.start .empty).afterEach functions [refused]
    let stretch : List Operator :=
      [.unary .logicalNot, .unary .negate, .binary .add, .assign]
    Reached functions s ∧
    s.markers = [.call "f" Function.last] ++ stretch.map .operator ++ [.group] ∧
    Operator.Ordered stretch := by
  intro functions refused s stretch
  have hreached : Reached functions s :=
    (operators_wait_in_order functions).1 .empty [refused] []
  have hmarkers : s.markers = [.call "f" Function.last] ++ stretch.map .operator ++ [.group] := by
    rfl
  exact ⟨hreached, hmarkers,
    (operators_wait_in_order functions).2 s hreached _ _ _ hmarkers⟩

end Formula
