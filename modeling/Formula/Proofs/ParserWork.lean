import Formula.Parser
import Formula.Proofs.StatefulWork
import Mathlib.Data.List.Chain

namespace Formula.Parser

/-- An operator is applied to two values at most: it lacks one of them, or may not assign to the
left one. -/
def OperandError (e : ParseError) : Prop :=
  e.kind = .operandMissing ∨ e.kind = .badAssignment

/-- A tree is the innermost value. -/
def TreeOnTop (s : ParserState) : Prop :=
  ∃ tree rest, s.values = some tree :: rest

section Operators

variable (op : Operator) (outer : List Marker) (s : ParserState)

theorem takeOperands_leads (hs : s.markers = outer) :
    Leads (takeOperands op) s (fun _ next => next.markers = outer)
      (fun e left => left.markers = outer ∧ OperandError e) := by
  obtain ⟨markers, values, vars, created⟩ := s
  cases hs
  cases op with
  | unary kind =>
    rcases values with _ | ⟨_ | operand, rest⟩
    · exact ⟨rfl, .inl rfl⟩
    · exact ⟨rfl, .inl rfl⟩
    · exact rfl
  | binary kind =>
    rcases values with _ | ⟨_ | right, _ | ⟨_ | left, rest⟩⟩
    all_goals first | exact ⟨rfl, .inl rfl⟩ | exact rfl
  | assign =>
    rcases values with _ | ⟨_ | right, _ | ⟨_ | left, rest⟩⟩
    all_goals try exact ⟨rfl, .inl rfl⟩
    cases left with
    | var target => exact rfl
    | _ => exact ⟨rfl, .inr rfl⟩

theorem applyOperator_leads :
    Leads (applyOperator op outer) s (fun _ next => next.markers = outer ∧ TreeOnTop next)
      (fun e left => left.markers = outer ∧ OperandError e) := by
  have hset : Leads (setMarkers outer) s (fun _ next => next.markers = outer)
      (fun e left => left.markers = outer ∧ OperandError e) := rfl
  refine hset.bind fun _ next hmarkers => ?_
  refine (takeOperands_leads op outer next hmarkers).bind fun tree last hlast => ?_
  exact ⟨hlast, tree, last.values, rfl⟩

/-- The operator yields to none that is on top of the markers. -/
def YieldsToNone (markers : List Marker) : Prop :=
  ∀ stacked outer, markers = .operator stacked :: outer → op.yieldsTo stacked = false

/-- Operators are applied from the top of the markers down, up to the first one that stays. -/
theorem applyTighter_leads {markers : List Marker} (hs : s.markers = markers) :
    Leads (applyTighter op markers) s
      (fun _ next => (∃ applied : List Operator, applied.map .operator ++ next.markers = markers) ∧
        YieldsToNone op next.markers)
      (fun e left => left.markers <:+ markers ∧ OperandError e) := by
  induction markers generalizing s with
  | nil => exact ⟨⟨[], hs⟩, by simp [YieldsToNone, hs]⟩
  | cons marker outer ih =>
    cases marker with
    | call key function => exact ⟨⟨[], hs⟩, by simp [YieldsToNone, hs]⟩
    | group => exact ⟨⟨[], hs⟩, by simp [YieldsToNone, hs]⟩
    | operator stacked =>
      rw [applyTighter]
      split
      · refine ((applyOperator_leads stacked outer s).mono (fun _ _ h => h) ?_).bind ?_
        · exact fun e left h => ⟨⟨[.operator stacked], by simp [h.1]⟩, h.2⟩
        · intro _ next hnext
          refine (ih next hnext.1).mono ?_ ?_
          · rintro _ last ⟨⟨applied, happlied⟩, hnone⟩
            exact ⟨⟨stacked :: applied, by simp [happlied]⟩, hnone⟩
          · exact fun e left h => ⟨h.1.trans (List.suffix_cons _ _), h.2⟩
      next hstays => exact ⟨⟨[], hs⟩, by simpa [YieldsToNone, hs] using hstays⟩

theorem applyRest_leads {markers : List Marker} (hs : s.markers = markers)
    (htop : TreeOnTop s) :
    Leads (applyRest markers) s (fun _ next => next.markers = [] ∧ TreeOnTop next)
      (fun e left => left.markers <:+ markers ∧ (OperandError e ∨ e = .unclosed)) := by
  induction markers generalizing s with
  | nil => exact ⟨hs, htop⟩
  | cons marker outer ih =>
    cases marker with
    | call key function => exact ⟨List.suffix_cons _ _, .inr rfl⟩
    | group => exact ⟨List.suffix_cons _ _, .inr rfl⟩
    | operator stacked =>
      refine ((applyOperator_leads stacked outer s).mono (fun _ _ h => h) ?_).bind ?_
      · exact fun e left h => ⟨h.1 ▸ List.suffix_cons _ _, .inl h.2⟩
      · intro _ next hnext
        refine (ih next hnext.1 hnext.2).mono (fun _ _ h => h) ?_
        exact fun e left h => ⟨h.1.trans (List.suffix_cons _ _), h.2⟩

end Operators

def callOnTop : List Marker → Bool
  | .call .. :: _ => true
  | _ => false

/-- A call that waits is on top of the markers or directly below a group. -/
def CallsCovered (markers : List Marker) : Prop :=
  markers.IsChain (fun upper lower => callOnTop [lower] = true → upper = .group)

section Covered

variable {marker : Marker} {outer markers rest : List Marker} {s : ParserState}

theorem callOnTop_cons : callOnTop (marker :: rest) = callOnTop [marker] := by
  cases marker <;> rfl

theorem CallsCovered.tail (h : CallsCovered (marker :: outer)) : CallsCovered outer :=
  List.IsChain.tail h

theorem CallsCovered.suffix (h : CallsCovered markers) (hrest : rest <:+ markers) :
    CallsCovered rest :=
  List.IsChain.suffix h hrest

theorem CallsCovered.below (h : CallsCovered (marker :: outer)) (hmarker : marker ≠ .group) :
    callOnTop outer = false := by
  cases outer with
  | nil => rfl
  | cons lower outer =>
    rw [callOnTop_cons]
    exact Bool.eq_false_iff.mpr fun hcall => hmarker ((List.isChain_cons_cons.mp h).1 hcall)

theorem CallsCovered.group (h : CallsCovered markers) : CallsCovered (.group :: markers) :=
  List.isChain_cons.mpr ⟨fun _ _ _ => rfl, h⟩

/-- What is pushed onto markers with no call on top covers none. -/
theorem CallsCovered.push (h : CallsCovered markers) (htop : callOnTop markers = false) :
    CallsCovered (marker :: markers) := by
  refine List.isChain_cons.mpr ⟨fun lower hlower hcall => ?_, h⟩
  obtain ⟨rest, rfl⟩ := List.head?_eq_some_iff.mp hlower
  rw [callOnTop_cons, hcall] at htop
  cases htop

/-- What is left when operators are taken off the top has no call on top. -/
theorem CallsCovered.below_operators {applied : List Operator}
    (h : CallsCovered (applied.map .operator ++ rest))
    (htop : callOnTop (applied.map .operator ++ rest) = false) : callOnTop rest = false := by
  induction applied with
  | nil => exact htop
  | cons op applied ih => exact ih h.tail (h.below (by simp))

theorem endEntry_leads (hs : s.markers = markers) (h : CallsCovered markers)
    (htop : callOnTop markers = false) :
    Leads (Parser.endEntry markers) s
      (fun _ next => next.markers <:+ markers ∧ ∃ rest, next.markers = .group :: rest)
      (fun e left => left.markers <:+ markers ∧ (OperandError e ∨ e = .unmatched)) := by
  induction markers generalizing s with
  | nil => exact ⟨hs ▸ List.suffix_refl _, .inr rfl⟩
  | cons marker outer ih =>
    cases marker with
    | call key function => cases htop
    | group => exact ⟨hs ▸ List.suffix_refl _, outer, hs⟩
    | operator op =>
      refine ((applyOperator_leads op outer s).mono (fun _ _ h => h) ?_).bind ?_
      · exact fun e left h => ⟨h.1 ▸ List.suffix_cons _ _, .inl h.2⟩
      · intro _ next hnext
        refine (ih hnext.1 h.tail (h.below (by simp))).mono ?_ ?_
        · exact fun _ _ h => ⟨h.1.trans (List.suffix_cons _ _), h.2⟩
        · exact fun e left h => ⟨h.1.trans (List.suffix_cons _ _), h.2⟩

end Covered

end Formula.Parser
