import Formula.Proofs.Expressions
import Formula.Proofs.OperatorSpelling

namespace Formula

namespace Operator

/-- The operator in front keeps waiting when one with at most this precedence comes. -/
def Keeps (level : Nat) (operators : List Operator) : Prop :=
  ∀ stacked ∈ operators.head?, ∀ op : Operator, op.precedence ≤ level → op.yieldsTo stacked = false

variable {op : Operator} {level : Nat} {operators : List Operator}

theorem Keeps.mono {lower : Nat} (h : Keeps level operators) (hlower : lower ≤ level) :
    Keeps lower operators :=
  fun stacked hs op hop => h stacked hs op (by omega)

theorem le_of_parenthesizesLeft (h : op.parenthesizesLeft level = false) :
    level ≤ op.precedence := by
  simp only [parenthesizesLeft, Bool.or_eq_false_iff, decide_eq_false_iff_not] at h
  omega

theorem le_of_parenthesizesRight (h : op.parenthesizesRight level = false) :
    level ≤ op.precedence := by
  simp only [parenthesizesRight, Bool.or_eq_false_iff, decide_eq_false_iff_not] at h
  omega

/-- What waits of a left operand without parentheses is put in place before the operator. -/
theorem yieldsTo_of_parenthesizesLeft {stacked : Operator}
    (h : op.parenthesizesLeft level = false) (hstacked : stacked.precedence ≤ level) :
    op.yieldsTo stacked = true := by
  have hle := le_of_parenthesizesLeft h
  simp only [parenthesizesLeft, Bool.or_eq_false_iff, Bool.and_eq_false_iff, beq_eq_false_iff_ne] at h
  simp only [yieldsTo, Bool.or_eq_true, decide_eq_true_eq, Bool.and_eq_true, beq_iff_eq,
    Bool.not_eq_true']
  by_cases heq : stacked.precedence = op.precedence
  · have hlevel : op.precedence = level := by omega
    exact .inr ⟨heq, h.2.resolve_left (fun hne => hne hlevel)⟩
  · exact .inl (by omega)

/-- The operator waits for a right operand without parentheses. -/
theorem keeps_of_parenthesizesRight (h : op.parenthesizesRight level = false) :
    Keeps level (op :: operators) := by
  have hle := le_of_parenthesizesRight h
  rintro stacked ⟨⟩ other hother
  simp only [parenthesizesRight, Bool.or_eq_false_iff, Bool.and_eq_false_iff,
    beq_eq_false_iff_ne, Bool.not_eq_false'] at h
  simp only [yieldsTo, Bool.or_eq_false_iff, decide_eq_false_iff_not, Bool.and_eq_false_iff,
    beq_eq_false_iff_ne, Bool.not_eq_false']
  refine ⟨by omega, ?_⟩
  by_cases heq : op.precedence = other.precedence
  · have hlevel : op.precedence = level := by omega
    have hright := h.2.resolve_left (fun hne => hne hlevel)
    exact .inr (isRightAssociative_of_precedence heq ▸ hright)
  · exact .inl heq

end Operator

end Formula
