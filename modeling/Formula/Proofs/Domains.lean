import Formula.Builtin
import Formula.Proofs.DoubleDifference

namespace Formula

/-- Work that has a result. -/
def Succeeds {α : Type} (x : Except Fault α) : Prop :=
  ∃ a, x = .ok a

section Succeeds

variable {α β : Type} {x : Except Fault α} {f : α → Except Fault β}

theorem succeeds_ok (a : α) : Succeeds (.ok a) :=
  ⟨a, rfl⟩

theorem Succeeds.bind (h : Succeeds x) (hnext : ∀ a, x = .ok a → Succeeds (f a)) :
    Succeeds (x >>= f) := by
  obtain ⟨a, rfl⟩ := h
  exact hnext a rfl

end Succeeds

namespace Double

variable {a b x : Float}

theorem quotient_succeeds (hb : (b == 0) = false) : Succeeds (quotient a b) := by
  simp [Succeeds, quotient, hb]

theorem remainder_succeeds (hb : (b == 0) = false) (ha : a.isInf = false) :
    Succeeds (remainder a b) := by
  have hclass := sameClass_ofFloat a
  have hclass' := sameClass_ofFloat b
  rw [remainder]
  split
  next => exact succeeds_ok _
  next => exact succeeds_ok _
  next hinf _ =>
    rw [hinf] at hclass
    exact absurd (ha.symm.trans hclass.isInf_of_infinite) Bool.false_ne_true
  next => exact succeeds_ok _
  next n _ _ hfinite =>
    split
    next hn =>
      subst hn
      rw [hfinite] at hclass'
      exact absurd (hb.symm.trans (beq_zero_iff.mpr hclass'.zero_of_significand))
        Bool.false_ne_true
    next => exact succeeds_ok _

theorem squareRoot_succeeds (h : 0 ≤ x) : Succeeds (squareRoot x) := by
  rw [squareRoot, if_neg (not_lt_zero h)]
  exact succeeds_ok _

theorem truncate_succeeds (h : x.isFinite = true) : Succeeds (truncate x) := by
  obtain ⟨negative, significand, exponent, hx⟩ := (sameClass_ofFloat x).finite_of_isFinite h
  simp only [truncate, hx]
  exact succeeds_ok _

theorem toInt64_succeeds (x : Float) : Succeeds (toInt64 x) := by
  rw [toInt64]
  split
  next hfinite => exact (truncate_succeeds hfinite).bind fun _ _ => succeeds_ok _
  next => exact succeeds_ok _

theorem shiftCount_succeeds (x : Float) : Succeeds (shiftCount x) :=
  (toInt64_succeeds x).bind fun _ _ => succeeds_ok _

theorem shiftCount_nonneg {count : Int} (h : shiftCount x = .ok count) : 0 ≤ count := by
  obtain ⟨n, hn⟩ := toInt64_succeeds x
  rw [shiftCount, hn] at h
  cases h
  exact Int.emod_nonneg n (by decide)

theorem shiftLeft_succeeds (a b : Float) : Succeeds (shiftLeft a b) := by
  refine (shiftCount_succeeds b).bind fun count hcount => ?_
  split
  · exact succeeds_ok _
  · refine (toInt64_succeeds a).bind fun n _ => ?_
    rw [shiftLeftBy, if_neg (Int.not_lt.mpr (shiftCount_nonneg hcount))]
    exact succeeds_ok _

theorem shiftRight_succeeds (a b : Float) : Succeeds (shiftRight a b) := by
  refine (toInt64_succeeds a).bind fun n _ => (shiftCount_succeeds b).bind fun count hcount => ?_
  split
  · exact succeeds_ok _
  · rw [shiftRightBy, if_neg (Int.not_lt.mpr (shiftCount_nonneg hcount))]
    exact succeeds_ok _

theorem complement_succeeds (x : Float) : Succeeds (complement x) :=
  (toInt64_succeeds x).bind fun _ _ => succeeds_ok _

theorem bitwise_succeeds (bit : Bool → Bool → Bool) (a b : Float) : Succeeds (bitwise bit a b) :=
  (toInt64_succeeds a).bind fun _ _ => (toInt64_succeeds b).bind fun _ _ => succeeds_ok _

end Double

theorem UnaryOp.apply_succeeds (op : UnaryOp) (x : Float) : Succeeds (op.apply x) := by
  cases op with
  | negate => exact succeeds_ok _
  | logicalNot => exact succeeds_ok _
  | bitwiseNot => exact Double.complement_succeeds x
  | sqrt =>
    rw [UnaryOp.apply]
    split
    next h => exact Double.squareRoot_succeeds h
    next => exact succeeds_ok _

theorem BinaryOp.apply_succeeds (op : BinaryOp) (a b : Float) : Succeeds (op.apply a b) := by
  cases op with
  | divide =>
    rw [BinaryOp.apply]
    split
    next => exact succeeds_ok _
    next hb => exact Double.quotient_succeeds (Bool.eq_false_of_not_eq_true hb)
  | remainder =>
    rw [BinaryOp.apply]
    split
    next => exact succeeds_ok _
    next hb =>
      split
      next => exact succeeds_ok _
      next ha =>
        exact Double.remainder_succeeds (Bool.eq_false_of_not_eq_true hb)
          (Bool.eq_false_of_not_eq_true ha)
  | shiftLeft => exact Double.shiftLeft_succeeds a b
  | shiftRight => exact Double.shiftRight_succeeds a b
  | bitwiseAnd => exact Double.bitwise_succeeds and a b
  | bitwiseXor => exact Double.bitwise_succeeds xor a b
  | bitwiseOr => exact Double.bitwise_succeeds or a b
  | _ => exact succeeds_ok _

/-- The edges of a step differ where their difference divides. -/
theorem Builtin.smoothstep_succeeds (kernels : Kernels) (edge0 edge1 x : Float) :
    Succeeds (smoothstep kernels edge0 edge1 x) := by
  rw [smoothstep]
  split
  next => exact succeeds_ok _
  next hne =>
    have hdifference : (edge1 - edge0 == 0) = false :=
      Double.sub_beq_zero (Bool.eq_false_of_not_eq_true hne)
    exact (Double.quotient_succeeds hdifference).bind fun _ _ => succeeds_ok _

end Formula
