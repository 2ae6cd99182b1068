import Formula.Action

namespace Formula

/-- A step of an action, apart from its end. -/
inductive Deed where
  | argument (index : Nat)
  | fetch (key : String)
  | keep (key : String) (value : Float)
  | fail (fault : Fault)

namespace Deed

/-- Evaluates one of the first `count` arguments. -/
def IsArgument (count : Nat) : Deed → Prop
  | argument index => index < count
  | _ => False

/-- Evaluates one of the first `count` arguments, or uses the environment. -/
def IsOwn (count : Nat) : Deed → Prop
  | argument index => index < count
  | fetch _ | keep .. => True
  | fail _ => False

theorem IsArgument.isOwn {count : Nat} {deed : Deed} (h : deed.IsArgument count) :
    deed.IsOwn count := by
  cases deed with
  | argument => exact h
  | fetch | keep => trivial
  | fail => exact h

/-- Leaves the environment alone. -/
def IsStateless : Deed → Prop
  | argument _ | fail _ => True
  | fetch _ | keep .. => False

end Deed

namespace Action

variable {α β γ : Type} {allowed allowed' : Deed → Prop}

theorem bind_bind (action : Action α) (f : α → Action β) (g : β → Action γ) :
    (action.bind f).bind g = action.bind (fun a => (f a).bind g) := by
  induction action with
  | done result => rfl
  | argument index next ih => exact congrArg (argument index) (funext ih)
  | fetch key next ih => exact congrArg (fetch key) (funext ih)
  | keep key value next ih => exact congrArg (keep key value) ih
  | fail fault => rfl

/-- Whatever values it meets, the action takes no other steps than these. -/
def Takes (allowed : Deed → Prop) : Action α → Prop
  | done _ => True
  | argument index next => allowed (.argument index) ∧ ∀ value, (next value).Takes allowed
  | fetch key next => allowed (.fetch key) ∧ ∀ value, (next value).Takes allowed
  | keep key value next => allowed (.keep key value) ∧ next.Takes allowed
  | fail fault => allowed (.fail fault)

theorem takes_pure (result : α) : (pure result : Action α).Takes allowed :=
  trivial

theorem takes_any (action : Action α) : action.Takes fun _ => True := by
  induction action with
  | done | fail => trivial
  | argument _ _ ih | fetch _ _ ih => exact ⟨trivial, ih⟩
  | keep _ _ _ ih => exact ⟨trivial, ih⟩

theorem Takes.mono {action : Action α} (h : action.Takes allowed)
    (hmono : ∀ deed, allowed deed → allowed' deed) : action.Takes allowed' := by
  induction action with
  | done => trivial
  | argument index next ih => exact ⟨hmono _ h.1, fun value => ih value (h.2 value)⟩
  | fetch key next ih => exact ⟨hmono _ h.1, fun value => ih value (h.2 value)⟩
  | keep key value next ih => exact ⟨hmono _ h.1, ih h.2⟩
  | fail fault => exact hmono _ h

theorem Takes.bind {action : Action α} {f : α → Action β} (h : action.Takes allowed)
    (hnext : ∀ result, (f result).Takes allowed) : (action >>= f).Takes allowed := by
  induction action with
  | done result => exact hnext result
  | argument index next ih => exact ⟨h.1, fun value => ih value (h.2 value)⟩
  | fetch key next ih => exact ⟨h.1, fun value => ih value (h.2 value)⟩
  | keep key value next ih => exact ⟨h.1, ih h.2⟩
  | fail fault => exact h

theorem takes_eval {index : Nat} (h : allowed (.argument index)) :
    (eval index).Takes allowed :=
  ⟨h, fun _ => trivial⟩

theorem evalFrom_succ (index count : Nat) (f : List Float → Action β) :
    evalFrom index (count + 1) >>= f = .argument index fun value =>
      evalFrom (index + 1) count >>= fun values => f (value :: values) :=
  congrArg (argument index) (funext fun value =>
    bind_bind (evalFrom (index + 1) count) (fun values => .done (value :: values)) f)

/-- Arguments are evaluated, and as many values are there for what comes then. -/
theorem takes_evalFrom (index count : Nat) {f : List Float → Action β}
    (h : ∀ i, index ≤ i → i < index + count → allowed (.argument i))
    (hnext : ∀ values, values.length = count → (f values).Takes allowed) :
    (evalFrom index count >>= f).Takes allowed := by
  induction count generalizing index f with
  | zero => exact hnext [] rfl
  | succ count ih =>
    rw [evalFrom_succ]
    refine ⟨h index (Nat.le_refl _) (by omega), fun value => ?_⟩
    apply ih (index + 1)
    · exact fun i hi hlt => h i (by omega) (by omega)
    · exact fun values hvalues => hnext (value :: values) (by simp [hvalues])

theorem takes_arguments {count : Nat} {f : List Float → Action β}
    (hnext : ∀ values, values.length = count → (f values).Takes (Deed.IsArgument count)) :
    (evalFrom 0 count >>= f).Takes (Deed.IsArgument count) := by
  refine takes_evalFrom 0 count (fun i _ hi => ?_) hnext
  rwa [Nat.zero_add] at hi

end Action

end Formula
