namespace Formula

/-- From a state the work ends as `done` says, or fails as `failed` says. -/
def Leads {ε σ α : Type} (x : EStateM ε σ α) (s : σ) (done : α → σ → Prop)
    (failed : ε → σ → Prop) : Prop :=
  match x.run s with
  | .ok a next => done a next
  | .error e left => failed e left

namespace Leads

variable {ε σ α β : Type} {x : EStateM ε σ α} {f : α → EStateM ε σ β} {s : σ}
  {done done' : α → σ → Prop} {failed failed' : ε → σ → Prop}

theorem mono (h : Leads x s done failed) (hdone : ∀ a next, done a next → done' a next)
    (hfailed : ∀ e left, failed e left → failed' e left) : Leads x s done' failed' := by
  unfold Leads at h ⊢
  cases hx : x.run s with
  | ok a next =>
    rw [hx] at h
    exact hdone a next h
  | error e left =>
    rw [hx] at h
    exact hfailed e left h

theorem and (h : Leads x s done failed) (h' : Leads x s done' failed') :
    Leads x s (fun a next => done a next ∧ done' a next)
      (fun e left => failed e left ∧ failed' e left) := by
  unfold Leads at h h' ⊢
  cases hx : x.run s with
  | ok a next =>
    rw [hx] at h h'
    exact ⟨h, h'⟩
  | error e left =>
    rw [hx] at h h'
    exact ⟨h, h'⟩

theorem bind {last : β → σ → Prop} (h : Leads x s done failed)
    (hnext : ∀ a next, done a next → Leads (f a) next last failed) :
    Leads (x >>= f) s last failed := by
  unfold Leads at h ⊢
  rw [EStateM.run_bind]
  cases hx : x.run s with
  | ok a next =>
    rw [hx] at h
    exact hnext a next h
  | error e left =>
    rw [hx] at h
    exact h

end Leads

end Formula
