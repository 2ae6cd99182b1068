import Formula.Proofs.ActionSteps
import Formula.Proofs.Domains

namespace Formula

namespace Table

variable {α β : Type} [DecidableEq α] {key : α} {value : β}

theorem mem_of_find?_foldl {entries : List (α × β)} {t : Table α β}
    (h : (entries.foldl (fun t entry => t.insert entry.1 entry.2) t).find? key = some value) :
    (key, value) ∈ entries ∨ t.find? key = some value := by
  induction entries generalizing t with
  | nil => exact .inr h
  | cons entry rest ih =>
    rcases ih h with hrest | hhead
    · exact .inl (List.mem_cons_of_mem _ hrest)
    · rw [find?_insert] at hhead
      split at hhead
      next hkey =>
        cases hhead
        exact .inl (hkey ▸ List.mem_cons_self)
      next => exact .inr hhead

theorem mem_of_find?_ofList {entries : List (α × β)} (h : (ofList entries).find? key = some value) :
    (key, value) ∈ entries :=
  (mem_of_find?_foldl h).resolve_right (by simp)

end Table

theorem Action.takes_ofExcept {α : Type} {allowed : Deed → Prop} {x : Except Fault α}
    (h : Succeeds x) : (ofExcept x).Takes allowed := by
  obtain ⟨result, rfl⟩ := h
  exact takes_pure result

namespace Function

/-- A function that has arguments evaluated and does nothing else. -/
def Plain (f : Function) : Prop :=
  ∀ count, f.takes count = true → (f.body count).Takes (Deed.IsArgument count)

/-- A function that does not use its environment. -/
def Stateless (f : Function) : Prop :=
  ∀ count, f.takes count = true → (f.body count).Takes Deed.IsStateless

theorem Plain.stateless {f : Function} (h : f.Plain) : f.Stateless := by
  refine fun count hcount => (h count hcount).mono fun deed hdeed => ?_
  cases deed with
  | argument | fail => trivial
  | fetch | keep => exact hdeed

theorem plain_last : last.Plain :=
  fun _ _ => Action.takes_arguments fun _ _ => Action.takes_pure _

end Function

namespace Builtin

open Formula.Action

variable {name : String}

theorem eq_of_takes {f : Function} {arity count : Nat} (hf : f.arity = some arity)
    (h : f.takes count = true) : arity = count := by
  simpa [Function.takes, hf] using h

theorem plain_pointwise {count : Nat} {compute : List Float → Except Fault Float}
    (hcompute : ∀ values, values.length = count → Succeeds (compute values)) :
    (pointwise name count compute).Plain := by
  intro given hgiven
  obtain rfl := eq_of_takes rfl hgiven
  exact takes_arguments fun values hvalues => takes_ofExcept (hcompute values hvalues)

theorem plain_ofNumber (f : Float → Float) : (ofNumber name f).Plain := by
  apply plain_pointwise
  intro values hvalues
  obtain ⟨a, rfl⟩ := List.length_eq_one_iff.mp hvalues
  exact succeeds_ok _

theorem plain_ofTwo (f : Float → Float → Float) : (ofTwo name f).Plain := by
  apply plain_pointwise
  intro values hvalues
  obtain ⟨a, b, rfl⟩ := List.length_eq_two.mp hvalues
  exact succeeds_ok _

theorem plain_ofThree {f : Float → Float → Float → Except Fault Float}
    (hf : ∀ a b c, Succeeds (f a b c)) : (ofThree name f).Plain := by
  apply plain_pointwise
  intro values hvalues
  obtain ⟨a, b, c, rfl⟩ := List.length_eq_three.mp hvalues
  exact hf a b c

theorem plain_ofMany (f : List Float → Float) : (ofMany name f).Plain := by
  intro count _
  apply takes_arguments
  rintro (_ | ⟨value, rest⟩) _
  · exact takes_pure _
  · exact takes_pure _

theorem plain_conditional : conditional.Plain := by
  intro count hcount
  obtain rfl := eq_of_takes rfl hcount
  refine (takes_eval (by decide : 0 < 3)).bind fun condition => ?_
  split
  · exact takes_eval (by decide : 1 < 3)
  · exact takes_eval (by decide : 2 < 3)

theorem plain_all (kernels : Kernels) : ∀ f ∈ all kernels, f.Plain := by
  simp only [all, List.forall_mem_cons]
  exact ⟨plain_ofNumber _, plain_ofNumber _, plain_ofNumber _, plain_ofNumber _, plain_ofNumber _,
    plain_ofNumber _, plain_ofNumber _, plain_ofNumber _, plain_ofNumber _, plain_ofTwo _,
    plain_ofTwo _, plain_ofThree fun _ _ _ => succeeds_ok _,
    plain_ofThree fun _ _ _ => succeeds_ok _, plain_ofThree (smoothstep_succeeds kernels),
    plain_ofMany _, plain_ofMany _, plain_conditional, by simp⟩

theorem plain_table {kernels : Kernels} {key : String} {f : Function}
    (h : (table kernels).find? key = some f) : f.Plain := by
  obtain ⟨listed, hlisted, hentry⟩ := List.mem_filterMap.mp (Table.mem_of_find?_ofList h)
  obtain ⟨name, -, hname⟩ := Option.map_eq_some_iff.mp hentry
  cases hname
  exact plain_all kernels f hlisted

end Builtin

end Formula
