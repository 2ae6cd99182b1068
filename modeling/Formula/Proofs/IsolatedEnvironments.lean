import Formula.Proofs.AlikeEvaluation
import Formula.Proofs.CallPlaces
import Formula.Proofs.Nesting
import Formula.Proofs.RecordedEvaluation

namespace Formula

/-- Carries an action out on an environment alone. The values of arguments are given in the order
in which the action asks for them. It takes all of them, and then it is finished or meets a fault,
which may be one of the argument that it asks for next. -/
def Action.replay {α : Type} (finished : Bool) : Action α → Environment → List Float →
    Option Environment
  | .done _, env, [] => if finished then some env else none
  | .done _, _, _ :: _ => none
  | .argument _ _, env, [] => if finished then none else some env
  | .argument _ next, env, value :: values => (next value).replay finished env values
  | .fetch key next, env, values => (next (env.find? key)).replay finished env values
  | .keep key value next, env, values => next.replay finished (env.insert key value) values
  | .fail _, env, [] => if finished then none else some env
  | .fail _, _, _ :: _ => none

namespace Visit

/-- The environment behind a visit. -/
def replay (env : Environment) (visit : Visit) : Option Environment :=
  visit.action.replay visit.finished env visit.values

/-- A visit to one of the calls. -/
def Of (calls : List (Path × Tree)) (visit : Visit) : Prop :=
  ∃ f args, (visit.site, Tree.call f args) ∈ calls ∧ visit.action = f.body args.length

/-- What visits to a call, one after the other, make of its environment. -/
def replayAll (env : Environment) (visits : List Visit) : Option Environment :=
  visits.foldlM replay env

end Visit

def visitsAt (site : Path) (visits : List Visit) : List Visit :=
  visits.filter fun visit => visit.site = site

section Visits

variable {site : Path} {visits more : List Visit} {visit : Visit}

theorem visitsAt_append :
    visitsAt site (visits ++ more) = visitsAt site visits ++ visitsAt site more :=
  List.filter_append ..

theorem mem_visitsAt : visit ∈ visitsAt site visits ↔ visit ∈ visits ∧ visit.site = site := by
  unfold visitsAt
  rw [List.mem_filter, decide_eq_true_iff]

theorem visitsAt_eq_nil (h : ∀ visit ∈ visits, visit.site ≠ site) : visitsAt site visits = [] := by
  apply List.filter_eq_nil_iff.mpr
  intro visit hvisit hsame
  exact h visit hvisit (of_decide_eq_true hsame)

theorem Visit.replayAll_append {env middle later : Environment}
    (h : Visit.replayAll env visits = some middle)
    (hmore : Visit.replayAll middle more = some later) :
    Visit.replayAll env (visits ++ more) = some later := by
  unfold Visit.replayAll at *
  rw [List.foldlM_append, h]
  exact hmore

end Visits

/-- Visits to some calls, which explain what has become of environments: each is what the visits to
its own call have made of it. -/
structure Explains (calls : List (Path × Tree)) (memory : Memory) (visits : List Visit)
    (later : Memory) : Prop where
  belong : ∀ visit ∈ visits, visit.Of calls
  own : ∀ site, Visit.replayAll (memory.environment site) (visitsAt site visits) =
    some (later.environment site)

namespace Explains

variable {calls calls' : List (Path × Tree)} {memory middle later : Memory}
  {visits more : List Visit}

theorem refl (calls : List (Path × Tree)) (memory : Memory) : Explains calls memory [] memory :=
  ⟨fun _ h => (List.not_mem_nil h).elim, fun _ => rfl⟩

theorem trans (h : Explains calls memory visits middle)
    (hmore : Explains calls middle more later) :
    Explains calls memory (visits ++ more) later := by
  refine ⟨List.forall_mem_append.mpr ⟨h.belong, hmore.belong⟩, ?_⟩
  intro site
  rw [visitsAt_append]
  exact Visit.replayAll_append (h.own site) (hmore.own site)

theorem mono (h : Explains calls memory visits later) (hcalls : calls ⊆ calls') :
    Explains calls' memory visits later := by
  refine ⟨?_, h.own⟩
  intro visit hvisit
  obtain ⟨f, args, hcall, haction⟩ := h.belong visit hvisit
  exact ⟨f, args, hcalls hcall, haction⟩

/-- Where no call is, no environment changes. -/
theorem environment_of_ne (h : Explains calls memory visits later) {site : Path}
    (hsite : ∀ call ∈ calls, call.1 ≠ site) :
    later.environment site = memory.environment site := by
  have hnone : visitsAt site visits = [] := by
    apply visitsAt_eq_nil
    intro visit hvisit
    obtain ⟨f, args, hcall, -⟩ := h.belong visit hvisit
    exact hsite _ hcall
  have hown := h.own site
  rw [hnone] at hown
  exact (Option.some.inj hown).symm

end Explains

namespace Recording

variable {α β : Type} {calls calls' : List (Path × Tree)}

/-- The visits that an evaluation lists explain what it does to environments, also if it fails. If
it does not, they have all come to their ends. -/
structure Explained (calls : List (Path × Tree)) (x : Recording α) : Prop where
  explains : ∀ store, Explains calls store.memory (x store).2 (Eval.behind (x store).1).memory
  finished : ∀ {store a later}, (x store).1 = .ok a later → ∀ visit ∈ (x store).2,
    visit.finished = true

theorem explained_pure (a : α) : Explained calls (pure a) :=
  ⟨fun _ => .refl calls _, fun _ _ h => (List.not_mem_nil h).elim⟩

theorem explained_silent {x : Eval α}
    (hx : ∀ store, (Eval.behind (x.run store)).memory = store.memory) :
    Explained calls (silent x) := by
  refine ⟨fun store => ?_, fun _ _ h => (List.not_mem_nil h).elim⟩
  have hsame : (Eval.behind (silent x store).1).memory = store.memory := hx store
  rw [hsame]
  exact .refl calls _

theorem explained_ofExcept (x : Except Fault α) : Explained calls (silent (Eval.ofExcept x)) := by
  apply explained_silent
  intro store
  cases x <;> rfl

theorem Explained.bind {x : Recording α} {f : α → Recording β} (h : x.Explained calls)
    (hnext : ∀ a, (f a).Explained calls) : (x >>= f).Explained calls := by
  refine ⟨fun store => ?_, fun {store b later} hok => ?_⟩
  · have hfirst := h.explains store
    rcases hx : x store with ⟨⟨a, middle⟩ | ⟨fault, left⟩, first⟩
    · rw [hx] at hfirst
      rw [bind_of_ok hx]
      exact hfirst.trans ((hnext a).explains middle)
    · rw [hx] at hfirst
      rw [bind_of_error hx]
      exact hfirst
  · rcases hx : x store with ⟨⟨a, middle⟩ | ⟨fault, left⟩, first⟩
    · rw [bind_of_ok hx] at hok ⊢
      have hfirst := h.finished (congrArg Prod.fst hx)
      rw [hx] at hfirst
      exact List.forall_mem_append.mpr ⟨hfirst, (hnext a).finished hok⟩
    · rw [bind_of_error hx] at hok
      cases hok

theorem Explained.mono {x : Recording α} (h : x.Explained calls) (hcalls : calls ⊆ calls') :
    x.Explained calls' :=
  ⟨fun store => (h.explains store).mono hcalls, h.finished⟩

end Recording

/-- What is recorded of an action at a call: visits to other calls, which are all in its arguments,
and then its own visit with the values that have been added to it. The environment of the call comes
to what the action by itself makes of it, and the visits inside explain the others. -/
structure Action.Recorded (calls : List (Path × Tree)) (site : Path) (called : Action Float)
    (asked : List Float) (action : Action Float) (memory : Memory)
    (recorded : EStateM.Result Fault Store Float × List Visit) (inside : List Visit)
    (values : List Float) (ended : Bool) : Prop where
  visits : recorded.2 = inside ++ [⟨site, called, asked ++ values, ended⟩]
  belong : ∀ visit ∈ inside, visit.Of calls
  own : action.replay ended (memory.environment site) values =
    some ((Eval.behind recorded.1).memory.environment site)
  others : ∀ other, other ≠ site →
    Visit.replayAll (memory.environment other) (visitsAt other inside) =
      some ((Eval.behind recorded.1).memory.environment other)
  finished : ∀ {a later}, recorded.1 = .ok a later →
    ended = true ∧ ∀ visit ∈ inside, visit.finished = true

namespace Action

variable {calls : List (Path × Tree)} {site : Path} {called action : Action Float}
  {asked values : List Float} {memory : Memory} {store middle left : Store}
  {first inside : List Visit} {recorded : EStateM.Result Fault Store Float × List Visit}
  {ended : Bool}

theorem recorded_done (result : Float) :
    Recorded calls site called asked (.done result) store.memory
      ((Action.done result).record [] ⟨site, called, asked, false⟩ store) [] [] true where
  visits := by
    rw [List.append_nil]
    rfl
  belong _ h := (List.not_mem_nil h).elim
  own := rfl
  others _ _ := rfl
  finished _ := ⟨rfl, fun _ h => (List.not_mem_nil h).elim⟩

/-- A fault, perhaps behind visits to calls in an argument. -/
theorem recorded_fault (hfirst : Explains calls memory first left.memory)
    (hsite : ∀ call ∈ calls, call.1 ≠ site) (fault : Fault)
    (haction : ∀ env, action.replay false env [] = some env) :
    Recorded calls site called asked action memory
      (.error fault left, first ++ [⟨site, called, asked, false⟩]) first [] false where
  visits := by rw [List.append_nil]
  belong := hfirst.belong
  own := by
    rw [haction, ← hfirst.environment_of_ne hsite]
    rfl
  others other _ := hfirst.own other
  finished := by rintro _ _ ⟨⟩

/-- An argument does not come by the place of the action's own call. -/
theorem Recorded.argument {value : Float} {next : Float → Action Float} (index : Nat)
    (hfirst : Explains calls memory first middle.memory)
    (hends : ∀ visit ∈ first, visit.finished = true) (hsite : ∀ call ∈ calls, call.1 ≠ site)
    (h : Recorded calls site called (asked ++ [value]) (next value) middle.memory recorded inside
      values ended) :
    Recorded calls site called asked (.argument index next) memory
      (recorded.1, first ++ recorded.2) (first ++ inside) (value :: values) ended where
  visits := by simp [h.visits]
  belong := List.forall_mem_append.mpr ⟨hfirst.belong, h.belong⟩
  own := by
    rw [← hfirst.environment_of_ne hsite]
    exact h.own
  others other hother := by
    rw [visitsAt_append]
    exact Visit.replayAll_append (hfirst.own other) (h.others other hother)
  finished hok :=
    ⟨(h.finished hok).1, List.forall_mem_append.mpr ⟨hends, (h.finished hok).2⟩⟩

theorem Recorded.keep {key : String} {value : Float} {next : Action Float}
    (h : Recorded calls site called asked next (memory.write site key value) recorded inside values
      ended) :
    Recorded calls site called asked (.keep key value next) memory recorded inside values ended
    where
  visits := h.visits
  belong := h.belong
  own := by
    have hown := h.own
    rw [Memory.environment_write, if_pos rfl] at hown
    exact hown
  others other hother := by
    have hothers := h.others other hother
    rw [Memory.environment_write, if_neg hother] at hothers
    exact hothers
  finished := h.finished

theorem recorded_of_run {args : List (Recording Float)} (hargs : ∀ arg ∈ args, arg.Explained calls)
    (hsite : ∀ call ∈ calls, call.1 ≠ site) (called action : Action Float) (asked : List Float)
    (store : Store) :
    ∃ inside values ended, Recorded calls site called asked action store.memory
      (action.record args ⟨site, called, asked, false⟩ store) inside values ended := by
  induction action generalizing store asked with
  | done result => exact ⟨[], [], true, recorded_done result⟩
  | argument index next ih =>
    rw [record]
    cases harg : args[index]? with
    | none => exact ⟨[], [], false, recorded_fault (.refl _ _) hsite _ fun _ => rfl⟩
    | some arg =>
      have hexplained := hargs arg (List.mem_of_getElem? harg)
      have hfirst := hexplained.explains store
      rcases hrun : arg store with ⟨⟨value, middle⟩ | ⟨fault, left⟩, first⟩
      · have hends := hexplained.finished (congrArg Prod.fst hrun)
        rw [hrun] at hfirst hends
        obtain ⟨inside, values, ended, hrest⟩ := ih value (asked ++ [value]) middle
        simp only [Recording.bind_of_ok (Recording.during_of_ok hrun _)]
        exact ⟨first ++ inside, value :: values, ended,
          hrest.argument index hfirst hends hsite⟩
      · rw [hrun] at hfirst
        simp only [Recording.bind_of_error (Recording.during_of_error hrun _)]
        exact ⟨first, [], false, recorded_fault hfirst hsite fault fun _ => rfl⟩
  | fetch key next ih =>
    obtain ⟨inside, values, ended, h⟩ :=
      ih ((store.memory.environment site).find? key) asked store
    exact ⟨inside, values, ended, h.visits, h.belong, h.own, h.others, h.finished⟩
  | keep key value next ih =>
    obtain ⟨inside, values, ended, h⟩ :=
      ih asked { store with memory := store.memory.write site key value }
    exact ⟨inside, values, ended, h.keep⟩
  | fail fault => exact ⟨[], [], false, recorded_fault (.refl _ _) hsite fault fun _ => rfl⟩

/-- The visit to a call itself explains what has become of its own environment. -/
theorem Recorded.explains {f : Function} {args : List Tree}
    (h : Recorded calls site (f.body args.length) [] (f.body args.length) memory recorded inside
      values ended) (hsite : ∀ call ∈ calls, call.1 ≠ site) :
    Explains ((site, .call f args) :: calls) memory recorded.2
      (Eval.behind recorded.1).memory := by
  have hinside : visitsAt site inside = [] := by
    apply visitsAt_eq_nil
    intro visit hvisit
    obtain ⟨g, inner, hcall, -⟩ := h.belong visit hvisit
    exact hsite _ hcall
  rw [h.visits]
  refine ⟨List.forall_mem_append.mpr ⟨?_, ?_⟩, fun other => ?_⟩
  · intro visit hvisit
    obtain ⟨g, inner, hcall, haction⟩ := h.belong visit hvisit
    exact ⟨g, inner, List.mem_cons_of_mem _ hcall, haction⟩
  · rw [List.forall_mem_singleton]
    exact ⟨f, args, List.mem_cons_self, rfl⟩
  · rw [visitsAt_append]
    by_cases hown : other = site
    · subst hown
      rw [hinside]
      simpa [visitsAt, Visit.replayAll, Visit.replay] using h.own
    · have hlast : visitsAt other [⟨site, f.body args.length, [] ++ values, ended⟩] = [] := by
        apply visitsAt_eq_nil
        rw [List.forall_mem_singleton]
        exact Ne.symm hown
      rw [hlast, List.append_nil]
      exact h.others other hown

end Action

namespace Tree

theorem explained_call {function : Function} {args : List Tree} {path : Path}
    (hargs : ∀ arg ∈ recordFrom path 0 args, arg.Explained (callsFrom path 0 args)) :
    ((call function args).recordAt path).Explained ((call function args).callsAt path) := by
  have hsite : ∀ inner ∈ callsFrom path 0 args, inner.1 ≠ path := by
    intro inner hinner
    have hmem : inner.1 ∈ sitesFrom path 0 args := by
      rw [← map_fst_callsFrom]
      exact List.mem_map_of_mem hinner
    exact ne_of_mem_sitesFrom hmem
  have hrecord := Action.recorded_of_run hargs hsite (function.body args.length)
    (function.body args.length) []
  rw [recordAt]
  refine ⟨fun store => ?_, fun {store a later} hok => ?_⟩
  · obtain ⟨inside, values, ended, h⟩ := hrecord store
    exact h.explains hsite
  · obtain ⟨inside, values, ended, h⟩ := hrecord store
    obtain ⟨hended, hinside⟩ := h.finished hok
    rw [h.visits]
    exact List.forall_mem_append.mpr ⟨hinside, by simp [hended]⟩

mutual

/-- What a tree does to environments is explained by the visits to its own calls. -/
theorem recordAt_explained (path : Path) : (tree : Tree) →
    (tree.recordAt path).Explained (tree.callsAt path)
  | const value => Recording.explained_pure value
  | var cell => Recording.explained_silent fun _ => rfl
  | unary op operand =>
    (recordAt_explained (0 :: path) operand).bind fun _ => Recording.explained_ofExcept _
  | binary op left right => by
    have left_explained := (recordAt_explained (0 :: path) left).mono
      (List.subset_append_left _ (right.callsAt (1 :: path)))
    have right_explained := (recordAt_explained (1 :: path) right).mono
      (List.subset_append_right (left.callsAt (0 :: path)) _)
    rw [recordAt, callsAt]
    split
    · refine right_explained.bind fun divisor => ?_
      split
      · exact Recording.explained_pure 0
      · exact left_explained.bind fun _ => Recording.explained_ofExcept _
    · exact left_explained.bind fun _ =>
        right_explained.bind fun _ => Recording.explained_ofExcept _
  | assign target value => by
    refine (recordAt_explained (1 :: path) value).bind fun x => ?_
    exact (Recording.explained_silent fun _ => rfl).bind fun _ =>
      Recording.explained_silent fun _ => rfl
  | call function args => explained_call (recordFrom_explained path 0 args)

theorem recordFrom_explained (path : Path) (index : Nat) : (args : List Tree) →
    ∀ x ∈ recordFrom path index args, x.Explained (callsFrom path index args)
  | [] => by
    intro x hx
    cases hx
  | arg :: rest => by
    intro x hx
    rcases List.mem_cons.mp hx with rfl | hx
    · exact (recordAt_explained (index :: path) arg).mono (List.subset_append_left _ _)
    · exact (recordFrom_explained path (index + 1) rest x hx).mono (List.subset_append_right _ _)

end

theorem recordTimes_explained (tree : Tree) (times : Nat) :
    (tree.recordTimes times).Explained (tree.callsAt []) := by
  induction times with
  | zero => exact Recording.explained_pure []
  | succ times ih =>
    exact (recordAt_explained [] tree).bind fun value =>
      ih.bind fun values => Recording.explained_pure (value :: values)

/-- The visits to its calls in evaluations of a tree, some times over. -/
def visits (tree : Tree) (times : Nat) (vars : Variables) (memory : Memory) : List Visit :=
  (tree.recordTimes times ⟨vars.values, memory⟩).2

section Evaluations

variable (tree : Tree) (times : Nat) (vars : Variables) (memory : Memory)

theorem fst_recordTimes : (tree.recordTimes times ⟨vars.values, memory⟩).1 =
    (tree.evalTimes times).run ⟨vars.values, memory⟩ :=
  congrFun (forget_recordTimes tree times) _

theorem evaluation_explained : Explains (tree.callsAt []) memory (tree.visits times vars memory)
    (tree.evaluation times vars memory).memory := by
  have hexplained := (recordTimes_explained tree times).explains ⟨vars.values, memory⟩
  rw [fst_recordTimes] at hexplained
  exact hexplained

theorem visits_finished {values : List Float}
    (h : (tree.evaluation times vars memory).outcome = .ok values) :
    ∀ visit ∈ tree.visits times vars memory, visit.finished = true := by
  have hends := @(recordTimes_explained tree times).finished ⟨vars.values, memory⟩
  rw [fst_recordTimes] at hends
  unfold evaluation at h
  cases hrun : (tree.evalTimes times).run ⟨vars.values, memory⟩ with
  | ok result later => exact hends hrun
  | error fault left =>
    rw [hrun] at h
    cases h

end Evaluations

end Tree

end Formula
