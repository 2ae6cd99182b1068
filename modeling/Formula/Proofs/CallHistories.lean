import Formula.Proofs.IsolatedEnvironments
import Formula.Session

namespace Formula

namespace Session

variable {s : Session} {formula : String}

theorem withFormula_formulas {answer : KeptFormula → Answer × Session}
    (h : ∀ kept, (answer kept).2.formulas = s.formulas) :
    (s.withFormula formula answer).2.formulas = s.formulas := by
  unfold withFormula
  split
  · exact h _
  · rfl

theorem withCell_formulas {name : String} {answer : Cell → Answer × Session}
    (h : ∀ cell, (answer cell).2.formulas = s.formulas) :
    (s.withCell name answer).2.formulas = s.formulas := by
  unfold withCell
  split
  · exact h _
  · rfl

theorem evaluate_formulas (s : Session) (text : String) :
    (s.evaluate text).2.formulas = s.formulas := by
  unfold evaluate
  split <;> rfl

end Session

/-- A session, with the visits to the calls of each formula since its tree was parsed. -/
structure Chronicle where
  session : Session
  visits : String → List Visit

namespace Chronicle

def start (functions : Functions) (vars : Variables) : Chronicle :=
  ⟨.start functions vars, fun _ => []⟩

/-- The visits to a formula's calls behind a request. A new tree has had none; evaluating the kept
one adds its own. -/
def visitsBehind (c : Chronicle) (request : Request) (formula : String) : List Visit :=
  match request with
  | .parse parsed text =>
    match (Formula.parse c.session.functions c.session.variables text).outcome with
    | .ok _ => if formula = parsed then [] else c.visits formula
    | .error _ => c.visits formula
  | .eval evaluated times =>
    match c.session.formulas.find? evaluated with
    | some kept =>
      if formula = evaluated then
        c.visits formula ++ kept.tree.visits times c.session.variables kept.memory
      else c.visits formula
    | none => c.visits formula
  | _ => c.visits formula

def step (c : Chronicle) (request : Request) : Chronicle :=
  ⟨(c.session.step request).2, c.visitsBehind request⟩

def after (c : Chronicle) (requests : List Request) : Chronicle :=
  requests.foldl step c

/-- The session goes its way without the history, and comes to the last one of its run. -/
theorem session_after (c : Chronicle) (requests : List Request) :
    (c.after requests).session = ((c.session.run requests).map Prod.snd).getLastD c.session := by
  induction requests generalizing c with
  | nil => rfl
  | cons request rest ih =>
    have hrest := ih (c.step request)
    unfold Session.run
    rw [List.map_cons, List.getLastD_cons]
    exact hrest

/-- The environments of all kept formulas are explained by the visits to their own calls. -/
def Explained (c : Chronicle) : Prop :=
  ∀ formula kept, c.session.formulas.find? formula = some kept →
    Explains (kept.tree.callsAt []) .empty (c.visits formula) kept.memory

variable {c : Chronicle}

theorem explained_start (functions : Functions) (vars : Variables) :
    (start functions vars).Explained := by
  intro formula kept h
  cases h

/-- What is kept before and behind a request, if this one leaves the formulas alone. -/
theorem Explained.over (h : c.Explained) {request : Request}
    (hformulas : (c.session.step request).2.formulas = c.session.formulas)
    (hvisits : c.visitsBehind request = c.visits) : (c.step request).Explained := by
  intro formula kept hkept
  unfold step at hkept ⊢
  rw [hformulas] at hkept
  rw [hvisits]
  exact h formula kept hkept

/-- A formula more, or in place of another. -/
theorem Explained.keep (h : c.Explained) {request : Request} (name : String) (kept : KeptFormula)
    (hformulas : (c.session.step request).2.formulas = c.session.formulas.insert name kept)
    (hkept : Explains (kept.tree.callsAt []) .empty (c.visitsBehind request name) kept.memory)
    (hothers : ∀ formula, formula ≠ name → c.visitsBehind request formula = c.visits formula) :
    (c.step request).Explained := by
  intro formula found hfound
  unfold step at hfound
  rw [hformulas, Table.find?_insert] at hfound
  show Explains _ _ (c.visitsBehind request formula) _
  by_cases hname : formula = name
  · subst hname
    rw [if_pos rfl] at hfound
    cases hfound
    exact hkept
  · rw [if_neg hname] at hfound
    rw [hothers formula hname]
    exact h formula found hfound

theorem Explained.parse (h : c.Explained) (parsed text : String) :
    (c.step (.parse parsed text)).Explained := by
  have hstep : (c.session.step (.parse parsed text)).2 = (c.session.parse parsed text).2 := rfl
  cases houtcome : (Formula.parse c.session.functions c.session.variables text).outcome with
  | error failure =>
    apply h.over
    · rw [hstep, Session.parse, houtcome]
    · unfold visitsBehind
      simp only [houtcome]
  | ok tree =>
    have hvisits (formula : String) : c.visitsBehind (.parse parsed text) formula =
        if formula = parsed then [] else c.visits formula := by
      unfold visitsBehind
      simp only [houtcome]
    apply h.keep parsed ⟨tree, .empty⟩
    · rw [hstep, Session.parse, houtcome]
    · rw [hvisits, if_pos rfl]
      exact .refl _ _
    · intro formula hformula
      rw [hvisits, if_neg hformula]

theorem Explained.eval (h : c.Explained) (evaluated : String) (times : Nat) :
    (c.step (.eval evaluated times)).Explained := by
  have hstep : (c.session.step (.eval evaluated times)).2 =
      (c.session.withFormula evaluated (c.session.eval evaluated times)).2 := rfl
  cases hfound : c.session.formulas.find? evaluated with
  | none =>
    apply h.over
    · rw [hstep, Session.withFormula, hfound]
    · unfold visitsBehind
      simp only [hfound]
  | some found =>
    have hvisits (formula : String) : c.visitsBehind (.eval evaluated times) formula =
        if formula = evaluated then
          c.visits formula ++ found.tree.visits times c.session.variables found.memory
        else c.visits formula := by
      unfold visitsBehind
      simp only [hfound]
    let evaluation := found.tree.evaluation times c.session.variables found.memory
    have hbefore := h evaluated found hfound
    have hadded := found.tree.evaluation_explained times c.session.variables found.memory
    apply h.keep evaluated ⟨found.tree, evaluation.memory⟩
    · rw [hstep, Session.withFormula, hfound]
      rfl
    · rw [hvisits, if_pos rfl]
      exact hbefore.trans hadded
    · intro formula hformula
      rw [hvisits, if_neg hformula]

theorem Explained.step (h : c.Explained) (request : Request) : (c.step request).Explained := by
  cases request with
  | parse parsed text => exact h.parse parsed text
  | eval evaluated times => exact h.eval evaluated times
  | evaluate text => exact h.over (Session.evaluate_formulas c.session text) rfl
  | environments | walk | shown => exact h.over (Session.withFormula_formulas fun _ => rfl) rfl
  | set | get | remove | share => exact h.over (Session.withCell_formulas fun _ => rfl) rfl
  | useFunctions functions => exact h.over rfl rfl

theorem Explained.after (h : c.Explained) (requests : List Request) :
    (c.after requests).Explained := by
  induction requests generalizing c with
  | nil => exact h
  | cons request rest ih => exact ih (h.step request)

/-- All visits have come to their ends. -/
def Finished (c : Chronicle) : Prop :=
  ∀ formula, ∀ visit ∈ c.visits formula, visit.finished = true

theorem finished_start (functions : Functions) (vars : Variables) :
    (start functions vars).Finished :=
  fun _ _ h => (List.not_mem_nil h).elim

theorem Finished.parse (h : c.Finished) (parsed text : String) :
    (c.step (.parse parsed text)).Finished := by
  intro formula visit hvisit
  unfold step visitsBehind at hvisit
  dsimp only at hvisit
  split at hvisit
  · split at hvisit
    · cases hvisit
    · exact h formula visit hvisit
  · exact h formula visit hvisit

/-- A visit that has not come to its end is one in an evaluation that has met a fault. -/
theorem Finished.eval (h : c.Finished) {evaluated : String} {times : Nat}
    (hanswer : ∀ fault, (c.session.step (.eval evaluated times)).1 ≠ .failed (.fault fault)) :
    (c.step (.eval evaluated times)).Finished := by
  intro formula visit hvisit
  unfold step visitsBehind at hvisit
  dsimp only at hvisit
  split at hvisit
  next found hfound =>
    split at hvisit
    · rcases List.mem_append.mp hvisit with hvisit | hvisit
      · exact h formula visit hvisit
      · cases houtcome : (found.tree.evaluation times c.session.variables found.memory).outcome with
        | ok values => exact Tree.visits_finished _ _ _ _ houtcome visit hvisit
        | error fault =>
          refine (hanswer fault ?_).elim
          simp only [Session.step, Session.withFormula, hfound, Session.eval, houtcome]
    · exact h formula visit hvisit
  next => exact h formula visit hvisit

theorem Finished.step (h : c.Finished) {request : Request}
    (hanswer : ∀ fault, (c.session.step request).1 ≠ .failed (.fault fault)) :
    (c.step request).Finished := by
  cases request with
  | parse parsed text => exact h.parse parsed text
  | eval evaluated times => exact h.eval hanswer
  | evaluate | environments | walk | shown | set | get | remove | share | useFunctions => exact h

theorem Finished.after (h : c.Finished) {requests : List Request}
    (hanswers : ∀ answered ∈ c.session.run requests, ∀ fault,
      answered.1 ≠ .failed (.fault fault)) : (c.after requests).Finished := by
  induction requests generalizing c with
  | nil => exact h
  | cons request rest ih =>
    obtain ⟨hfirst, hrest⟩ := List.forall_mem_cons.mp hanswers
    exact ih (h.step hfirst) hrest

end Chronicle

end Formula
