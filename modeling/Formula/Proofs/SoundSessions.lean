import Formula.Session
import Formula.Proofs.EntriesInTurn
import Formula.Proofs.SoundVariables

namespace Formula

open Formula.Parser

variable {functions : Functions} {vars later : Variables} {tree : Tree} {text : String}

theorem Tree.Below.mono {bound bound' : Nat} (h : tree.Below bound) (hbound : bound ≤ bound') :
    tree.Below bound' :=
  fun cell hcell => Nat.lt_of_lt_of_le (h cell hcell) hbound

/-- Whether it fails or not, a parse makes new cells at most. -/
theorem parse_grown (functions : Functions) (hvars : vars.Sound) (text : String) :
    vars.Grown (parse functions vars text).parser.variables := by
  cases htokens : tokenize text with
  | error error =>
    simp only [parse, ParserState.parseText, htokens]
    exact .refl hvars
  | ok tokens =>
    obtain ⟨before, n, hbefore, hleft⟩ := parseTokens_left functions vars tokens
    rw [parse_of_tokenize htokens, hleft]
    exact Nesting.acceptAll_grown (n := Nesting.start vars []) hvars hbefore

/-- The cells in a tree have been made. -/
theorem parse_below (hvars : vars.Sound) (h : (parse functions vars text).outcome = .ok tree) :
    tree.Below (parse functions vars text).parser.variables.next := by
  obtain ⟨tokens, n, htokens, hread, hfinish⟩ := parse_readings h
  obtain ⟨rest, -, -, hmade⟩ := Nesting.finished_of_ok hfinish
  rw [parse_variables htokens hread hfinish]
  exact Nesting.reduced_below hvars hread hmade tree (by simp)

/-- Evaluation over variables, and again over what it leaves. -/
theorem evalTimes_alike {bound : Nat} {kept : Memory} (htree : tree.Below bound) (times : Nat) :
    Eval.Alike bound [] [] kept (tree.evalTimes times) (tree.evalTimes times) := by
  have hsites : ∀ path, Eval.SitesRelated (Store.Alike bound [] [] kept) (fun _ => True)
      (path ++ []) (path ++ []) := Eval.sitesRelated_alike _
  simp only [List.append_nil] at hsites
  have hboth := Tree.evalTimes_related hsites htree.related times
  rw [Tree.mapCells_id] at hboth
  exact hboth

theorem evaluation_sound (hvars : vars.Sound) (htree : tree.Below vars.next) (times : Nat)
    (memory : Memory) : (tree.evaluation times vars memory).variables.Sound := by
  have hstores : Store.Alike vars.next [] [] memory ⟨vars.values, memory⟩ ⟨vars.values, memory⟩ :=
    ⟨hvars.alike fun _ => rfl, fun _ => rfl, fun _ _ => rfl⟩
  have halike := evalTimes_alike htree times _ _ hstores
  unfold Tree.evaluation
  generalize (tree.evalTimes times).run ⟨vars.values, memory⟩ = result at halike
  cases halike with
  | fault fault hleft => exact hvars.evaluated hleft.values
  | value values hafter => exact hvars.evaluated hafter.values

theorem evaluateOnce_sound (hvars : vars.Sound) (htree : tree.Below vars.next) :
    (evaluateOnce tree vars).2.Sound ∧ (evaluateOnce tree vars).2.next = vars.next := by
  rw [evaluateOnce_eq]
  have halike := evaluateNew_alike htree (hvars.alike fun _ => rfl)
  generalize tree.evaluateNew.run vars.values = result at halike ⊢
  cases halike with
  | fault fault hleft => exact ⟨hvars.evaluated hleft, rfl⟩
  | value _ hafter => exact ⟨hvars.evaluated hafter, rfl⟩

theorem evaluate_sound (functions : Functions) (hvars : vars.Sound) (text : String) :
    (evaluate functions vars text).2.Sound ∧ vars.next ≤ (evaluate functions vars text).2.next := by
  have hgrown := parse_grown functions hvars text
  rw [evaluate, Attempt.evaluate]
  cases h : (parse functions vars text).outcome with
  | error failure => exact ⟨hgrown.sound, hgrown.next⟩
  | ok tree =>
    obtain ⟨hsound, hnext⟩ := evaluateOnce_sound hgrown.sound (parse_below hvars h)
    exact ⟨hsound, hnext ▸ hgrown.next⟩

namespace Session

/-- Sound variables, and formulas with cells that have been made. -/
structure Sound (s : Session) : Prop where
  cells : s.variables.Sound
  formulas : ∀ name kept, s.formulas.find? name = some kept → kept.tree.Below s.variables.next

variable {s : Session}

theorem sound_start (functions : Functions) (hvars : vars.Sound) : (start functions vars).Sound :=
  ⟨hvars, fun _ _ h => by simp [start] at h⟩

/-- Other variables that are sound and keep the cells that have been made. -/
theorem Sound.over (h : s.Sound) (hlater : later.Sound) (hnext : s.variables.next ≤ later.next) :
    Sound { s with «variables» := later } :=
  ⟨hlater, fun name kept hkept => (h.formulas name kept hkept).mono hnext⟩

/-- A formula more, with cells that have been made. -/
theorem Sound.keep (h : s.Sound) {kept : KeptFormula} (hkept : kept.tree.Below s.variables.next)
    (formula : String) : Sound { s with formulas := s.formulas.insert formula kept } := by
  refine ⟨h.cells, fun name other hother => ?_⟩
  simp only [Table.find?_insert] at hother
  split at hother
  · cases hother
    exact hkept
  · exact h.formulas name other hother

theorem Sound.withCell (h : s.Sound) {name : String} {answer : Cell → Answer × Session}
    (hanswer : ∀ cell : Cell, cell.id < s.variables.next → (answer cell).2.Sound) :
    (s.withCell name answer).2.Sound := by
  rw [Session.withCell]
  split
  next cell hcell => exact hanswer cell (h.cells.named name cell hcell)
  next => exact h

theorem Sound.withFormula (h : s.Sound) {formula : String}
    {answer : KeptFormula → Answer × Session}
    (hanswer : ∀ kept, kept.tree.Below s.variables.next → (answer kept).2.Sound) :
    (s.withFormula formula answer).2.Sound := by
  rw [Session.withFormula]
  split
  next kept hkept => exact hanswer kept (h.formulas formula kept hkept)
  next => exact h

theorem Sound.parse (h : s.Sound) (formula text : String) : (s.parse formula text).2.Sound := by
  have hgrown := parse_grown s.functions h.cells text
  rw [Session.parse]
  split
  next tree htree =>
    exact (h.over hgrown.sound hgrown.next).keep (parse_below h.cells htree) formula
  next => exact h.over hgrown.sound hgrown.next

theorem Sound.evaluate (h : s.Sound) (text : String) : (s.evaluate text).2.Sound := by
  obtain ⟨hsound, hnext⟩ := evaluate_sound s.functions h.cells text
  rw [Session.evaluate]
  split
  all_goals
    next heq =>
      rw [heq] at hsound hnext
      exact h.over hsound hnext

theorem Sound.eval (h : s.Sound) (formula : String) (times : Nat) {kept : KeptFormula}
    (hkept : kept.tree.Below s.variables.next) : (s.eval formula times kept).2.Sound := by
  have hsound := evaluation_sound h.cells hkept times kept.memory
  have hover := h.over hsound (Nat.le_refl _)
  apply hover.keep
  exact hkept

theorem Sound.step (h : s.Sound) (request : Request) : (s.step request).2.Sound := by
  cases request with
  | parse formula text => exact h.parse formula text
  | evaluate text => exact h.evaluate text
  | eval formula times => exact h.withFormula fun _ hkept => h.eval formula times hkept
  | environments formula | walk formula | shown formula => exact h.withFormula fun _ _ => h
  | get name => exact h.withCell fun _ _ => h
  | set name value =>
    exact h.withCell fun _ hcell => h.over (h.cells.set hcell value) (Nat.le_refl _)
  | remove name => exact h.withCell fun _ _ => h.over (h.cells.remove name) (Nat.le_refl _)
  | share name source =>
    exact h.withCell fun _ hcell => h.over (h.cells.point hcell name) (Nat.le_refl _)
  | useFunctions functions => exact ⟨h.cells, h.formulas⟩

theorem Sound.run (h : s.Sound) (requests : List Request) :
    ∀ result ∈ s.run requests, result.2.Sound := by
  induction requests generalizing s with
  | nil => simp [Session.run]
  | cons request rest ih =>
    intro result hresult
    rcases List.mem_cons.mp hresult with rfl | hlater
    · exact h.step request
    · exact ih (h.step request) result hlater

/-- Whatever is requested of a session, its variables are sound if they are at the start. -/
theorem variables_sound (functions : Functions) (hvars : vars.Sound) (requests : List Request) :
    ∀ result ∈ (start functions vars).run requests, result.2.variables.Sound :=
  fun result hresult => ((sound_start functions hvars).run requests result hresult).cells

end Session

end Formula
