import Formula.Proofs.CallHistories
import Formula.Proofs.Tokenizing
import Formula.Proofs.NestingRuns
import Formula.Proofs.WholeDoubles

namespace Formula

namespace Action

/-- Counts how often its call is evaluated. -/
def counting : Action Float := do
  let n := (← readD "n" 0) + 1
  write "n" n
  return n

/-- Adds up the values of its argument. -/
def summing : Action Float := do
  let total ← readD "total" 0
  let total := total + (← eval 0)
  write "total" total
  return total

variable {finished : Bool} {env later : Environment} {values : List Float}

theorem replay_counting (h : counting.replay finished env values = some later) :
    later = env.insert "n" ((env.find? "n").getD 0 + 1) := by
  match finished, values with
  | true, [] => exact (Option.some.inj h).symm
  | false, [] | _, _ :: _ => cases h

/-- Nothing is added where the argument has met a fault. -/
theorem replay_summing (h : summing.replay finished env values = some later) :
    (finished = true ∧ ∃ value, values = [value] ∧
      later = env.insert "total" ((env.find? "total").getD 0 + value)) ∨
    (finished = false ∧ values = [] ∧ later = env) := by
  match finished, values with
  | true, [value] => exact .inl ⟨rfl, value, rfl, (Option.some.inj h).symm⟩
  | false, [] => exact .inr ⟨rfl, rfl, (Option.some.inj h).symm⟩
  | true, [] | false, [_] | _, _ :: _ :: _ => cases h

end Action

namespace Function

def counter : Function :=
  ⟨some "counter", some 0, fun _ => .counting⟩

def accum : Function :=
  ⟨some "accum", some 1, fun _ => .summing⟩

end Function

/-- A natural number as doubles count it. -/
def tally (count : Nat) : Float :=
  Double.ofInt (min count (2 ^ 53) : Nat)

theorem tally_add_one (count : Nat) : tally count + 1 = tally (count + 1) := by
  unfold tally
  by_cases hlt : count < 2 ^ 53
  · have hleft : min count (2 ^ 53) = count := by omega
    have hright : min (count + 1) (2 ^ 53) = count + 1 := by omega
    rw [hleft, hright]
    exact Double.ofInt_add_one hlt
  · have hleft : min count (2 ^ 53) = 2 ^ 53 := by omega
    have hright : min (count + 1) (2 ^ 53) = 2 ^ 53 := by omega
    rw [hleft, hright]
    exact Double.ofInt_greatest_add_one

section Visits

variable {env later : Environment} {visits : List Visit}

theorem replayAll_counting {count : Nat} (hown : ∀ visit ∈ visits, visit.action = .counting)
    (henv : (env.find? "n").getD 0 = tally count) (h : Visit.replayAll env visits = some later) :
    (later.find? "n").getD 0 = tally (count + visits.length) := by
  induction visits generalizing env count with
  | nil =>
    cases h
    exact henv
  | cons visit rest ih =>
    obtain ⟨middle, hfirst, hrest⟩ := Option.bind_eq_some_iff.mp h
    obtain ⟨haction, hothers⟩ := List.forall_mem_cons.mp hown
    unfold Visit.replay at hfirst
    rw [haction] at hfirst
    have hmiddle := Action.replay_counting hfirst
    have hnext : (middle.find? "n").getD 0 = tally (count + 1) := by
      rw [hmiddle, Table.find?_insert_self, henv]
      exact tally_add_one count
    have hlater := ih hothers hnext hrest
    rw [hlater, List.length_cons]
    congr 1
    omega

theorem replayAll_summing (hown : ∀ visit ∈ visits, visit.action = .summing)
    (h : Visit.replayAll env visits = some later) :
    (∀ visit ∈ visits, visit.values.length = if visit.finished then 1 else 0) ∧
      (later.find? "total").getD 0 =
        (visits.flatMap Visit.values).foldl (· + ·) ((env.find? "total").getD 0) := by
  induction visits generalizing env with
  | nil =>
    cases h
    exact ⟨fun _ h => (List.not_mem_nil h).elim, rfl⟩
  | cons visit rest ih =>
    obtain ⟨middle, hfirst, hrest⟩ := Option.bind_eq_some_iff.mp h
    obtain ⟨haction, hothers⟩ := List.forall_mem_cons.mp hown
    unfold Visit.replay at hfirst
    rw [haction] at hfirst
    obtain ⟨hlengths, hsum⟩ := ih hothers hrest
    rw [List.forall_mem_cons, List.flatMap_cons, List.foldl_append, hsum]
    rcases Action.replay_summing hfirst with
      ⟨hfinished, value, hvalue, rfl⟩ | ⟨hfinished, hvalues, rfl⟩
    · refine ⟨⟨by simp [hvalue, hfinished], hlengths⟩, ?_⟩
      rw [Table.find?_insert_self, hvalue]
      rfl
    · refine ⟨⟨by simp [hvalues, hfinished], hlengths⟩, ?_⟩
      rw [hvalues]
      rfl

end Visits

/-- What the environment of a call has come to: the visits to the call are evaluations of its own
function, and each has found what the one before it left, the first nothing. -/
structure CallHistory (action : Action Float) (visits : List Visit) (env : Environment) :
    Prop where
  own : ∀ visit ∈ visits, visit.action = action
  explained : Visit.replayAll .empty visits = some env

namespace CallHistory

variable {action : Action Float} {visits : List Visit} {env : Environment}

theorem counted (h : CallHistory .counting visits env) :
    (env.find? "n").getD 0 = tally visits.length := by
  have hnone : ((Table.empty : Environment).find? "n").getD 0 = tally 0 := by rfl
  have hcount := replayAll_counting h.own hnone h.explained
  rw [Nat.zero_add] at hcount
  exact hcount

theorem summed (h : CallHistory .summing visits env) :
    (∀ visit ∈ visits, visit.values.length = if visit.finished then 1 else 0) ∧
      (env.find? "total").getD 0 = (visits.flatMap Visit.values).foldl (· + ·) 0 :=
  replayAll_summing h.own h.explained

end CallHistory

theorem Explains.callHistory {tree : Tree} {visits : List Visit} {memory : Memory}
    (h : Explains (tree.callsAt []) .empty visits memory) {site : Path} {f : Function}
    {args : List Tree} (hcall : (site, Tree.call f args) ∈ tree.callsAt []) :
    CallHistory (f.body args.length) (visitsAt site visits) (memory.environment site) := by
  refine ⟨?_, h.own site⟩
  intro visit hvisit
  obtain ⟨hmem, hsite⟩ := mem_visitsAt.mp hvisit
  obtain ⟨g, inner, hother, haction⟩ := h.belong visit hmem
  -- There is one call only at the place of the visit.
  rw [hsite] at hother
  cases Tree.eq_of_callsAt hcall hother
  exact haction

theorem Explains.environment_eq {tree tree' : Tree} {visits visits' : List Visit}
    {memory memory' : Memory} {site : Path} (h : Explains (tree.callsAt []) .empty visits memory)
    (h' : Explains (tree'.callsAt []) .empty visits' memory')
    (hsame : visitsAt site visits' = visitsAt site visits) :
    memory'.environment site = memory.environment site := by
  have hown := h'.own site
  rw [hsame] at hown
  exact Option.some.inj (hown.symm.trans (h.own site))

/-- At any time in any session the environments of calls are isolated. Each call in the tree of a
kept formula has a place of its own, and its environment is what the evaluations of that very call,
since the tree was parsed, have made of an empty one; a request that does not evaluate the call
leaves it as it is. So a call that counts has counted its own evaluations, as far as doubles count,
and one that adds up has the sum, from left to right, of the values that its argument had in these.
All evaluations have come to their ends, unless a request has met a fault. -/
theorem environments_isolated (functions : Functions) (vars : Variables)
    (requests : List Request) (formula : String) (kept : KeptFormula)
    (h : ((Chronicle.start functions vars).after requests).session.formulas.find? formula =
      some kept) :
    let s := Session.start functions vars
    let c := (Chronicle.start functions vars).after requests
    let calls := kept.tree.callsAt []
    c.session = ((s.run requests).map Prod.snd).getLastD s ∧
    calls.map Prod.snd = kept.tree.walk.filter Tree.isCall ∧ (calls.map Prod.fst).Nodup ∧
    (∀ site f args, (site, Tree.call f args) ∈ calls →
      let visits := visitsAt site (c.visits formula)
      let env := kept.memory.environment site
      CallHistory (f.body args.length) visits env ∧
      (f.body args.length = .counting → (env.find? "n").getD 0 = tally visits.length) ∧
      (f.body args.length = .summing →
        (∀ visit ∈ visits, visit.values.length = if visit.finished then 1 else 0) ∧
        (env.find? "total").getD 0 = (visits.flatMap Visit.values).foldl (· + ·) 0)) ∧
    ((∀ answered ∈ s.run requests, ∀ fault, answered.1 ≠ .failed (.fault fault)) →
      ∀ visit ∈ c.visits formula, visit.finished = true) ∧
    ∀ request later, (c.step request).session.formulas.find? formula = some later → ∀ site,
      visitsAt site ((c.step request).visits formula) = visitsAt site (c.visits formula) →
      later.memory.environment site = kept.memory.environment site := by
  intro s c calls
  have hexplained : c.Explained := (Chronicle.explained_start functions vars).after requests
  have hkept := hexplained formula kept h
  refine ⟨Chronicle.session_after _ requests, Tree.map_snd_callsAt [] kept.tree, ?_, ?_, ?_, ?_⟩
  · rw [Tree.map_fst_callsAt]
    exact Tree.nodup_sites [] kept.tree
  · intro site f args hcall visits env
    have hhistory := hkept.callHistory hcall
    refine ⟨hhistory, ?_, ?_⟩
    · intro hcounting
      rw [hcounting] at hhistory
      exact hhistory.counted
    · intro hsumming
      rw [hsumming] at hhistory
      exact hhistory.summed
  · intro hanswers
    exact (Chronicle.finished_start functions vars).after hanswers formula
  · intro request later hlater site hsame
    exact hkept.environment_eq (hexplained.step request formula later hlater) hsame

theorem tokenize_accum_counter : tokenize "accum(counter())" =
    .ok [⟨.identifier, "accum"⟩, .opening, ⟨.identifier, "counter"⟩, .opening, .closing,
      .closing] := by
  refine tokenize_iff.mpr ⟨?_, ?_, ?_⟩
  · exact adjoinedFrom_cons.mpr ⟨rfl, adjoinedFrom_cons.mpr ⟨trivial, adjoinedFrom_cons.mpr ⟨rfl,
      adjoinedFrom_cons.mpr ⟨trivial, adjoinedFrom_cons.mpr ⟨trivial, adjoinedFrom_cons.mpr
      ⟨trivial, adjoinedFrom_nil _⟩⟩⟩⟩⟩⟩
  · have haccum : Lexer.IsIdentifier "accum".toList :=
      ⟨by decide, List.all_eq_true.mp (by decide)⟩
    have hcounter : Lexer.IsIdentifier "counter".toList :=
      ⟨by decide, List.all_eq_true.mp (by decide)⟩
    intro t ht
    simp only [List.mem_cons, List.not_mem_nil, or_false] at ht
    rcases ht with rfl | rfl | rfl | rfl | rfl | rfl
    · exact haccum
    · rfl
    · exact hcounter
    · rfl
    · rfl
    · rfl
  · exact .token _ (.token _ (.token _ (.token _ (.token _ (.token _ .nil)))))

/-- Two evaluations, each of the call that adds up and of the one that counts in its argument. -/
theorem environments_isolated_accum_counter :
    let functions : Functions := .ofList [("accum", .accum), ("counter", .counter)]
    let requests : List Request := [.parse "t" "accum(counter())", .eval "t" 2]
    let s := Session.start functions .empty
    let c := (Chronicle.start functions .empty).after requests
    ∃ kept, c.session.formulas.find? "t" = some kept ∧
      (kept.memory.environment [0]).find? "n" = some 2 ∧
      (kept.memory.environment []).find? "total" = some 3 ∧
      let calls := kept.tree.callsAt []
      c.session = ((s.run requests).map Prod.snd).getLastD s ∧
      calls.map Prod.snd = kept.tree.walk.filter Tree.isCall ∧ (calls.map Prod.fst).Nodup ∧
      (∀ site f args, (site, Tree.call f args) ∈ calls →
        let visits := visitsAt site (c.visits "t")
        let env := kept.memory.environment site
        CallHistory (f.body args.length) visits env ∧
        (f.body args.length = .counting → (env.find? "n").getD 0 = tally visits.length) ∧
        (f.body args.length = .summing →
          (∀ visit ∈ visits, visit.values.length = if visit.finished then 1 else 0) ∧
          (env.find? "total").getD 0 = (visits.flatMap Visit.values).foldl (· + ·) 0)) ∧
      ((∀ answered ∈ s.run requests, ∀ fault, answered.1 ≠ .failed (.fault fault)) →
        ∀ visit ∈ c.visits "t", visit.finished = true) ∧
      ∀ request later, (c.step request).session.formulas.find? "t" = some later → ∀ site,
        visitsAt site ((c.step request).visits "t") = visitsAt site (c.visits "t") →
        later.memory.environment site = kept.memory.environment site := by
  intro functions requests s c
  have hparsed : (parse functions .empty "accum(counter())").outcome =
      .ok (.call .accum [.call .counter []]) := by
    rw [parse_outcome tokenize_accum_counter]
    rfl
  have hevaluated (vars : Variables) :
      Tree.evaluation (.call .accum [.call .counter []]) 2 vars .empty =
        ⟨.ok [0 + (0 + 1), 0 + (0 + 1) + (0 + 1 + 1)], vars, ⟨[([0], ⟨[("n", 0 + 1 + 1)]⟩),
          ([], ⟨[("total", 0 + (0 + 1) + (0 + 1 + 1))]⟩)]⟩⟩ := by
    rfl
  have hkept : c.session.formulas.find? "t" = some ⟨.call .accum [.call .counter []],
      ⟨[([0], ⟨[("n", 0 + 1 + 1)]⟩), ([], ⟨[("total", 0 + (0 + 1) + (0 + 1 + 1))]⟩)]⟩⟩ := by
    simp only [c, requests, Chronicle.after, Chronicle.step, Chronicle.start, List.foldl_cons,
      List.foldl_nil, Session.step, Session.parse, Session.start, hparsed, Session.withFormula,
      Table.find?_insert_self, Session.eval, hevaluated]
  exact ⟨_, hkept, rfl, rfl, environments_isolated functions .empty requests "t" _ hkept⟩

end Formula
