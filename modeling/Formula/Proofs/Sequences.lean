import Formula.Proofs.EntriesInTurn
import Formula.Proofs.EntriesRead
import Formula.Proofs.LongerTexts

namespace Formula

open Formula.Parser

variable {functions : Functions} {vars : Variables} {first second text : String}
  {tokens more : List Token} {entries : List Tree}

theorem tokenize_comma (hfirst : tokenize first = .ok tokens)
    (hsecond : tokenize second = .ok more) :
    tokenize (first ++ "," ++ second) = .ok (tokens ++ Token.comma :: more) := by
  obtain ⟨hadjoined, hlexical, hrenders⟩ := tokenize_iff.mp hfirst
  obtain ⟨hadjoinedMore, hlexicalMore, hrendersMore⟩ := tokenize_iff.mp hsecond
  have hbehind : ∀ expected, AdjoinedFrom expected (Token.comma :: more) := fun _ =>
    adjoinedFrom_cons.mpr ⟨trivial, hadjoinedMore⟩
  refine tokenize_iff.mpr ⟨hadjoined.append hbehind, ?_, ?_⟩
  · intro t ht
    rcases List.mem_append.mp ht with ht | ht
    · exact hlexical t ht
    · rcases List.mem_cons.mp ht with rfl | ht
      · rfl
      · exact hlexicalMore t ht
  · have htext : (first ++ "," ++ second).toList = first.toList ++ (',' :: second.toList) := by simp
    rw [htext]
    exact hrenders.append (.token Token.comma hrendersMore)

theorem balanced_comma (hfirst : Balanced tokens) (hsecond : Balanced more) :
    Balanced (tokens ++ Token.comma :: more) := by
  rw [Balanced, List.foldlM_append, hfirst]
  exact hsecond

/-- A text with balanced tokens that can be read over any variables. -/
structure ReadsText (functions : Functions) (text : String) (tokens : List Token) : Prop where
  tokenized : tokenize text = .ok tokens
  balanced : Balanced tokens
  reads : ∀ vars, ∃ entries behind, Reads functions vars tokens entries behind

theorem ReadsText.of_parse {tree : Tree} (hparse : (parse functions vars text).outcome = .ok tree)
    (hbalanced : ∀ tokens, tokenize text = .ok tokens → Balanced tokens) :
    ∃ tokens, ReadsText functions text tokens := by
  cases htokens : tokenize text with
  | error error =>
    simp only [parse, ParserState.parseText, htokens] at hparse
    cases hparse
  | ok tokens =>
    have hread := hbalanced tokens htokens
    rw [parse_of_tokenize htokens, parseTokens_ok_iff] at hparse
    obtain ⟨entries, behind, hreads, _⟩ := (readFormula_reads hread).mp hparse
    exact ⟨tokens, htokens, hread, hreads.anywhere hread⟩

theorem ReadsText.comma (hfirst : ReadsText functions first tokens)
    (hsecond : ReadsText functions second more) :
    ReadsText functions (first ++ "," ++ second) (tokens ++ Token.comma :: more) := by
  refine ⟨tokenize_comma hfirst.tokenized hsecond.tokenized,
    balanced_comma hfirst.balanced hsecond.balanced, fun vars => ?_⟩
  obtain ⟨entries, middle, hreads⟩ := hfirst.reads vars
  obtain ⟨others, behind, hmore⟩ := hsecond.reads middle
  exact ⟨_, _, hreads.comma hfirst.balanced hsecond.balanced hmore⟩

theorem ReadsText.parse (h : ReadsText functions text tokens) {behind : Variables}
    (hreads : Reads functions vars tokens entries behind) :
    (parse functions vars text).outcome = .ok (Tree.ofGroup entries) ∧
      (parse functions vars text).parser.variables = behind := by
  obtain ⟨n, hread, hfinish, rfl⟩ := hreads.formula h.balanced
  refine ⟨?_, parse_variables h.tokenized hread hfinish⟩
  rw [parse_of_tokenize h.tokenized, parseTokens_ok_iff, Nesting.readFormula, hread]
  exact hfinish

theorem ReadsText.evaluate (h : ReadsText functions text tokens) {behind : Variables}
    (hreads : Reads functions vars tokens entries behind) :
    evaluate functions vars text =
      outcomeOver behind ((Tree.ofGroup entries).evaluateNew.run behind.values) := by
  obtain ⟨houtcome, hvariables⟩ := h.parse hreads
  rw [Formula.evaluate, Attempt.evaluate, houtcome, hvariables, ← evaluateOnce_eq]

/-- Outcomes with the same value or the same failure, over cells that hold the same. With a value
the same names stand for them. -/
structure OutcomeAlike (x y : Except Failure Float × Variables) : Prop where
  value : x.1 = y.1
  read : ∀ cell, x.2.values.read cell = y.2.values.read cell
  sameCells : ∀ a, x.1 = .ok a → x.2.SameCells y.2

theorem OutcomeAlike.refl (x : Except Failure Float × Variables) : OutcomeAlike x x :=
  ⟨rfl, fun _ => rfl, fun _ _ => .refl _⟩

theorem OutcomeAlike.trans {x y z : Except Failure Float × Variables} (h : OutcomeAlike x y)
    (hlast : OutcomeAlike y z) : OutcomeAlike x z :=
  ⟨h.value.trans hlast.value, fun cell => (h.read cell).trans (hlast.read cell),
    fun a ha => (h.sameCells a ha).trans (hlast.sameCells a (h.value ▸ ha))⟩

/-- After a fault the names may differ, since the one may have been read for more of them. -/
theorem ResultRelated.outcome {bound bound' : Nat} {vars' : Variables}
    {x y z : EStateM.Result Fault Values Float} (hx : ResultRelated (Values.Alike bound) x z)
    (hy : ResultRelated (Values.Alike bound') y z)
    (hcells : ∀ a values, y = .ok a values → vars.SameCells vars') :
    OutcomeAlike (outcomeOver vars x) (outcomeOver vars' y) := by
  cases hx with
  | fault fault hleft =>
    cases hy with
    | fault _ hleft' =>
      exact ⟨rfl, fun cell => (hleft.read cell).trans (hleft'.read cell).symm, by rintro a ⟨⟩⟩
  | value a hvalues =>
    cases hy with
    | value _ hvalues' =>
      have hsame := hcells a _ rfl
      exact ⟨rfl, fun cell => (hvalues.read cell).trans (hvalues'.read cell).symm,
        fun _ _ => ⟨hsame.cells, hsame.next⟩⟩

/-- Two texts with a comma between them do what the first one does and then what the second one does
over the variables that the first one leaves. -/
theorem evaluate_comma (hvars : vars.Sound) (hfirst : ReadsText functions first tokens)
    (hsecond : ReadsText functions second more) (hvalue : ∃ t ∈ more, t.kind ≠ .comma) :
    (∃ failure vars', evaluate functions vars first = (.error failure, vars') ∧
      OutcomeAlike (evaluate functions vars (first ++ "," ++ second)) (.error failure, vars')) ∨
    ∃ value behind, evaluate functions vars first = (.ok value, behind) ∧ behind.Sound ∧
      OutcomeAlike (evaluate functions vars (first ++ "," ++ second))
        (evaluate functions behind second) := by
  obtain ⟨entries, middle, hreads⟩ := hfirst.reads vars
  obtain ⟨others, last, hmore⟩ := hsecond.reads middle
  have hboth := hreads.comma hfirst.balanced hsecond.balanced hmore
  have hmiddle := (hreads.grown hvars).sound
  have hlast := hmore.grown hmiddle
  have hjoined := evaluateNew_ofGroup (hboth.below hvars) (hlast.sound.alike fun _ => rfl)
  have halone := evaluateNew_ofGroup (hreads.below hvars)
    (hmiddle.alike fun cell => (hlast.read cell).symm)
  rw [(hfirst.comma hsecond).evaluate hboth, hfirst.evaluate hreads]
  rw [evaluateEach_append, EStateM.run_bind] at hjoined
  generalize (Tree.ofGroup entries).evaluateNew.run middle.values = result at halone
  generalize (evaluateEach 0 entries).run last.values = result' at halone hjoined
  cases halone with
  | fault fault hleft =>
    refine .inl ⟨_, _, rfl, ?_⟩
    exact hjoined.outcome (.fault fault hleft) (by rintro a values ⟨⟩)
  | @value value values values' hvalues =>
    -- The second text finds the cells of the joined one, whatever the first one has written there.
    have hbehind : Variables.Sound { middle with values := values } := hmiddle.evaluated hvalues
    have hcells : middle.SameCells { middle with values := values } := ⟨rfl, rfl⟩
    obtain ⟨behind, hreads', hsame⟩ := hmore.sameCells hsecond.balanced hcells
    have hgrown := hreads'.grown hbehind
    have hlater := evaluateNew_ofGroup (hreads'.below hbehind)
      (hgrown.sound.alike fun cell => (hgrown.read cell).trans (hvalues.read cell))
    refine .inr ⟨value, _, rfl, hbehind, ?_⟩
    rw [hsecond.evaluate hreads']
    have hothers : others ≠ [] := hmore.ne_nil hsecond.balanced hvalue
    rw [evaluateEach_of_ne_nil hothers 0 value] at hlater
    exact hjoined.outcome hlater fun _ _ _ => hsame

/-- A text that some parse accepts. Others accept it too if its parentheses have their partners. -/
def Accepted (functions : Functions) (text : String) : Prop :=
  ∃ vars tree, (parse functions vars text).outcome = .ok tree

/-- Evaluates texts in turn, each over the variables that the one before it leaves, up to the first
one without a value. -/
def evaluateInTurn (functions : Functions) : Variables → List String →
    Except Failure Float × Variables
  | vars, [] => (.ok 0, vars)
  | vars, [text] => evaluate functions vars text
  | vars, text :: rest =>
    match evaluate functions vars text with
    | (.ok _, vars) => evaluateInTurn functions vars rest
    | (.error failure, vars) => (.error failure, vars)

theorem ReadsText.intercalate {rest : List String} (hfirst : ReadsText functions first tokens)
    (hrest : ∀ text ∈ rest, ∃ tokens, ReadsText functions text tokens) :
    ∃ behind, ReadsText functions (String.intercalate "," (first :: rest)) (tokens ++ behind) := by
  induction rest generalizing first tokens with
  | nil => exact ⟨[], by simpa using hfirst⟩
  | cons next rest ih =>
    obtain ⟨tokensNext, hnext⟩ := hrest next (by simp)
    obtain ⟨behind, hbehind⟩ := ih hnext (fun text htext => hrest text (by simp [htext]))
    rw [String.intercalate_cons_cons]
    exact ⟨_, hfirst.comma hbehind⟩

theorem outcomeAlike_intercalate {rest : List String} (hvars : vars.Sound)
    (hfirst : ReadsText functions first tokens)
    (hrest : ∀ text ∈ rest, ∃ tokens, ReadsText functions text tokens ∧
      ∃ t ∈ tokens, t.kind ≠ .comma) :
    OutcomeAlike (evaluate functions vars (String.intercalate "," (first :: rest)))
      (evaluateInTurn functions vars (first :: rest)) := by
  induction rest generalizing vars first tokens with
  | nil =>
    have halone : String.intercalate "," [first] = first := by simp
    rw [halone]
    exact .refl _
  | cons next rest ih =>
    obtain ⟨tokensNext, hnext, t, ht, hk⟩ := hrest next (by simp)
    have hlater : ∀ text ∈ rest, ∃ tokens, ReadsText functions text tokens ∧
        ∃ t ∈ tokens, t.kind ≠ .comma := fun text htext => hrest text (by simp [htext])
    obtain ⟨behind, hbehind⟩ := hnext.intercalate fun text htext =>
      (hlater text htext).imp fun _ h => h.1
    have hvalue : ∃ t ∈ tokensNext ++ behind, t.kind ≠ .comma := ⟨t, by simp [ht], hk⟩
    rw [String.intercalate_cons_cons]
    rcases evaluate_comma hvars hfirst hbehind hvalue with
      ⟨failure, vars', hfails, hjoined⟩ | ⟨value, vars', hvalue, hsound, halike⟩
    · simp only [evaluateInTurn, hfails]
      exact hjoined
    · simp only [evaluateInTurn, hvalue]
      exact halike.trans (ih hsound hnext hlater)

/-- A comma means "then". Accepted texts whose parentheses have their partners are an accepted text
with commas between them, if more than commas stands in each but the first. Evaluated once, it has
the value or the failure of evaluating the texts one after the other and leaves the same in cells,
and with a value it leaves the same variables. -/
theorem evaluate_intercalate (functions : Functions) (vars : Variables) (first : String)
    (rest : List String) (hvars : vars.Sound)
    (haccepted : ∀ text ∈ first :: rest, Accepted functions text)
    (hbalanced : ∀ text ∈ first :: rest, ∀ tokens, tokenize text = .ok tokens → Balanced tokens)
    (hvalues : ∀ text ∈ rest, ∀ tokens, tokenize text = .ok tokens →
      ∃ t ∈ tokens, t.kind ≠ .comma) :
    let whole := String.intercalate "," (first :: rest)
    (∃ tree, (parse functions vars whole).outcome = .ok tree) ∧
      OutcomeAlike (evaluate functions vars whole)
        (evaluateInTurn functions vars (first :: rest)) := by
  have hreads : ∀ text ∈ first :: rest, ∃ tokens, ReadsText functions text tokens := by
    intro text htext
    obtain ⟨_, tree, hparse⟩ := haccepted text htext
    exact ReadsText.of_parse hparse (hbalanced text htext)
  have hrest : ∀ text ∈ rest, ∃ tokens, ReadsText functions text tokens ∧
      ∃ t ∈ tokens, t.kind ≠ .comma := by
    intro text htext
    obtain ⟨tokens, htokens⟩ := hreads text (by simp [htext])
    exact ⟨tokens, htokens, hvalues text htext tokens htokens.tokenized⟩
  obtain ⟨tokens, hfirst⟩ := hreads first (by simp)
  obtain ⟨behind, hwhole⟩ := hfirst.intercalate fun text htext =>
    (hrest text htext).imp fun _ h => h.1
  obtain ⟨entries, last, hentries⟩ := hwhole.reads vars
  exact ⟨⟨_, (hwhole.parse hentries).1⟩, outcomeAlike_intercalate hvars hfirst hrest⟩

theorem tokenize_y_assign_x : tokenize "y=x" =
    .ok [⟨.identifier, "y"⟩, .ofOperator .assign, ⟨.identifier, "x"⟩] := by
  refine tokenize_iff.mpr ⟨?_, ?_, .token _ (.token _ (.token _ .nil))⟩
  · have assign : Token.FitsWhere false (.ofOperator .assign) := Token.ofOperator_fitsWhere.mpr rfl
    exact adjoinedFrom_cons.mpr ⟨rfl, adjoinedFrom_cons.mpr ⟨assign,
      adjoinedFrom_cons.mpr ⟨rfl, adjoinedFrom_nil _⟩⟩⟩
  · intro t ht
    simp only [List.mem_cons, List.not_mem_nil, or_false] at ht
    rcases ht with rfl | rfl | rfl
    · exact ⟨by decide, by simp⟩
    · exact ⟨.assign, rfl⟩
    · exact ⟨by decide, by simp⟩

theorem tokenize_y : tokenize "y" = .ok [⟨.identifier, "y"⟩] :=
  tokenize_identifier ⟨by decide, by simp⟩

/-- The first text makes `y` what `x` is, and the second one reads it. -/
theorem evaluate_intercalate_assign :
    let vars := Variables.empty.define "x" 3 true
    let whole := String.intercalate "," ["y=x", "y"]
    vars.Sound ∧ (∀ text ∈ ["y=x", "y"], Accepted .empty text) ∧
      (∀ text ∈ ["y=x", "y"], ∀ tokens, tokenize text = .ok tokens → Balanced tokens) ∧
      (∀ text ∈ ["y"], ∀ tokens, tokenize text = .ok tokens → ∃ t ∈ tokens, t.kind ≠ .comma) ∧
      (∃ tree, (parse .empty vars whole).outcome = .ok tree) ∧
      OutcomeAlike (evaluate .empty vars whole) (evaluateInTurn .empty vars ["y=x", "y"]) := by
  have hvars : (Variables.empty.define "x" 3 true).Sound := Variables.sound_empty.define "x" 3 true
  have haccepted : ∀ text ∈ ["y=x", "y"], Accepted .empty text := by
    intro text htext
    simp only [List.mem_cons, List.not_mem_nil, or_false] at htext
    rcases htext with rfl | rfl
    · refine ⟨.empty, ?_⟩
      rw [parse_outcome tokenize_y_assign_x]
      exact ⟨_, rfl⟩
    · refine ⟨.empty, ?_⟩
      rw [parse_outcome tokenize_y]
      exact ⟨_, rfl⟩
  have hbalanced : ∀ text ∈ ["y=x", "y"], ∀ tokens, tokenize text = .ok tokens →
      Balanced tokens := by
    intro text htext tokens htokens
    simp only [List.mem_cons, List.not_mem_nil, or_false] at htext
    rcases htext with rfl | rfl
    · cases tokenize_y_assign_x.symm.trans htokens
      rfl
    · cases tokenize_y.symm.trans htokens
      rfl
  have hvalues : ∀ text ∈ ["y"], ∀ tokens, tokenize text = .ok tokens →
      ∃ t ∈ tokens, t.kind ≠ .comma := by
    intro text htext tokens htokens
    cases List.mem_singleton.mp htext
    cases tokenize_y.symm.trans htokens
    exact ⟨_, List.mem_cons_self, by decide⟩
  exact ⟨hvars, haccepted, hbalanced, hvalues,
    evaluate_intercalate .empty _ "y=x" ["y"] hvars haccepted hbalanced hvalues⟩

end Formula
