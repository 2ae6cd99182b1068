import Formula.Proofs.Sequences
import Formula.Proofs.WaitingOperators

namespace Formula

open Formula.Parser

/-- An operator stands outside parentheses, and no comma does so behind it. -/
def OperatorWaits (tokens : List Token) : Prop :=
  ∃ before op after, tokens = before ++ op :: after ∧ op.kind = .operator ∧ Balanced before ∧
    ∀ between comma rest, after = between ++ comma :: rest → comma.kind = .comma →
      ¬ Balanced between

section Waits

variable {tokens : List Token} {t : Token} {depth : Nat}

/-- An item that stands in a list stands at its end or in front of the last one. -/
theorem snoc_eq_append_cons {α : Type} {init before after : List α} {x y : α}
    (h : init ++ [x] = before ++ y :: after) :
    (before = init ∧ y = x ∧ after = []) ∨ ∃ mid, after = mid ++ [x] ∧ init = before ++ y :: mid := by
  rcases List.eq_nil_or_concat after with rfl | ⟨mid, last, rfl⟩
  · obtain ⟨rfl, hlast⟩ := List.append_inj' h rfl
    exact .inl ⟨rfl, (List.singleton_inj.mp hlast).symm, rfl⟩
  · have hsplit : init ++ [x] = (before ++ y :: mid) ++ [last] := by simpa using h
    obtain ⟨rfl, hlast⟩ := List.append_inj' hsplit rfl
    obtain rfl := List.singleton_inj.mp hlast
    exact .inr ⟨mid, List.concat_eq_append, rfl⟩

/-- Behind an operator that stands outside parentheses tokens are as deep as by themselves. -/
theorem balanced_behind {before after : List Token} {op : Token} (hbefore : Balanced before)
    (hop : op.kind = .operator) : Balanced (before ++ op :: after) ↔ Balanced after := by
  rw [Balanced, Balanced, List.foldlM_append, hbefore]
  simp [depthBehind, hop]

theorem not_operatorWaits_nil : ¬ OperatorWaits [] := by
  rintro ⟨before, op, after, hsplit, -⟩
  simp at hsplit

theorem operatorWaits_operator (hdepth : Balanced tokens) (hk : t.kind = .operator) :
    OperatorWaits (tokens ++ [t]) :=
  ⟨tokens, t, [], rfl, hk, hdepth, by simp⟩

theorem not_operatorWaits_comma (hdepth : Balanced tokens) (hk : t.kind = .comma) :
    ¬ OperatorWaits (tokens ++ [t]) := by
  rintro ⟨before, op, after, hsplit, hop, hbefore, hbehind⟩
  rcases snoc_eq_append_cons hsplit with ⟨-, rfl, -⟩ | ⟨mid, rfl, rfl⟩
  · rw [hop] at hk
    cases hk
  · exact hbehind mid t [] rfl hk ((balanced_behind hbefore hop).mp hdepth)

/-- Any other token changes nothing. -/
theorem operatorWaits_snoc (hk : Balanced tokens → t.kind ≠ .operator ∧ t.kind ≠ .comma) :
    OperatorWaits (tokens ++ [t]) ↔ OperatorWaits tokens := by
  constructor
  · rintro ⟨before, op, after, hsplit, hop, hbefore, hbehind⟩
    rcases snoc_eq_append_cons hsplit with ⟨rfl, rfl, -⟩ | ⟨mid, rfl, rfl⟩
    · exact absurd hop (hk hbefore).1
    · refine ⟨before, op, mid, rfl, hop, hbefore, ?_⟩
      rintro between comma rest rfl
      exact hbehind between comma (rest ++ [t]) (by simp)
  · rintro ⟨before, op, after, rfl, hop, hbefore, hbehind⟩
    refine ⟨before, op, after ++ [t], by simp, hop, hbefore, ?_⟩
    intro between comma rest hsplit hcomma hbetween
    rcases snoc_eq_append_cons hsplit with ⟨rfl, rfl, -⟩ | ⟨mid, rfl, rfl⟩
    · exact (hk ((balanced_behind hbefore hop).mpr hbetween)).2 hcomma
    · exact hbehind between comma mid rfl hcomma hbetween

end Waits

namespace Parser

/-- So many levels inside the group around all tokens, in which operators wait or not. -/
structure Nesting.WaitsBelow (n : Nesting) (depth : Nat) (waits : Prop) : Prop where
  levels : ∃ inner bottom, n.levels = inner ++ [bottom, .empty none] ∧ inner.length = depth ∧
    (bottom.operators ≠ [] ↔ waits)

variable {functions : Functions} {vars : Variables} {created : List String} {tokens : List Token}
  {n next : Nesting} {t : Token} {depth : Nat} {waits waits' : Prop}

/-- Work on the innermost level, which is the group around all tokens or lies inside it. -/
theorem Nesting.WaitsBelow.replace (h : n.WaitsBelow depth waits) (houter : next.outer = n.outer)
    (hinner : depth ≠ 0 → (waits' ↔ waits))
    (hcurrent : depth = 0 → (next.current.operators ≠ [] ↔ waits')) :
    next.WaitsBelow depth waits' := by
  obtain ⟨inner, bottom, hlevels, rfl, hwaits⟩ := h.levels
  cases inner with
  | nil =>
    obtain ⟨-, hbase⟩ := List.cons.inj hlevels
    exact ⟨[], next.current, by simp [Nesting.levels, houter, hbase], rfl, hcurrent rfl⟩
  | cons first inner =>
    obtain ⟨-, hrest⟩ := List.cons.inj hlevels
    exact ⟨next.current :: inner, bottom, by simp [Nesting.levels, houter, hrest], rfl,
      hwaits.trans (hinner (by simp)).symm⟩

theorem Nesting.WaitsBelow.of_zero (h : n.WaitsBelow 0 waits) :
    n.current.operators ≠ [] ↔ waits := by
  obtain ⟨inner, bottom, hlevels, hlength, hwaits⟩ := h.levels
  cases List.eq_nil_of_length_eq_zero hlength
  obtain ⟨hcurrent, -⟩ := List.cons.inj hlevels
  rw [hcurrent, hwaits]

theorem Nesting.WaitsBelow.keep (h : n.WaitsBelow depth waits) (houter : next.outer = n.outer)
    (hcurrent : next.current.operators = n.current.operators) : next.WaitsBelow depth waits := by
  refine h.replace houter (fun _ => Iff.rfl) ?_
  rintro rfl
  rw [hcurrent, h.of_zero]

theorem Nesting.WaitsBelow.accept {before : Nat} {m : Nesting}
    (hm : m.WaitsBelow before (OperatorWaits tokens))
    (hbefore : tokens.foldlM depthBehind 0 = some before) (ht' : depthBehind before t = some depth)
    (ht : m.accept functions t = .ok n) : n.WaitsBelow depth (OperatorWaits (tokens ++ [t])) := by
  -- A comma or an operator inside parentheses says nothing about the group around them.
  have hinside : before ≠ 0 → (OperatorWaits (tokens ++ [t]) ↔ OperatorWaits tokens) := by
    intro hne
    refine operatorWaits_snoc fun hbalanced => ?_
    cases hbefore.symm.trans hbalanced
    exact absurd rfl hne
  have hother (hk : t.kind ≠ .operator ∧ t.kind ≠ .comma) :
      OperatorWaits (tokens ++ [t]) = OperatorWaits tokens :=
    propext (operatorWaits_snoc fun _ => hk)
  cases Nesting.accepts_of_ok ht with
  | opening hk =>
    obtain rfl : before + 1 = depth := by simpa [depthBehind, hk] using ht'
    rw [hother (by simp [hk])]
    obtain ⟨inner, bottom, hlevels, rfl, hwaits⟩ := hm.levels
    refine ⟨.empty m.awaited :: inner, bottom, ?_, rfl, hwaits⟩
    rw [List.cons_append, ← hlevels]
    rfl
  | @closing made tree level outer hk hn houter hmade htree =>
    obtain ⟨hpos, rfl⟩ : before ≠ 0 ∧ before - 1 = depth := by simpa [depthBehind, hk] using ht'
    rw [hother (by simp [hk])]
    obtain ⟨inner, bottom, hlevels, rfl, hwaits⟩ := hm.levels
    cases inner with
    | nil => exact absurd rfl hpos
    | cons first inner =>
      obtain ⟨-, hrest⟩ := List.cons.inj hlevels
      have haround : (Nesting.mk none level outer m.vars m.created).WaitsBelow inner.length
          (OperatorWaits tokens) :=
        ⟨inner, bottom, houter.symm.trans hrest, rfl, hwaits⟩
      exact haround.keep rfl rfl
  | comma hk =>
    obtain rfl : before = depth := by simpa [depthBehind, hk] using ht'
    refine hm.replace rfl hinside ?_
    rintro rfl
    simp [not_operatorWaits_comma hbefore hk]
  | number hk | key hk | name hk =>
    obtain rfl : before = depth := by simpa [depthBehind, hk] using ht'
    rw [hother (by simp [hk])]
    exact hm.keep rfl rfl
  | operator hk hn hop hlevel =>
    obtain rfl : before = depth := by simpa [depthBehind, hk] using ht'
    refine hm.replace rfl hinside ?_
    rintro rfl
    simp [operatorWaits_operator hbefore hk, Level.pushOperator_waits hlevel]

/-- Operators wait in the group around tokens as the tokens say. -/
theorem waitsBelow_operatorWaits (hdepth : tokens.foldlM depthBehind 0 = some depth)
    (h : (Nesting.start vars created).openGroup.acceptAll functions tokens = .ok n) :
    n.WaitsBelow depth (OperatorWaits tokens) := by
  induction tokens using List.reverseRecOn generalizing n depth with
  | nil =>
    cases h
    cases hdepth
    exact ⟨[], .empty none, rfl, rfl, by simp [Level.empty, not_operatorWaits_nil]⟩
  | append_singleton tokens t ih =>
    obtain ⟨m, htokens, ht⟩ := Nesting.acceptAll_snoc_ok h
    rw [List.foldlM_append] at hdepth
    obtain ⟨before, hbefore, hlast⟩ := Option.bind_eq_some_iff.mp hdepth
    obtain ⟨depth, ht', hlast⟩ := Option.bind_eq_some_iff.mp hlast
    cases hlast
    exact (ih hbefore htokens).accept hbefore ht' ht

/-- Where no operator waits a prefix operator goes on as behind a comma. -/
theorem Reads.idle {first second : List Token} {entries more : List Tree} {behind : Variables}
    (hfirst : Balanced first) (hsecond : Balanced second)
    (h : (Nesting.start vars []).openGroup.acceptAll functions first = .ok n) (hends : n.Ends entries)
    (hidle : n.current.operators = []) (hmore : Reads functions n.vars second more behind) :
    Reads functions vars (first ++ second) (entries ++ more) behind := by
  obtain ⟨hcall, houter⟩ := acceptAll_balanced hfirst h
  have htrees : n.current.trees = entries.reverse := by
    have hreduced := hends.reduced
    rw [hidle] at hreduced
    exact Except.ok.inj hreduced
  have hcurrent : n.current = ⟨none, [], entries.reverse⟩ := by
    rw [← hcall, ← hidle, ← htrees]
  obtain ⟨last, hlast, hendsLast, hbehind⟩ := hmore.onto hsecond hends.awaited hcurrent houter
  rw [List.reverse_reverse] at hendsLast
  exact ⟨last, (Nesting.acceptAll_append h).trans hlast, hendsLast, hbehind⟩

end Parser

section Texts

variable {functions : Functions} {vars : Variables} {first second : String}
  {tokens more : List Token} {op : UnaryOp}

theorem tokenize_append (hfirst : tokenize first = .ok tokens) (hsecond : tokenize second = .ok more)
    (hfits : ∀ expected, AdjoinedFrom expected more) :
    tokenize (first ++ second) = .ok (tokens ++ more) := by
  obtain ⟨hadjoined, hlexical, hrenders⟩ := tokenize_iff.mp hfirst
  obtain ⟨-, hlexicalMore, hrendersMore⟩ := tokenize_iff.mp hsecond
  refine tokenize_iff.mpr ⟨hadjoined.append hfits, ?_, ?_⟩
  · intro t ht
    rcases List.mem_append.mp ht with ht | ht
    · exact hlexical t ht
    · exact hlexicalMore t ht
  · rw [String.toList_append]
    exact hrenders.append hrendersMore

/-- A prefix operator apart from negation fits behind anything. -/
theorem adjoinedFrom_prefixOp (hop : op ≠ .negate)
    (hsecond : tokenize second = .ok (.ofOperator (.unary op) :: more)) (expected : Bool) :
    AdjoinedFrom expected (.ofOperator (.unary op) :: more) := by
  obtain ⟨hadjoined, -, -⟩ := tokenize_iff.mp hsecond
  obtain ⟨-, hbehind⟩ := adjoinedFrom_cons.mp hadjoined
  refine adjoinedFrom_cons.mpr ⟨Token.ofOperator_fitsWhere.mpr ?_, hbehind⟩
  rw [Operator.fitsWhere_iff (by simpa using hop)]
  simp [Operator.isUnary]

theorem parse_ok_iff_reads {text : String} {tree : Tree} (htokens : tokenize text = .ok tokens)
    (hbalanced : Balanced tokens) :
    (parse functions vars text).outcome = .ok tree ↔
      ∃ entries behind, Reads functions vars tokens entries behind ∧ tree = Tree.ofGroup entries := by
  rw [parse_of_tokenize htokens, parseTokens_ok_iff, readFormula_reads hbalanced]

theorem Accepted.readsText (h : Accepted functions first) (htokens : tokenize first = .ok tokens)
    (hbalanced : Balanced tokens) : ReadsText functions first tokens := by
  obtain ⟨_, _, hparse⟩ := h
  obtain ⟨found, hreads⟩ := ReadsText.of_parse hparse fun found hfound => by
    cases htokens.symm.trans hfound
    exact hbalanced
  cases htokens.symm.trans hreads.tokenized
  exact hreads

theorem Tree.ofGroup_several {trees : List Tree} (h : 2 ≤ trees.length) :
    ofGroup trees = .call Function.last trees := by
  match trees, h with
  | _ :: _ :: _, _ => rfl

/-- Behind a value more than commas have been read. -/
theorem exists_not_comma (h : expectsBehind tokens = false) : ∃ t ∈ tokens, t.kind ≠ .comma := by
  cases tokens using List.reverseRecOn with
  | nil => simp [expectsBehind] at h
  | append_singleton tokens t =>
    refine ⟨t, by simp, fun hk => ?_⟩
    simp [expectsBehind, Token.expectsValue, hk] at h

end Texts

/-- A prefix operator behind a value acts like a comma exactly if no operator stands outside
parentheses in the last entry in front of it. Otherwise such an operator takes an operand behind
it. -/
theorem parse_prefix_behind_value (functions : Functions) (vars : Variables) (first second : String)
    (tokens more : List Token) (op : UnaryOp) (hfirst : Accepted functions first)
    (hsecond : Accepted functions second) (htokens : tokenize first = .ok tokens)
    (hmore : tokenize second = .ok (.ofOperator (.unary op) :: more)) (hop : op ≠ .negate)
    (hbalanced : Balanced tokens) (hbalancedMore : Balanced (.ofOperator (.unary op) :: more))
    (hvalue : expectsBehind tokens = false) :
    ∃ entries others,
      (parse functions vars first).outcome = .ok (Tree.ofGroup entries) ∧
      (parse functions (parse functions vars first).parser.variables second).outcome =
        .ok (Tree.ofGroup others) ∧
      (parse functions vars (first ++ "," ++ second)).outcome =
        .ok (.call Function.last (entries ++ others)) ∧
      ((parse functions vars (first ++ second)).outcome =
        (parse functions vars (first ++ "," ++ second)).outcome ↔ ¬ OperatorWaits tokens) := by
  have hreadsFirst := hfirst.readsText htokens hbalanced
  have hreadsSecond := hsecond.readsText hmore hbalancedMore
  obtain ⟨entries, middle, hentries⟩ := hreadsFirst.reads vars
  obtain ⟨others, behind, hothers⟩ := hreadsSecond.reads middle
  obtain ⟨houtcome, hmiddle⟩ := hreadsFirst.parse hentries
  have hne : entries ≠ [] := hentries.ne_nil hbalanced (exists_not_comma hvalue)
  have hneMore : others ≠ [] :=
    hothers.ne_nil hbalancedMore ⟨_, List.mem_cons_self, by simp [Token.ofOperator]⟩
  have hlength : 2 ≤ entries.length + others.length := by
    have := List.length_pos_iff.mpr hne
    have := List.length_pos_iff.mpr hneMore
    omega
  have hcomma : (parse functions vars (first ++ "," ++ second)).outcome =
      .ok (.call Function.last (entries ++ others)) := by
    rw [← Tree.ofGroup_several (by simpa using hlength)]
    exact ((hreadsFirst.comma hreadsSecond).parse
      (hentries.comma hbalanced hbalancedMore hothers)).1
  refine ⟨entries, others, houtcome, ?_, hcomma, ?_⟩
  · rw [hmiddle]
    exact (hreadsSecond.parse hothers).1
  have hwhole : tokenize (first ++ second) = .ok (tokens ++ .ofOperator (.unary op) :: more) :=
    tokenize_append htokens hmore (adjoinedFrom_prefixOp hop hmore)
  have hbalancedWhole : Balanced (tokens ++ .ofOperator (.unary op) :: more) := by
    rw [Balanced, List.foldlM_append, hbalanced]
    exact hbalancedMore
  obtain ⟨n, hn, hends, rfl⟩ := hentries
  rw [hcomma, parse_ok_iff_reads hwhole hbalancedWhole,
    ← (waitsBelow_operatorWaits hbalanced hn).of_zero, not_not]
  constructor
  · rintro ⟨all, last, hall, hsame⟩
    by_contra hwaiting
    have hrest : Balanced more := hbalancedMore
    obtain ⟨hother, hcount⟩ := Reads.waiting hbalanced hrest hn hends hwaiting hothers hall
    rw [Tree.ofGroup_several (by omega)] at hsame
    cases hsame
    exact hother rfl
  · intro hidle
    have hall := Reads.idle hbalanced hbalancedMore hn hends hidle hothers
    exact ⟨_, _, hall, (Tree.ofGroup_several (by simpa using hlength)).symm⟩

theorem tokenize_not_name {name : String} (h : Lexer.IsIdentifier name.toList) :
    tokenize ("!" ++ name) =
      .ok [.ofOperator (.unary .logicalNot), ⟨.identifier, name⟩] := by
  have hwritten : (Token.mk .identifier name).written = name.toList :=
    Token.written_of_kind_ne (by simp)
  have hfits : Token.FitsWhere true (.ofOperator (.unary .logicalNot)) :=
    Token.ofOperator_fitsWhere.mpr trivial
  refine tokenize_iff.mpr ⟨?_, ?_, ?_⟩
  · exact adjoinedFrom_cons.mpr ⟨hfits, adjoinedFrom_cons.mpr ⟨rfl, adjoinedFrom_nil _⟩⟩
  · intro t ht
    simp only [List.mem_cons, List.not_mem_nil, or_false] at ht
    rcases ht with rfl | rfl
    · exact ⟨.unary .logicalNot, rfl⟩
    · exact h
  · have hname : Renders [⟨.identifier, name⟩] name.toList := by
      simpa [hwritten] using renders_flatMap_written [⟨.identifier, name⟩]
    rw [String.toList_append]
    exact .token (.ofOperator (.unary .logicalNot)) hname

theorem isIdentifier_x : Lexer.IsIdentifier "x".toList :=
  ⟨by decide, by simp⟩

/-- A value alone in front of a prefix operator. -/
theorem parse_prefix_behind_value_name :
    let tokens : List Token := [⟨.identifier, "x"⟩]
    let prefixed : List Token := [.ofOperator (.unary .logicalNot), ⟨.identifier, "x"⟩]
    Accepted .empty "x" ∧ Accepted .empty "!x" ∧ tokenize "x" = .ok tokens ∧
      tokenize "!x" = .ok prefixed ∧ UnaryOp.logicalNot ≠ .negate ∧ Balanced tokens ∧
      Balanced prefixed ∧ expectsBehind tokens = false ∧ ¬ OperatorWaits tokens ∧
      (parse .empty .empty ("x" ++ "!x")).outcome =
        (parse .empty .empty ("x" ++ "," ++ "!x")).outcome := by
  intro tokens prefixed
  have htokens : tokenize "x" = .ok tokens := tokenize_identifier isIdentifier_x
  have hprefixed : tokenize "!x" = .ok prefixed := tokenize_not_name isIdentifier_x
  have hfirst : Accepted .empty "x" := by
    refine ⟨.empty, ?_⟩
    rw [parse_outcome htokens]
    exact ⟨_, rfl⟩
  have hsecond : Accepted .empty "!x" := by
    refine ⟨.empty, ?_⟩
    rw [parse_outcome hprefixed]
    exact ⟨_, rfl⟩
  have hwaits : ¬ OperatorWaits tokens := by
    rw [show tokens = [] ++ tokens from rfl, operatorWaits_snoc (by simp)]
    exact not_operatorWaits_nil
  obtain ⟨-, -, -, -, -, hsame⟩ := parse_prefix_behind_value .empty .empty "x" "!x" tokens _
    .logicalNot hfirst hsecond htokens hprefixed (by decide) rfl rfl rfl
  exact ⟨hfirst, hsecond, htokens, hprefixed, by decide, rfl, rfl, rfl, hwaits, hsame.mpr hwaits⟩

/-- The sum in front waits for its right operand when the prefix operator comes, and behind the comma
it has both. -/
theorem parse_prefix_behind_sum :
    let sum : List Token := [⟨.identifier, "x"⟩, .ofOperator (.binary .add), ⟨.identifier, "y"⟩]
    let prefixed : List Token := [.ofOperator (.unary .logicalNot), ⟨.identifier, "z"⟩]
    Accepted .empty "x+y" ∧ Accepted .empty "!z" ∧ tokenize "x+y" = .ok sum ∧
      tokenize "!z" = .ok prefixed ∧ Balanced sum ∧ Balanced prefixed ∧ expectsBehind sum = false ∧
      ∃ x y z : Cell,
        (parse .empty .empty ("x+y" ++ "!z")).outcome = .ok (.call Function.last
          [.var x, .binary .add (.var y) (.unary .logicalNot (.var z))]) ∧
        (parse .empty .empty ("x+y" ++ "," ++ "!z")).outcome = .ok (.call Function.last
          [.binary .add (.var x) (.var y), .unary .logicalNot (.var z)]) ∧
        (parse .empty .empty ("x+y" ++ "!z")).outcome ≠
          (parse .empty .empty ("x+y" ++ "," ++ "!z")).outcome := by
  intro sum prefixed
  have hsum : tokenize "x+y" = .ok sum := by
    refine tokenize_iff.mpr ⟨?_, ?_, .token _ (.token _ (.token _ .nil))⟩
    · have fits : Token.FitsWhere false (.ofOperator (.binary .add)) :=
        Token.ofOperator_fitsWhere.mpr rfl
      exact adjoinedFrom_cons.mpr ⟨rfl, adjoinedFrom_cons.mpr ⟨fits,
        adjoinedFrom_cons.mpr ⟨rfl, adjoinedFrom_nil _⟩⟩⟩
    · intro t ht
      simp only [sum, List.mem_cons, List.not_mem_nil, or_false] at ht
      rcases ht with rfl | rfl | rfl
      · exact isIdentifier_x
      · exact ⟨.binary .add, rfl⟩
      · exact ⟨by decide, by simp⟩
  have hz : Lexer.IsIdentifier "z".toList := ⟨by decide, by simp⟩
  have hprefixed : tokenize "!z" = .ok prefixed := tokenize_not_name hz
  have hfirst : Accepted .empty "x+y" := by
    refine ⟨.empty, ?_⟩
    rw [parse_outcome hsum]
    exact ⟨_, rfl⟩
  have hsecond : Accepted .empty "!z" := by
    refine ⟨.empty, ?_⟩
    rw [parse_outcome hprefixed]
    exact ⟨_, rfl⟩
  have hwhole := tokenize_append hsum hprefixed (adjoinedFrom_prefixOp (by decide) hprefixed)
  have hcomma := tokenize_comma hsum hprefixed
  refine ⟨hfirst, hsecond, hsum, hprefixed, rfl, rfl, rfl, ⟨0, some "x"⟩, ⟨1, some "y"⟩,
    ⟨2, some "z"⟩, ?_⟩
  rw [parse_outcome hwhole, parse_outcome hcomma]
  have hwaiting : (Nesting.readFormula .empty .empty (sum ++ prefixed)).mapError Failure.parse =
      .ok (.call Function.last [.var ⟨0, some "x"⟩,
        .binary .add (.var ⟨1, some "y"⟩) (.unary .logicalNot (.var ⟨2, some "z"⟩))]) := rfl
  have hended : (Nesting.readFormula .empty .empty (sum ++ Token.comma :: prefixed)).mapError
      Failure.parse = .ok (.call Function.last
        [.binary .add (.var ⟨0, some "x"⟩) (.var ⟨1, some "y"⟩),
          .unary .logicalNot (.var ⟨2, some "z"⟩)]) := rfl
  refine ⟨hwaiting, hended, ?_⟩
  rw [hwaiting, hended]
  simp

end Formula
