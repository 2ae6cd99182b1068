import Formula.Proofs.CellsKept
import Formula.Proofs.Nesting

namespace Formula.Parser.Nesting

section Steps

variable (functions : Functions) (n : Nesting) (t : Token)

/-- What a token makes of a nesting. -/
inductive Accepts : Nesting → Prop
  | opening : t.kind = .opening → Accepts n.openGroup
  | closing {made : List Tree} {tree : Tree} {level : Level} {outer : List Level} :
      t.kind = .closing → n.awaited = none → n.outer = level :: outer →
      reduceAll n.current.operators n.current.trees = .ok made →
      (Level.mk n.current.call [] made).result = .ok tree →
      Accepts { n with current := level.push tree, outer := outer }
  | comma {made : List Tree} : t.kind = .comma → n.awaited = none → n.outer ≠ [] →
      reduceAll n.current.operators n.current.trees = .ok made →
      Accepts { n with current := ⟨n.current.call, [], made⟩ }
  | number {value : Float} : t.kind = .number → n.awaited = none →
      Double.read? t.text = some value → Accepts (n.push (.const value))
  | key {f : Function} : t.kind = .identifier → n.awaited = none →
      functions.find? t.text = some f → Accepts { n with awaited := some (t.text, f) }
  | name : t.kind = .identifier → n.awaited = none → functions.find? t.text = none →
      Accepts (n.pushVariable t.text)
  | operator {op : Operator} {level : Level} : t.kind = .operator → n.awaited = none →
      Operator.ofLexeme? t.text = some op → n.current.pushOperator op = .ok level →
      Accepts { n with current := level }

/-- Why a token is refused. -/
inductive Refuses : ParseError → Prop
  | call {key : String} {f : Function} : n.awaited = some (key, f) → t.kind ≠ .opening →
      Refuses (.callExpected key t.text)
  | entry {e : ParseError} : t.kind = .closing ∨ t.kind = .comma → n.awaited = none →
      reduceAll n.current.operators n.current.trees = .error e → Refuses e
  | unmatched {made : List Tree} : t.kind = .closing ∨ t.kind = .comma → n.awaited = none →
      n.outer = [] → reduceAll n.current.operators n.current.trees = .ok made → Refuses .unmatched
  | result {made : List Tree} {level : Level} {outer : List Level} {e : ParseError} :
      t.kind = .closing → n.awaited = none → n.outer = level :: outer →
      reduceAll n.current.operators n.current.trees = .ok made →
      (Level.mk n.current.call [] made).result = .error e → Refuses e
  | number : t.kind = .number → n.awaited = none → Double.read? t.text = none →
      Refuses (.badNumber t.text)
  | unknown : t.kind = .operator → n.awaited = none → Operator.ofLexeme? t.text = none →
      Refuses (.unknownOperator t.text)
  | operator {op : Operator} {e : ParseError} : t.kind = .operator → n.awaited = none →
      Operator.ofLexeme? t.text = some op → n.current.pushOperator op = .error e → Refuses e

end Steps

variable {functions : Functions} {n next : Nesting} {t : Token} {e : ParseError}

theorem accepts_of_ok (h : n.accept functions t = .ok next) : Accepts functions n t next := by
  obtain ⟨kind, text⟩ := t
  cases hn : n.awaited with
  | some call =>
    simp only [accept, hn] at h
    cases kind <;> cases h
    exact .opening rfl
  | none =>
    cases kind with
    | opening =>
      cases h
      exact .opening rfl
    | closing =>
      simp only [accept, hn] at h
      obtain ⟨level, hlevel, h⟩ := bind_eq_ok h
      obtain ⟨made, hmade, hl⟩ := bind_eq_ok hlevel
      cases hl
      cases houter : n.outer with
      | nil => simp [houter] at h
      | cons outside outer =>
        rw [houter] at h
        obtain ⟨tree, htree, h⟩ := bind_eq_ok h
        cases h
        exact .closing rfl hn houter hmade htree
    | comma =>
      simp only [accept, hn] at h
      obtain ⟨level, hlevel, h⟩ := bind_eq_ok h
      obtain ⟨made, hmade, hl⟩ := bind_eq_ok hlevel
      cases hl
      cases houter : n.outer with
      | nil => simp [houter] at h
      | cons outside outer =>
        rw [houter] at h
        cases h
        rw [← houter]
        exact .comma rfl hn (by simp [houter]) hmade
    | number =>
      simp only [accept, hn] at h
      cases hread : Double.read? text with
      | none => simp [hread] at h
      | some value =>
        rw [hread] at h
        cases h
        exact .number rfl hn hread
    | identifier =>
      simp only [accept, hn] at h
      cases hfind : functions.find? text with
      | some f =>
        rw [hfind] at h
        cases h
        exact .key rfl hn hfind
      | none =>
        rw [hfind] at h
        cases h
        exact .name rfl hn hfind
    | operator =>
      simp only [accept, hn] at h
      cases hop : Operator.ofLexeme? text with
      | none => simp [hop] at h
      | some op =>
        simp only [hop, pushOperator] at h
        cases hlevel : n.current.pushOperator op with
        | error e => simp [hlevel, Except.map] at h
        | ok level =>
          rw [hlevel] at h
          cases h
          exact .operator rfl hn hop hlevel

/-- Nothing else is needed for a token to be accepted. -/
theorem Accepts.ok (h : Accepts functions n t next) : n.accept functions t = .ok next := by
  obtain ⟨kind, text⟩ := t
  obtain ⟨awaited, ⟨call, operators, trees⟩, outer, vars, created⟩ := n
  cases h with
  | opening hk =>
    cases hk
    rfl
  | closing hk hn houter hmade htree =>
    cases hk
    cases hn
    cases houter
    exact endGroup_reduce hmade htree
  | comma hk hn hopen hmade =>
    cases hk
    cases hn
    exact endEntry_reduce hopen hmade
  | number hk hn hvalue =>
    cases hk
    cases hn
    simp only [accept, hvalue]
  | key hk hn hf =>
    cases hk
    cases hn
    simp only [accept, hf]
  | name hk hn hf =>
    cases hk
    cases hn
    simp only [accept, hf]
  | operator hk hn hop hlevel =>
    cases hk
    cases hn
    simp only [accept, hop, pushOperator, hlevel]
    rfl

/-- A closing parenthesis ends a group that is open. -/
theorem closing_of_ok (h : n.accept functions Token.closing = .ok next) :
    ∃ made tree level outer, n.awaited = none ∧ n.outer = level :: outer ∧
      reduceAll n.current.operators n.current.trees = .ok made ∧
      (Level.mk n.current.call [] made).result = .ok tree ∧
      next = { n with current := level.push tree, outer := outer } := by
  cases accepts_of_ok h with
  | closing _ hn houter hmade htree => exact ⟨_, _, _, _, hn, houter, hmade, htree, rfl⟩
  | opening hk | comma hk | number hk | key hk | name hk | operator hk => cases hk

theorem refuses_of_error (h : n.accept functions t = .error e) : Refuses n t e := by
  obtain ⟨kind, text⟩ := t
  cases hn : n.awaited with
  | some call =>
    simp only [accept, hn] at h
    cases kind <;> cases h <;> exact .call hn (by simp)
  | none =>
    cases kind with
    | opening => cases h
    | closing =>
      simp only [accept, hn] at h
      rcases bind_eq_error h with hlevel | ⟨level, hlevel, h⟩
      · rcases bind_eq_error hlevel with hreduce | ⟨made, _, hl⟩
        · exact .entry (.inl rfl) hn hreduce
        · cases hl
      · obtain ⟨made, hmade, hl⟩ := bind_eq_ok hlevel
        cases hl
        cases houter : n.outer with
        | nil =>
          rw [houter] at h
          cases h
          exact .unmatched (.inl rfl) hn houter hmade
        | cons outside outer =>
          rw [houter] at h
          rcases bind_eq_error h with hresult | ⟨tree, _, h⟩
          · exact .result rfl hn houter hmade hresult
          · cases h
    | comma =>
      simp only [accept, hn] at h
      rcases bind_eq_error h with hlevel | ⟨level, hlevel, h⟩
      · rcases bind_eq_error hlevel with hreduce | ⟨made, _, hl⟩
        · exact .entry (.inr rfl) hn hreduce
        · cases hl
      · obtain ⟨made, hmade, hl⟩ := bind_eq_ok hlevel
        cases hl
        cases houter : n.outer with
        | nil =>
          rw [houter] at h
          cases h
          exact .unmatched (.inr rfl) hn houter hmade
        | cons outside outer => simp [houter, pure, Except.pure] at h
    | number =>
      simp only [accept, hn] at h
      cases hread : Double.read? text with
      | some value => simp [hread] at h
      | none =>
        rw [hread] at h
        cases h
        exact .number rfl hn hread
    | identifier =>
      simp only [accept, hn] at h
      cases hfind : functions.find? text <;> simp [hfind] at h
    | operator =>
      simp only [accept, hn] at h
      cases hop : Operator.ofLexeme? text with
      | none =>
        rw [hop] at h
        cases h
        exact .unknown rfl hn hop
      | some op =>
        simp only [hop, pushOperator] at h
        cases hlevel : n.current.pushOperator op with
        | ok level => simp [hlevel, Except.map] at h
        | error e =>
          rw [hlevel] at h
          cases h
          exact .operator rfl hn hop hlevel

/-- A formula ends outside all groups, with its tree on top. -/
theorem finished_of_ok {tree : Tree} (h : n.finish = .ok tree) :
    ∃ rest, n.awaited = none ∧ n.outer = [] ∧
      reduceAll n.current.operators n.current.trees = .ok (tree :: rest) := by
  rw [finish] at h
  split at h
  · cases h
  next hn =>
    obtain ⟨made, hmade, hlast⟩ := bind_eq_ok h
    split at hlast
    next houter =>
      cases hlast
      exact ⟨_, hn, houter, hmade⟩
    · cases hlast
    · cases hlast

theorem acceptAll_cons {tokens : List Token} (h : n.accept functions t = .ok next) :
    n.acceptAll functions (t :: tokens) = next.acceptAll functions tokens := by
  simp only [acceptAll, List.foldlM_cons, h]
  rfl

theorem acceptAll_append {tokens more : List Token} (h : n.acceptAll functions tokens = .ok next) :
    n.acceptAll functions (tokens ++ more) = next.acceptAll functions more := by
  simp only [acceptAll] at h
  simp only [acceptAll, List.foldlM_append, h]
  rfl

theorem acceptAll_append_ok {tokens more : List Token}
    (h : n.acceptAll functions (tokens ++ more) = .ok next) :
    ∃ m : Nesting, n.acceptAll functions tokens = .ok m ∧ m.acceptAll functions more = .ok next := by
  rw [acceptAll, List.foldlM_append] at h
  exact bind_eq_ok h

theorem acceptAll_snoc_ok {tokens : List Token}
    (h : n.acceptAll functions (tokens ++ [t]) = .ok next) :
    ∃ m : Nesting, n.acceptAll functions tokens = .ok m ∧ m.accept functions t = .ok next := by
  obtain ⟨m, htokens, hlast⟩ := acceptAll_append_ok h
  obtain ⟨last, ht, hl⟩ := bind_eq_ok hlast
  cases hl
  exact ⟨m, htokens, ht⟩

/-- What any token keeps, a run keeps. -/
theorem acceptAll_preserves {P : Nesting → Prop}
    (hstep : ∀ {n next : Nesting} {t}, P n → n.accept functions t = .ok next → P next)
    {tokens : List Token} (hn : P n) (h : n.acceptAll functions tokens = .ok next) : P next := by
  induction tokens generalizing n with
  | nil =>
    cases h
    exact hn
  | cons t tokens ih =>
    obtain ⟨m, ht, hrest⟩ := bind_eq_ok h
    exact ih (hstep hn ht) hrest

/-- The token at which a run fails. -/
theorem acceptAll_refused {tokens : List Token} (h : n.acceptAll functions tokens = .error e) :
    ∃ before t after, ∃ m : Nesting, tokens = before ++ t :: after ∧
      n.acceptAll functions before = .ok m ∧ m.accept functions t = .error e := by
  induction tokens generalizing n with
  | nil => cases h
  | cons t tokens ih =>
    rcases bind_eq_error h with ht | ⟨m, ht, hrest⟩
    · exact ⟨[], t, tokens, n, rfl, rfl, ht⟩
    · obtain ⟨before, u, after, last, rfl, hbefore, hu⟩ := ih hrest
      refine ⟨t :: before, u, after, last, rfl, ?_, hu⟩
      simp only [acceptAll, List.foldlM_cons, ht]
      exact hbefore

/-- Names that stood for a cell stand for it behind the token. -/
theorem accept_keeps (h : n.accept functions t = .ok next) :
    CellsKept n.vars.cells next.vars.cells := by
  cases accepts_of_ok h with
  | name => exact Variables.resolve_keeps n.vars t.text
  | _ => exact .refl _

theorem acceptAll_keeps {tokens : List Token} (h : n.acceptAll functions tokens = .ok next) :
    CellsKept n.vars.cells next.vars.cells :=
  acceptAll_preserves (P := fun m => CellsKept n.vars.cells m.vars.cells)
    (fun hkept ht => hkept.trans (accept_keeps ht)) (.refl _) h

end Formula.Parser.Nesting
