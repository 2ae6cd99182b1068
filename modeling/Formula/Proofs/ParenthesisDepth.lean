import Formula.Proofs.NestingRuns
import Formula.Proofs.OperandCounts

namespace Formula

open Formula.Parser

/-- How many parentheses are open behind tokens: those that open less those that close. -/
def depth (tokens : List Token) : Int :=
  tokens.countP (·.kind = .opening) - tokens.countP (·.kind = .closing)

/-- The tokens as they are read, with the parentheses of the group around all of them. -/
def enclosed (tokens : List Token) : List Token :=
  Token.opening :: tokens ++ [Token.closing]

/-- Tokens with a parenthesis too many at some point, with a comma outside of all parentheses, or
with a parenthesis that is left open. Those around all tokens count as well. -/
inductive Mismatched (tokens : List Token) : Prop
  | below {before after : List Token} : enclosed tokens = before ++ after → depth before < 0 →
      Mismatched tokens
  | comma {before after : List Token} {t : Token} : enclosed tokens = before ++ t :: after →
      t.kind = .comma → depth before = 0 → Mismatched tokens
  | unclosed : depth (enclosed tokens) ≠ 0 → Mismatched tokens

theorem depth_append (tokens more : List Token) :
    depth (tokens ++ more) = depth tokens + depth more := by
  unfold depth
  rw [List.countP_append, List.countP_append]
  omega

section OneToken

variable {t : Token}

theorem depth_opening (h : t.kind = .opening) : depth [t] = 1 := by
  simp [depth, h]

theorem depth_closing (h : t.kind = .closing) : depth [t] = -1 := by
  simp [depth, h]

theorem depth_other (hopening : t.kind ≠ .opening) (hclosing : t.kind ≠ .closing) :
    depth [t] = 0 := by
  simp [depth, hopening, hclosing]

end OneToken

namespace Parser

variable {functions : Functions} {vars : Variables} {tokens : List Token} {n next : Nesting}
  {t : Token} {e : ParseError}

/-- The levels around the innermost one are as many as parentheses are open. -/
theorem accept_depth (h : n.accept functions t = .ok next) :
    (next.outer.length : Int) = n.outer.length + depth [t] := by
  cases Nesting.accepts_of_ok h with
  | opening hk =>
    rw [depth_opening hk]
    show ((n.current :: n.outer).length : Int) = _
    rw [List.length_cons]
    omega
  | @closing made tree level outer hk _ houter =>
    rw [depth_closing hk, houter, List.length_cons]
    show (outer.length : Int) = _
    omega
  | comma hk | number hk | key hk | operator hk =>
    rw [depth_other (by simp [hk]) (by simp [hk])]
    exact (Int.add_zero _).symm
  | name hk =>
    rw [depth_other (by simp [hk]) (by simp [hk])]
    exact (Int.add_zero _).symm

theorem acceptAll_depth (h : n.acceptAll functions tokens = .ok next) :
    (next.outer.length : Int) = n.outer.length + depth tokens := by
  induction tokens generalizing n with
  | nil =>
    cases h
    exact (Int.add_zero _).symm
  | cons t tokens ih =>
    obtain ⟨m, ht, hrest⟩ := bind_eq_ok h
    have hfirst := accept_depth ht
    have hlater := ih hrest
    have hsplit := depth_append [t] tokens
    rw [List.singleton_append] at hsplit
    omega

/-- A comma is accepted in an open group only. -/
theorem accept_comma (h : n.accept functions t = .ok next) (hk : t.kind = .comma) :
    n.outer ≠ [] := by
  cases Nesting.accepts_of_ok h with
  | comma _ _ hopen => exact hopen
  | opening hother | closing hother | number hother | key hother | name hother | operator hother =>
    rw [hk] at hother
    cases hother

theorem start_depth (h : (Nesting.start vars []).acceptAll functions tokens = .ok n) :
    (n.outer.length : Int) = depth tokens := by
  have hdepth := acceptAll_depth h
  have hstart : (Nesting.start vars []).outer.length = 0 := rfl
  omega

/-- Tokens of which a tree is made have no parenthesis and no comma in the wrong place. -/
theorem not_mismatched {tree : Tree} (h : Nesting.readFormula functions vars tokens = .ok tree) :
    ¬ Mismatched tokens := by
  obtain ⟨n, hread, hfinish⟩ := bind_eq_ok h
  have hread : (Nesting.start vars []).acceptAll functions (enclosed tokens) = .ok n := hread
  intro hmismatch
  cases hmismatch with
  | below hsplit hbelow =>
    rw [hsplit] at hread
    obtain ⟨m, hbefore, -⟩ := Nesting.acceptAll_append_ok hread
    have hdepth := start_depth hbefore
    omega
  | comma hsplit hk hzero =>
    rw [hsplit] at hread
    obtain ⟨m, hbefore, hmore⟩ := Nesting.acceptAll_append_ok hread
    obtain ⟨last, hcomma, -⟩ := bind_eq_ok hmore
    have hdepth := start_depth hbefore
    have hopen := List.length_pos_iff.mpr (accept_comma hcomma hk)
    omega
  | unclosed hopen =>
    obtain ⟨-, -, houter, -⟩ := Nesting.finished_of_ok hfinish
    have hdepth := start_depth hread
    rw [houter] at hdepth
    exact hopen hdepth.symm

/-- Operators are never put in place wrongly because of a parenthesis. -/
theorem reduceAll_error_kind {operators : List Operator} {trees : List Tree}
    (h : reduceAll operators trees = .error e) : e.kind ≠ .parenthesisMismatch := by
  rcases reduceAll_error h with ⟨target, rfl⟩ | ⟨op, rfl⟩
  · simp [ParseError.kind]
  · simp [ParseError.kind]

/-- The token at fault ends a group or an entry where no group is open. -/
theorem accept_mismatch (h : n.accept functions t = .error e)
    (hkind : e.kind = .parenthesisMismatch) :
    n.outer = [] ∧ (t.kind = .closing ∨ t.kind = .comma) := by
  cases Nesting.refuses_of_error h with
  | unmatched hk _ houter => exact ⟨houter, hk⟩
  | entry _ _ hreduce => exact absurd hkind (reduceAll_error_kind hreduce)
  | result _ _ _ _ hresult =>
    obtain ⟨f, count, rfl, -⟩ := Level.result_error hresult
    cases hkind
  | operator _ _ _ hlevel =>
    rcases bind_eq_error hlevel with hreduce | ⟨made, -, hl⟩
    · exact absurd hkind (reduceAll_error_kind hreduce)
    · cases hl
  | call | number | unknown => cases hkind

theorem finish_mismatch (h : n.finish = .error e) (hkind : e.kind = .parenthesisMismatch)
    (hn : n.awaited = none) : n.outer ≠ [] := by
  intro houter
  simp only [Nesting.finish, hn, houter] at h
  rcases bind_eq_error h with hreduce | ⟨made, -, hlast⟩
  · exact absurd hkind (reduceAll_error_kind hreduce)
  · cases made <;> cases hlast
    cases hkind

/-- A complaint about parentheses is right. -/
theorem mismatched_of_error (h : Nesting.readFormula functions vars tokens = .error e)
    (hkind : e.kind = .parenthesisMismatch) : Mismatched tokens := by
  rcases bind_eq_error h with hread | ⟨n, hread, hfinish⟩
  · obtain ⟨before, t, after, n, hsplit, hbefore, ht⟩ := Nesting.acceptAll_refused hread
    have hsplit : enclosed tokens = before ++ t :: after := hsplit
    obtain ⟨houter, hk⟩ := accept_mismatch ht hkind
    have hdepth := start_depth hbefore
    rw [houter] at hdepth
    have hzero : depth before = 0 := hdepth.symm
    rcases hk with hk | hk
    · have hbelow := depth_append before [t]
      rw [hzero, depth_closing hk] at hbelow
      have hthrough : enclosed tokens = (before ++ [t]) ++ after := by
        rw [hsplit, List.append_assoc, List.singleton_append]
      exact .below hthrough (by omega)
    · exact .comma hsplit hk hzero
  · obtain ⟨m, -, hlast⟩ := Nesting.acceptAll_snoc_ok hread
    obtain ⟨_, _, _, _, hn, _, _, _, hnext⟩ := Nesting.closing_of_ok hlast
    have hawaited : n.awaited = none := by
      rw [hnext]
      exact hn
    have hopen := List.length_pos_iff.mpr (finish_mismatch hfinish hkind hawaited)
    have hread : (Nesting.start vars []).acceptAll functions (enclosed tokens) = .ok n := hread
    have hdepth := start_depth hread
    exact .unclosed (by omega)

end Parser

/-- Parentheses are at fault exactly where counting says so: tokens with a mismatch have no tree, and
a parse that fails for its parentheses has been given such tokens. It is no fault that a formula ends
the group around it and opens another one. -/
theorem parseTokens_mismatch (functions : Functions) (vars : Variables) (tokens : List Token) :
    (Mismatched tokens → ∀ tree,
      ((ParserState.start vars).parseTokens functions tokens).outcome ≠ .ok tree) ∧
    (∀ e, ((ParserState.start vars).parseTokens functions tokens).outcome = .error (.parse e) →
      e.kind = .parenthesisMismatch → Mismatched tokens) ∧
    ¬ Mismatched [Token.closing, .ofOperator (.binary .add), Token.opening] ∧
    ((ParserState.start vars).parseTokens functions
      [Token.closing, .ofOperator (.binary .add), Token.opening]).outcome =
        .ok (.binary .add (.const 0) (.const 0)) := by
  have hreopened : Nesting.readFormula functions vars
      [Token.closing, .ofOperator (.binary .add), Token.opening] =
        .ok (.binary .add (.const 0) (.const 0)) := by
    rfl
  refine ⟨?_, ?_, not_mismatched hreopened, parseTokens_ok_iff.mpr hreopened⟩
  · intro hmismatch tree htree
    exact not_mismatched (parseTokens_ok_iff.mp htree) hmismatch
  · intro e herror hkind
    rw [parseTokens_outcome] at herror
    cases hread : Nesting.readFormula functions vars tokens with
    | ok tree => simp [hread, Except.mapError] at herror
    | error cause =>
      simp only [hread, Except.mapError, Except.error.injEq, Failure.parse.injEq] at herror
      exact mismatched_of_error (herror ▸ hread) hkind

/-- A comma that stands behind the group around all tokens. -/
theorem parseTokens_mismatch_comma :
    Mismatched [Token.closing, Token.comma] ∧
    (∀ tree, ((ParserState.start .empty).parseTokens .empty
      [Token.closing, Token.comma]).outcome ≠ .ok tree) ∧
    ((ParserState.start .empty).parseTokens .empty [Token.closing, Token.comma]).outcome =
      .error (.parse .unmatched) ∧
    ParseError.unmatched.kind = .parenthesisMismatch := by
  have houtcome : ((ParserState.start .empty).parseTokens .empty
      [Token.closing, Token.comma]).outcome = .error (.parse .unmatched) := by
    rfl
  have hmismatch := (parseTokens_mismatch .empty .empty _).2.1 _ houtcome rfl
  exact ⟨hmismatch, (parseTokens_mismatch .empty .empty _).1 hmismatch, houtcome, rfl⟩

end Formula
