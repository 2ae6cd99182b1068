import Formula.Error
import Formula.Proofs.Tokenizing

namespace Formula

/-- What an error becomes when the text goes on. It stays where it is, and all of the text behind
that place is shown; an operator without a value in front of it may turn out to be a longer one. -/
inductive LexError.GoesOn (more : List Char) : LexError → LexError → Prop
  | unexpectedNumber (rest : List Char) :
      GoesOn more (.unexpectedNumber rest) (.unexpectedNumber (rest ++ more))
  | unexpectedIdentifier (rest : List Char) :
      GoesOn more (.unexpectedIdentifier rest) (.unexpectedIdentifier (rest ++ more))
  | unknownOperator (rest : List Char) :
      GoesOn more (.unknownOperator rest) (.unknownOperator (rest ++ more))
  | missingOperand {op longer : Operator} : op.lexemeChars <+: longer.lexemeChars →
      GoesOn more (.missingOperand op) (.missingOperand longer)

theorem LexError.GoesOn.kind_eq {more : List Char} {error later : LexError}
    (h : error.GoesOn more later) : later.kind = error.kind := by
  cases h <;> rfl

namespace Lexer

variable {expected expectsNext : Bool} {c d : Char} {s rest after number : List Char} {t : Token}

theorem span_goesOn {p : Char → Bool} (more : List Char) (h : s.dropWhile p = d :: after) :
    (s ++ more).takeWhile p = s.takeWhile p ∧ (s ++ more).dropWhile p = d :: (after ++ more) := by
  have hs : s ++ more = s.takeWhile p ++ d :: (after ++ more) := by
    rw [← List.cons_append, ← h, ← List.append_assoc, List.takeWhile_append_dropWhile]
  have hd : p d = false := by
    have hhead := List.head?_dropWhile_not p s
    rw [h] at hhead
    simpa using hhead
  rw [hs]
  exact span_append _ (fun c hc => List.mem_takeWhile_imp hc) (by rintro x ⟨⟩; exact hd)

theorem splitNumber_goesOn (more : List Char) (h : splitNumber s = (number, d :: after)) :
    splitNumber (s ++ more) = (number, d :: (after ++ more)) := by
  cases hbehind : s.dropWhile Text.isDigit with
  | nil =>
    simp only [splitNumber, hbehind] at h
    cases h
  | cons x behind =>
    obtain ⟨htake, hdrop⟩ := span_goesOn more hbehind
    simp only [splitNumber, hbehind] at h
    simp only [splitNumber, htake, hdrop]
    by_cases hx : x = '.'
    · subst hx
      obtain ⟨rfl, hafter⟩ := Prod.mk.inj h
      obtain ⟨hmoreTake, hmoreDrop⟩ := span_goesOn more hafter
      simp only [hmoreTake, hmoreDrop]
    · split at h
      next heq => exact absurd (List.cons.inj heq).1 hx
      next =>
        cases h
        split
        next heq => exact absurd (List.cons.inj heq).1 hx
        next => rfl

/-- Two characters decide which operator stands in front of a text. -/
theorem firstMatch?_goesOn (more : List Char) (h : 2 ≤ s.length) :
    firstMatch? Operator.lexemeChars candidates (s ++ more) =
      firstMatch? Operator.lexemeChars candidates s := by
  have short : ∀ op ∈ Operator.all, op.lexemeChars.length ≤ 2 := by decide
  refine congrArg (List.find? · candidates) (funext fun op => ?_)
  have hlength := short op (Operator.mem_all op)
  rw [Bool.eq_iff_iff, List.isPrefixOf_iff_prefix, List.isPrefixOf_iff_prefix]
  exact ⟨fun hp => List.prefix_of_prefix_length_le hp (List.prefix_append _ _) (by omega),
    fun hp => hp.trans (List.prefix_append _ _)⟩

theorem operatorToken_goesOn (more : List Char)
    (h : operatorToken candidates expected s = .ok (t, expectsNext, d :: after)) :
    operatorToken candidates expected (s ++ more) = .ok (t, expectsNext, d :: (after ++ more)) := by
  unfold operatorToken at h
  split at h
  · cases h
  next op hmatch =>
    split at h
    · cases h
    next hplace =>
      simp only [Except.ok.injEq, Prod.mk.injEq] at h
      obtain ⟨rfl, rfl, hafter⟩ := h
      have hlength := congrArg List.length hafter
      have hpos := List.length_pos_iff.mpr op.lexemeChars_ne_nil
      simp only [List.length_drop, List.length_cons] at hlength
      rw [operatorToken, firstMatch?_goesOn more (by omega), hmatch]
      simp only [hplace, Bool.false_eq_true, ↓reduceIte]
      rw [List.drop_append_of_le_length (by omega), hafter, List.cons_append]

/-- A token with something behind it stays when the text goes on. -/
theorem nextToken_goesOn (more : List Char)
    (h : nextToken candidates expected c rest = .ok (t, expectsNext, d :: after)) :
    nextToken candidates expected c (rest ++ more) =
      .ok (t, expectsNext, d :: (after ++ more)) := by
  unfold nextToken at h ⊢
  split at h
  next hdigit =>
    split at h
    next hexpected =>
      simp only [Except.ok.injEq, Prod.mk.injEq] at h
      obtain ⟨rfl, rfl, hafter⟩ := h
      have hsplit := splitNumber_goesOn more (Prod.ext rfl hafter)
      rw [if_pos hdigit, if_pos hexpected, ← List.cons_append, hsplit]
    next => cases h
  next hdigit =>
    split at h
    next hletter =>
      split at h
      next hexpected =>
        simp only [Except.ok.injEq, Prod.mk.injEq] at h
        obtain ⟨rfl, rfl, hafter⟩ := h
        obtain ⟨htake, hdrop⟩ := span_goesOn more hafter
        rw [if_neg hdigit, if_pos hletter, if_pos hexpected, htake, hdrop]
      next => cases h
    next hletter =>
      rw [if_neg hdigit, if_neg hletter]
      split at h
      next hpunctuation =>
        cases h
        rfl
      next hpunctuation =>
        split at h
        next hminus =>
          cases h
          simp only [if_pos hminus, List.cons_append]
        next hminus =>
          simp only [if_neg hminus]
          exact operatorToken_goesOn more h

/-- Each operator begins with one of a single character. -/
theorem firstMatch?_none_goesOn (more : List Char) (hc : c ≠ '-')
    (h : firstMatch? Operator.lexemeChars candidates [c] = none) :
    firstMatch? Operator.lexemeChars candidates (c :: more) = none := by
  have single : ∀ op ∈ Operator.all, op ≠ .unary .negate →
      ∃ short ∈ Operator.all, short.lexemeChars = op.lexemeChars.take 1 := by decide
  refine firstMatch?_eq_none.mpr (fun op hop hp => ?_)
  obtain ⟨x, tail, hchars⟩ := List.exists_cons_of_ne_nil op.lexemeChars_ne_nil
  rw [hchars] at hp
  obtain ⟨rfl, _⟩ := List.cons_prefix_cons.mp hp
  have hnegate : op ≠ .unary .negate := by
    rintro rfl
    cases hchars
    exact hc rfl
  obtain ⟨short, hshort, hspelling⟩ := single op (Operator.mem_all op) hnegate
  refine firstMatch?_eq_none.mp h short ((mem_longestFirst _).mpr hshort) ?_
  rw [hspelling, hchars]
  exact List.prefix_refl _

/-- What begins with an infix operator begins with no unary one. -/
theorem firstMatch?_infix_goesOn {op : Operator} (more : List Char) (hop : op ≠ .binary .subtract)
    (h : firstMatch? Operator.lexemeChars candidates s = some op) (hunary : op.isUnary = false) :
    ∃ longer, firstMatch? Operator.lexemeChars candidates (s ++ more) = some longer ∧
      op.lexemeChars <+: longer.lexemeChars ∧ longer.isUnary = false := by
  have longerInfix : ∀ op ∈ Operator.all, ∀ longer ∈ Operator.all, op ≠ .binary .subtract →
      op.isUnary = false → op.lexemeChars <+: longer.lexemeChars → longer.isUnary = false := by
    decide
  obtain ⟨hmem, hp, _⟩ := firstMatch?_longest h
  have hfront := hp.trans (List.prefix_append s more)
  cases hmatch : firstMatch? Operator.lexemeChars candidates (s ++ more) with
  | none => exact absurd hfront (firstMatch?_eq_none.mp hmatch op ((mem_longestFirst _).mpr hmem))
  | some longer =>
    obtain ⟨hlonger, hlongerFront, hlongest⟩ := firstMatch?_longest hmatch
    have hprefix := List.prefix_of_prefix_length_le hfront hlongerFront (hlongest op hmem hfront)
    exact ⟨longer, rfl, hprefix, longerInfix op hmem longer hlonger hop hunary hprefix⟩

theorem operatorToken_error_goesOn {error : LexError} (more : List Char) (hc : c ≠ '-')
    (h : operatorToken candidates expected (c :: rest) = .error error) :
    ∃ later, operatorToken candidates expected (c :: (rest ++ more)) = .error later ∧
      error.GoesOn more later := by
  unfold operatorToken at h
  split at h
  next hnone =>
    cases h
    have hmore : firstMatch? Operator.lexemeChars candidates (c :: (rest ++ more)) = none := by
      cases rest with
      | nil => exact firstMatch?_none_goesOn more hc hnone
      | cons d rest =>
        rw [← List.cons_append, firstMatch?_goesOn more (by simp), hnone]
    exact ⟨_, by simp [operatorToken, hmore], .unknownOperator (c :: rest)⟩
  next op hmatch =>
    split at h
    next hplace =>
      cases h
      simp only [Bool.and_eq_true, Bool.not_eq_true'] at hplace
      have hop : op ≠ .binary .subtract := by
        rintro rfl
        obtain ⟨_, hp, _⟩ := firstMatch?_longest hmatch
        exact hc (List.cons_prefix_cons.mp hp).1.symm
      obtain ⟨longer, hlonger, hfront, hinfix⟩ :=
        firstMatch?_infix_goesOn more hop hmatch hplace.2
      rw [List.cons_append] at hlonger
      exact ⟨_, by simp [operatorToken, hlonger, hplace.1, hinfix], .missingOperand hfront⟩
    next => cases h

/-- What stands in the wrong place at the front of a text stands there whatever follows. -/
theorem nextToken_error_goesOn {error : LexError} (more : List Char)
    (h : nextToken candidates expected c rest = .error error) :
    ∃ later, nextToken candidates expected c (rest ++ more) = .error later ∧
      error.GoesOn more later := by
  unfold nextToken at h ⊢
  split at h
  next hdigit =>
    split at h
    · cases h
    next hexpected =>
      cases h
      refine ⟨_, ?_, .unexpectedNumber (c :: rest)⟩
      rw [if_pos hdigit, if_neg hexpected]
      rfl
  next hdigit =>
    split at h
    next hletter =>
      split at h
      · cases h
      next hexpected =>
        cases h
        refine ⟨_, ?_, .unexpectedIdentifier (c :: rest)⟩
        rw [if_neg hdigit, if_pos hletter, if_neg hexpected]
        rfl
    next hletter =>
      rw [if_neg hdigit, if_neg hletter]
      split at h
      · cases h
      next hpunctuation =>
        split at h
        · cases h
        next hminus =>
          simp only [if_neg hminus]
          exact operatorToken_error_goesOn more hminus h

theorem tokensFrom_error_goesOn {error : LexError} (more : List Char)
    (h : tokensFrom candidates expected s = .error error) :
    ∃ later, tokensFrom candidates expected (s ++ more) = .error later ∧
      error.GoesOn more later := by
  induction hn : s.length using Nat.strong_induction_on generalizing expected s with
  | _ n ih =>
    cases s with
    | nil => simp [tokensFrom_nil] at h
    | cons c rest =>
      by_cases hc : Text.isBlank c = true
      · rw [tokensFrom_blank hc] at h
        rw [List.cons_append, tokensFrom_blank hc]
        exact ih rest.length (by simp [← hn]) h rfl
      · have hc : Text.isBlank c = false := by simpa using hc
        rw [List.cons_append]
        cases hnext : nextToken candidates expected c rest with
        | error first =>
          rw [tokensFrom_error hc hnext] at h
          cases h
          obtain ⟨later, hlater, hgoesOn⟩ := nextToken_error_goesOn more hnext
          exact ⟨later, tokensFrom_error hc hlater, hgoesOn⟩
        | ok result =>
          obtain ⟨t, expectsNext, after⟩ := result
          have hshort := nextToken_shorter hnext
          rw [tokensFrom_token hc hnext] at h
          cases hafter : tokensFrom candidates expectsNext after with
          | ok tokens => simp [hafter, Except.map] at h
          | error first =>
            rw [hafter] at h
            cases h
            obtain ⟨later, hlater, hgoesOn⟩ := ih after.length (by omega) hafter rfl
            cases after with
            | nil => simp [tokensFrom_nil] at hafter
            | cons d after =>
              refine ⟨later, ?_, hgoesOn⟩
              rw [tokensFrom_token hc (nextToken_goesOn more hnext), ← List.cons_append, hlater]
              rfl

/-- A text goes on with the tokens of what is put behind it if its last token ends there. -/
theorem tokensFrom_append {tokens : List Token} {more : List Char}
    (h : tokensFrom candidates expected s = .ok tokens)
    (hends : ∀ t ∈ tokens.getLast?, ∀ c ∈ more.head?, EndsAt t c) :
    tokensFrom candidates expected (s ++ more) =
      (tokensFrom candidates ((tokens.getLast?.map Token.expectsValue).getD expected) more).map
        (tokens ++ ·) := by
  induction hn : s.length using Nat.strong_induction_on generalizing expected s tokens with
  | _ n ih =>
    cases s with
    | nil =>
      rw [tokensFrom_nil] at h
      cases h
      simp only [List.nil_append, List.getLast?_nil, Option.map_none, Option.getD_none]
      cases tokensFrom candidates expected more <;> rfl
    | cons c rest =>
      rw [List.cons_append]
      by_cases hc : Text.isBlank c = true
      · rw [tokensFrom_blank hc] at h
        rw [tokensFrom_blank hc]
        exact ih rest.length (by simp [← hn]) h hends rfl
      · have hc : Text.isBlank c = false := by simpa using hc
        cases hnext : nextToken candidates expected c rest with
        | error error => simp [tokensFrom_error hc hnext] at h
        | ok result =>
          obtain ⟨t, expectsNext, after⟩ := result
          obtain ⟨hfits, hlexical, rfl, hwritten⟩ := nextToken_sound hnext
          have hshort := nextToken_shorter hnext
          rw [tokensFrom_token hc hnext] at h
          cases hafter : tokensFrom candidates t.expectsValue after with
          | error error => simp [hafter, Except.map] at h
          | ok behind =>
            rw [hafter] at h
            cases h
            have hlast : ((t :: behind).getLast?.map Token.expectsValue).getD expected =
                (behind.getLast?.map Token.expectsValue).getD t.expectsValue := by
              rw [List.getLast?_cons]
              cases behind.getLast? <;> rfl
            have hmore : nextToken candidates expected c (rest ++ more) =
                .ok (t, t.expectsValue, after ++ more) := by
              cases after with
              | cons d after => exact nextToken_goesOn more hnext
              | nil =>
                rw [tokensFrom_nil] at hafter
                cases hafter
                exact nextToken_complete hlexical hfits (by simpa using hwritten.symm)
                  (hends t (by simp))
            have hbehind := ih after.length (by omega) hafter
              (fun u hu => hends u (by simp [List.getLast?_cons, Option.mem_def.mp hu])) rfl
            rw [tokensFrom_token hc hmore, hbehind, hlast]
            cases tokensFrom candidates _ more <;> rfl

end Lexer

variable {text : String} {tokens : List Token} {error : LexError}

theorem tokenize_eq (text : String) :
    tokenize text = Lexer.tokensFrom Lexer.candidates true text.toList :=
  rfl

theorem tokenize_error_goesOn (more : String) (h : tokenize text = .error error) :
    ∃ later, tokenize (text ++ more) = .error later ∧ error.GoesOn more.toList later := by
  rw [tokenize_eq, String.toList_append]
  exact Lexer.tokensFrom_error_goesOn more.toList h

/-- A text without tokens has none whatever is put behind it. The error is of the same kind, with
more text behind its place or with a longer operator there. -/
theorem tokenize_stays_rejected (text more : String) (error : LexError)
    (h : tokenize text = .error error) :
    ∃ later, tokenize (text ++ more) = .error later ∧ later.kind = error.kind ∧
      error.GoesOn more.toList later := by
  obtain ⟨later, hlater, hgoesOn⟩ := tokenize_error_goesOn more h
  exact ⟨later, hlater, hgoesOn.kind_eq, hgoesOn⟩

/-- The operator that the text is refused for becomes a longer one. -/
theorem tokenize_stays_rejected_lessEqual :
    tokenize "<" = .error (.missingOperand (.binary .less)) ∧
      ∃ later, tokenize ("<" ++ "=2") = .error later ∧ later.kind = .operandMissing ∧
        (LexError.missingOperand (.binary .less)).GoesOn ("=2" : String).toList later := by
  have hmatch : firstMatch? Operator.lexemeChars Lexer.candidates ['<'] = some (.binary .less) :=
    @Lexer.firstMatch?_lexemeChars (.binary .less) [] (by simp) (by simp)
  have hoperator : Lexer.operatorToken Lexer.candidates true ['<'] =
      .error (.missingOperand (.binary .less)) := by
    rw [Lexer.operatorToken, hmatch]
    rfl
  have hless : Lexer.nextToken Lexer.candidates true '<' [] =
      .error (.missingOperand (.binary .less)) :=
    (Lexer.nextToken_sign [] (by decide)).trans hoperator
  have herror : tokenize "<" = .error (.missingOperand (.binary .less)) :=
    Lexer.tokensFrom_error (by decide) hless
  exact ⟨herror, tokenize_stays_rejected "<" "=2" _ herror⟩

theorem Renders.append {more : List Token} {s after : List Char} (h : Renders tokens s)
    (hmore : Renders more after) : Renders (tokens ++ more) (s ++ after) := by
  induction h with
  | nil => exact hmore
  | blank hc _ ih => exact .blank hc ih
  | token t _ ih =>
    rw [List.cons_append, List.append_assoc]
    exact .token t ih

/-- Tokens that fit anywhere fit behind any others. -/
theorem AdjoinedFrom.append {expected : Bool} {more : List Token} (h : AdjoinedFrom expected tokens)
    (hmore : ∀ expected, AdjoinedFrom expected more) : AdjoinedFrom expected (tokens ++ more) := by
  induction tokens generalizing expected with
  | nil => exact hmore expected
  | cons t tokens ih =>
    obtain ⟨ht, hrest⟩ := adjoinedFrom_cons.mp h
    exact adjoinedFrom_cons.mpr ⟨ht, ih hrest⟩

theorem Lexer.tokensFrom_opening (expected : Bool) (s : List Char) :
    tokensFrom candidates expected ('(' :: s) =
      (tokensFrom candidates true s).map (Token.opening :: ·) :=
  tokensFrom_token (by decide) (nextToken_sign s (by decide))

theorem tokenize_parenthesised (h : tokenize text = .ok tokens) :
    tokenize ("(" ++ text ++ ")") = .ok (Token.opening :: tokens ++ [Token.closing]) := by
  obtain ⟨hadjoined, hlexical, hrenders⟩ := tokenize_iff.mp h
  have hclosing : ∀ expected, AdjoinedFrom expected [Token.closing] := fun expected =>
    adjoinedFrom_cons.mpr ⟨trivial, adjoinedFrom_nil _⟩
  refine tokenize_iff.mpr ⟨adjoinedFrom_cons.mpr ⟨trivial, hadjoined.append hclosing⟩, ?_, ?_⟩
  · intro t ht
    simp only [List.cons_append, List.mem_cons, List.mem_append, List.not_mem_nil, or_false] at ht
    rcases ht with rfl | ht | rfl
    · rfl
    · exact hlexical t ht
    · rfl
  · have hinside : Renders (tokens ++ [Token.closing]) (text.toList ++ [')']) :=
      hrenders.append (.token Token.closing .nil)
    have htext : ("(" ++ text ++ ")").toList = '(' :: (text.toList ++ [')']) := by simp
    rw [htext]
    exact .token Token.opening hinside

theorem tokenize_parenthesised_error (h : tokenize text = .error error) :
    ∃ later, tokenize ("(" ++ text ++ ")") = .error later ∧ later.kind = error.kind := by
  obtain ⟨later, hlater, hgoesOn⟩ := tokenize_error_goesOn ")" h
  rw [tokenize_eq, String.toList_append] at hlater
  have htext : ("(" ++ text ++ ")").toList = '(' :: (text.toList ++ (")" : String).toList) := by simp
  refine ⟨later, ?_, hgoesOn.kind_eq⟩
  rw [tokenize_eq, htext, Lexer.tokensFrom_opening, hlater]
  rfl

end Formula
