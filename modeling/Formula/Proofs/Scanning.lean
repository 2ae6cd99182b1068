import Formula.Proofs.TokenPlaces

namespace Formula.Lexer

/-- The operators in the order in which the front of a text is compared with them. -/
def candidates : List Operator :=
  longestFirst Operator.lexemeChars Operator.all

/-- Punctuation and the characters of operators. -/
def signs : List Char :=
  ['(', ')', ',', '-', '!', '~', '√', '*', '/', '%', '+', '<', '>', '=', '&', '^', '|']

/-- The signs that may stand where a value is expected. -/
def leadingSigns : List Char := ['(', ')', ',', '-', '!', '~', '√']

/-- The characters by which an operator may be longer than another one, negation apart. -/
def seconds : List Char := ['<', '=', '>', '&', '|']

theorem signs_plain : ∀ c ∈ signs, Text.isBlank c = false ∧ isWordChar c = false := by
  have h : signs.all (fun c => !Text.isBlank c && !isWordChar c) = true := by decide +kernel
  simpa using h

theorem isBlank_of_isWordChar {c : Char} (h : isWordChar c = true) : Text.isBlank c = false := by
  simp only [isWordChar, Bool.or_eq_true, beq_iff_eq] at h
  rcases h with ((h | h) | h) | rfl
  · exact Text.isBlank_of_isLetter h
  · exact Text.isBlank_of_isDigit h
  · exact Text.isBlank_of_isNumeral h
  · decide

theorem isBlank_of_all {s : List Char} (h : s.all (fun c => !Text.isBlank c) = true) :
    ∀ c ∈ s, Text.isBlank c = false := by
  simpa using h

theorem isBlank_of_mem_lexemeChars (op : Operator) :
    ∀ c ∈ op.lexemeChars, Text.isBlank c = false := by
  have h : ∀ op ∈ Operator.all, op.lexemeChars.all (fun c => !Text.isBlank c) = true := by
    decide +kernel
  exact isBlank_of_all (h op (Operator.mem_all op))

theorem isWordChar_of_isDigit {c : Char} (h : Text.isDigit c = true) : isWordChar c = true := by
  simp [isWordChar, h]

theorem isWordChar_of_isLetter {c : Char} (h : Text.isLetter c = true) : isWordChar c = true := by
  simp [isWordChar, h]

/-- What a text may begin with where a value is expected, or where none is. -/
def Begins (expected : Bool) (c : Char) : Prop :=
  Text.isBlank c = true ∨
    if expected then Text.isDigit c = true ∨ Text.isLetter c = true ∨ c ∈ leadingSigns
    else c ∈ signs

/-- Neither a number nor an identifier goes on with what may follow a value. -/
theorem Begins.ends_value {c : Char} (h : Begins false c) : isWordChar c = false ∧ c ≠ '.' := by
  rcases h with h | h
  · refine ⟨Bool.eq_false_iff.mpr (fun hw => ?_), ?_⟩
    · simp [isBlank_of_isWordChar hw] at h
    · rintro rfl
      exact absurd h (by decide)
  · refine ⟨(signs_plain c h).2, ?_⟩
    rintro rfl
    exact absurd h (by decide)

/-- No operator goes on with what may follow it. -/
theorem Begins.ends_operator {c : Char} (h : Begins true c) : c ∉ seconds := by
  intro hc
  have sign : seconds.all (fun c => signs.contains c && !leadingSigns.contains c) = true := by decide
  have hsign := List.all_eq_true.mp sign c hc
  simp only [Bool.and_eq_true, List.contains_iff_mem, Bool.not_eq_true', ← Bool.not_eq_true] at hsign
  obtain ⟨hs, hl⟩ := hsign
  obtain ⟨hblank, hword⟩ := signs_plain c hs
  rcases h with h | h | h | h
  · simp [h] at hblank
  · simp [isWordChar_of_isDigit h] at hword
  · simp [isWordChar_of_isLetter h] at hword
  · exact hl h

/-- A token does not go on with a character that follows it. -/
def EndsAt (t : Token) (c : Char) : Prop :=
  match t.kind with
  | .number => Text.isDigit c = false ∧ c ≠ '.'
  | .identifier => isWordChar c = false
  | .operator => c ∉ seconds
  | .opening | .closing | .comma => True

theorem isDigit_of_not_isWordChar {c : Char} (h : isWordChar c = false) :
    Text.isDigit c = false :=
  Bool.eq_false_iff.mpr (fun hd => by simp [isWordChar_of_isDigit hd] at h)

/-- A token ends in front of what fits behind it. -/
theorem Begins.endsAt {t : Token} {c : Char} (h : Begins t.expectsValue c) : EndsAt t c := by
  obtain ⟨kind, text⟩ := t
  cases kind with
  | number => exact ⟨isDigit_of_not_isWordChar h.ends_value.1, h.ends_value.2⟩
  | identifier => exact h.ends_value.1
  | operator => exact h.ends_operator
  | opening | closing | comma => trivial

theorem splitNumber_append (s : List Char) : (splitNumber s).1 ++ (splitNumber s).2 = s := by
  have whole : s.takeWhile Text.isDigit ++ s.dropWhile Text.isDigit = s :=
    List.takeWhile_append_dropWhile
  unfold splitNumber
  split
  next rest hrest =>
    rw [hrest] at whole
    simpa using whole
  next => exact whole

theorem splitNumber_isNumber {c : Char} {rest : List Char} (h : Text.isDigit c = true) :
    IsNumber (splitNumber (c :: rest)).1 := by
  have hne : (c :: rest).takeWhile Text.isDigit ≠ [] := by simp [h]
  have hall : ∀ d ∈ (c :: rest).takeWhile Text.isDigit, Text.isDigit d = true :=
    fun d hd => List.mem_takeWhile_imp hd
  unfold splitNumber
  split
  · exact .fraction hne hall (fun d hd => List.mem_takeWhile_imp hd)
  · exact .whole hne hall

theorem splitNumber_of_isNumber {s after : List Char} (hs : IsNumber s)
    (ha : ∀ c ∈ after.head?, Text.isDigit c = false ∧ c ≠ '.') :
    splitNumber (s ++ after) = (s, after) := by
  have hdigit : ∀ c ∈ after.head?, Text.isDigit c = false := fun c hc => (ha c hc).1
  cases hs with
  | whole _ hall =>
    obtain ⟨htake, hdrop⟩ := span_append after hall hdigit
    unfold splitNumber
    rw [htake, hdrop]
    split
    next rest => exact absurd rfl (ha '.' rfl).2
    next => rfl
  | @fraction digits more _ hall hmore =>
    obtain ⟨htake, hdrop⟩ := span_append ('.' :: (more ++ after)) hall
      (by rintro c ⟨⟩; decide)
    obtain ⟨hmoreTake, hmoreDrop⟩ := span_append after hmore hdigit
    simp only [splitNumber, List.append_assoc, List.cons_append, htake, hdrop, hmoreTake, hmoreDrop]

theorem isBlank_of_isNumber {s : List Char} (h : IsNumber s) :
    ∀ c ∈ s, Text.isBlank c = false := by
  intro c hc
  rcases h.digit_or_point c hc with hd | rfl
  · exact Text.isBlank_of_isDigit hd
  · decide

/-- An operator that starts another one is followed there by a single character. -/
theorem longer_operator {op longer : Operator} (hop : op ≠ .binary .subtract)
    (hp : op.lexemeChars <+: longer.lexemeChars) (hne : op ≠ longer) :
    ∃ c ∈ seconds, longer.lexemeChars = op.lexemeChars ++ [c] := by
  have h : ∀ op ∈ Operator.all, ∀ longer ∈ Operator.all, op ≠ .binary .subtract →
      op.lexemeChars <+: longer.lexemeChars → op ≠ longer →
      seconds.any (fun c => longer.lexemeChars == op.lexemeChars ++ [c]) = true := by decide
  have hany := h op (Operator.mem_all op) longer (Operator.mem_all longer) hop hp hne
  obtain ⟨c, hc, heq⟩ := List.any_eq_true.mp hany
  exact ⟨c, hc, by simpa using heq⟩

/-- Among the operators in front of a text the longest one is found, unless the text goes on
with a character of a longer one. -/
theorem firstMatch?_lexemeChars {op : Operator} {after : List Char}
    (hop : op ≠ .binary .subtract) (ha : ∀ c ∈ after.head?, c ∉ seconds) :
    firstMatch? Operator.lexemeChars candidates (op.lexemeChars ++ after) = some op := by
  cases hf : firstMatch? Operator.lexemeChars candidates (op.lexemeChars ++ after) with
  | none =>
    have hmem : op ∈ candidates := (mem_longestFirst _).mpr (Operator.mem_all op)
    exact absurd (List.prefix_append _ _) (firstMatch?_eq_none.mp hf op hmem)
  | some found =>
    obtain ⟨_, hp, hlongest⟩ := firstMatch?_longest hf
    have hlen := hlongest op (Operator.mem_all op) (List.prefix_append _ _)
    have hpre := List.prefix_of_prefix_length_le (List.prefix_append _ _) hp hlen
    by_cases hne : op = found
    · rw [hne]
    · obtain ⟨c, hc, hlonger⟩ := longer_operator hop hpre hne
      rw [hlonger, List.prefix_append_right_inj] at hp
      obtain ⟨rest, rfl⟩ := hp
      exact absurd hc (ha c rfl)

theorem operatorToken_sound {expected expectsNext : Bool} {c : Char} {rest after : List Char}
    {t : Token} (hc : c ≠ '-')
    (h : operatorToken candidates expected (c :: rest) = .ok (t, expectsNext, after)) :
    t.FitsWhere expected ∧ t.IsLexical ∧ expectsNext = t.expectsValue ∧
      c :: rest = t.written ++ after := by
  unfold operatorToken at h
  split at h
  · cases h
  next op hf =>
    obtain ⟨_, hp, _⟩ := firstMatch?_longest hf
    have hnegate : op ≠ .unary .negate := by
      rintro rfl
      exact hc (List.cons_prefix_cons.mp hp).1.symm
    split at h
    · cases h
    next hplace =>
      cases h
      refine ⟨Token.ofOperator_fitsWhere.mpr ?_, ⟨op, rfl⟩, rfl, ?_⟩
      · exact (Operator.fitsWhere_iff hnegate).mpr (by simpa using hplace)
      · show c :: rest = (Token.ofOperator op).written ++ _
        rw [Token.written_ofOperator hnegate]
        exact (List.prefix_iff_eq_append.mp hp).symm

theorem nextToken_sound {expected expectsNext : Bool} {c : Char} {rest after : List Char}
    {t : Token} (h : nextToken candidates expected c rest = .ok (t, expectsNext, after)) :
    t.FitsWhere expected ∧ t.IsLexical ∧ expectsNext = t.expectsValue ∧
      c :: rest = t.written ++ after := by
  unfold nextToken at h
  split at h
  next hdigit =>
    split at h
    · cases h
      refine ⟨by assumption, ?_, rfl, ?_⟩
      · simpa [Token.IsLexical] using splitNumber_isNumber hdigit
      · rw [Token.written_of_kind_ne (by simp), String.toList_ofList, splitNumber_append]
    · cases h
  next =>
    split at h
    next hletter =>
      split at h
      · cases h
        refine ⟨by assumption, ?_, rfl, ?_⟩
        · simpa [Token.IsLexical, IsIdentifier, hletter] using
            fun d hd => List.mem_takeWhile_imp hd
        · simp [Token.written_of_kind_ne]
      · cases h
    next =>
      split at h
      next token expectsNext hpunctuation =>
        cases h
        unfold punctuation? at hpunctuation
        split at hpunctuation <;> cases hpunctuation <;> exact ⟨trivial, rfl, rfl, rfl⟩
      next =>
        split at h
        next hminus =>
          cases h
          refine ⟨Token.ofOperator_fitsWhere.mpr ?_, ⟨minus expected, rfl⟩, rfl, ?_⟩
          · cases expected <;> rfl
          · subst hminus
            cases expected <;> rfl
        next hminus => exact operatorToken_sound hminus h

theorem written_operator_head {op : Operator} {expected : Bool} (hf : op.FitsWhere expected) :
    ∃ c rest, (Token.ofOperator op).written = c :: rest ∧ c ∈ signs ∧
      (expected = true → c ∈ leadingSigns) := by
  cases op with
  | unary kind =>
    cases kind with
    | negate => exact ⟨'-', [], rfl, by decide, fun _ => by decide⟩
    | logicalNot | bitwiseNot | sqrt =>
      rw [Token.written_ofOperator (by decide)]
      exact ⟨_, _, rfl, by decide, fun _ => by decide⟩
  | binary kind =>
    rw [Token.written_ofOperator (by simp)]
    cases hf
    cases kind <;> exact ⟨_, _, rfl, by decide, by simp⟩
  | assign =>
    rw [Token.written_ofOperator (by simp)]
    cases hf
    exact ⟨_, _, rfl, by decide, by simp⟩

theorem begins_of_sign {expected : Bool} {c : Char} (hs : c ∈ signs)
    (hl : expected = true → c ∈ leadingSigns) :
    Begins expected c ∧ Text.isBlank c = false := by
  refine ⟨.inr ?_, (signs_plain c hs).1⟩
  cases expected with
  | false => exact hs
  | true => exact .inr (.inr (hl rfl))

/-- A written token that fits starts with a character that may stand there and is no blank. -/
theorem written_begins {expected : Bool} {t : Token} (hl : t.IsLexical)
    (hf : t.FitsWhere expected) :
    ∃ c rest, t.written = c :: rest ∧ Begins expected c ∧ Text.isBlank c = false := by
  obtain ⟨kind, text⟩ := t
  cases kind with
  | number =>
    obtain ⟨c, rest, hs, hdigit⟩ := hl.head
    cases hf
    exact ⟨c, rest, by simpa [Token.written_of_kind_ne] using hs, .inr (.inl hdigit),
      Text.isBlank_of_isDigit hdigit⟩
  | identifier =>
    cases hs : text.toList with
    | nil => simp [Token.IsLexical, hs, IsIdentifier] at hl
    | cons c rest =>
      have hletter : Text.isLetter c = true := by
        simp only [Token.IsLexical, hs, IsIdentifier] at hl
        exact hl.1
      cases hf
      exact ⟨c, rest, by simpa [Token.written_of_kind_ne] using hs, .inr (.inr (.inl hletter)),
        Text.isBlank_of_isLetter hletter⟩
  | operator =>
    obtain ⟨op, hop⟩ := hl
    obtain ⟨c, rest, hw, hs, hlead⟩ := written_operator_head (hf op hop)
    rw [hop]
    exact ⟨c, rest, hw, begins_of_sign hs hlead⟩
  | opening | closing | comma =>
    cases hl
    exact ⟨_, [], rfl, begins_of_sign (by decide) (fun _ => by decide)⟩

theorem written_isBlank {t : Token} (hl : t.IsLexical) :
    ∀ c ∈ t.written, Text.isBlank c = false := by
  obtain ⟨kind, text⟩ := t
  cases kind with
  | number =>
    rw [Token.written_of_kind_ne (by simp)]
    exact isBlank_of_isNumber hl
  | identifier =>
    rw [Token.written_of_kind_ne (by simp)]
    intro c hc
    cases hs : text.toList with
    | nil => simp [hs] at hc
    | cons d rest =>
      simp only [Token.IsLexical, hs, IsIdentifier] at hl
      rw [hs] at hc
      rcases List.mem_cons.mp hc with rfl | hc
      · exact Text.isBlank_of_isLetter hl.1
      · exact isBlank_of_isWordChar (hl.2 c hc)
  | operator =>
    obtain ⟨op, hop⟩ := hl
    rw [hop]
    by_cases hnegate : op = .unary .negate
    · subst hnegate
      exact isBlank_of_all (by decide)
    · rw [Token.written_ofOperator hnegate]
      exact isBlank_of_mem_lexemeChars op
  | opening | closing | comma =>
    cases hl
    exact isBlank_of_all (by decide)

theorem operatorToken_complete {expected : Bool} {op : Operator} {after : List Char}
    (hnegate : op ≠ .unary .negate) (hsubtract : op ≠ .binary .subtract)
    (hf : op.FitsWhere expected) (ha : ∀ c ∈ after.head?, c ∉ seconds) :
    operatorToken candidates expected (op.lexemeChars ++ after) =
      .ok (Token.ofOperator op, true, after) := by
  have hmatch := firstMatch?_lexemeChars hsubtract ha
  have hplace := (Operator.fitsWhere_iff hnegate).mp hf
  simp only [operatorToken, hmatch, hplace, Bool.false_eq_true, ↓reduceIte, List.drop_left,
    Token.ofOperator]

/-- Neither a number nor an identifier starts with a sign. -/
theorem nextToken_sign {expected : Bool} {c : Char} (rest : List Char) (hs : c ∈ signs) :
    nextToken candidates expected c rest =
      match punctuation? c with
      | some (token, expectsNext) => .ok (token, expectsNext, rest)
      | none =>
        if c = '-' then .ok (Token.ofOperator (minus expected), true, rest)
        else operatorToken candidates expected (c :: rest) := by
  have hword := (signs_plain c hs).2
  have hdigit : Text.isDigit c = false :=
    Bool.eq_false_iff.mpr (fun h => by simp [isWordChar_of_isDigit h] at hword)
  have hletter : Text.isLetter c = false :=
    Bool.eq_false_iff.mpr (fun h => by simp [isWordChar_of_isLetter h] at hword)
  rw [nextToken, if_neg (by simp [hdigit]), if_neg (by simp [hletter])]
  rfl

theorem nextToken_operator {expected : Bool} {op : Operator} {c : Char} {rest after : List Char}
    (hf : op.FitsWhere expected) (hw : (Token.ofOperator op).written = c :: rest)
    (ha : ∀ c ∈ after.head?, c ∉ seconds) :
    nextToken candidates expected c (rest ++ after) = .ok (Token.ofOperator op, true, after) := by
  obtain ⟨d, more, hd, hs, _⟩ := written_operator_head hf
  obtain ⟨rfl, rfl⟩ := List.cons.inj (hd.symm.trans hw)
  rw [nextToken_sign _ hs]
  by_cases hnegate : op = .unary .negate
  · subst hnegate
    cases hd
    cases hf
    rfl
  · rw [Token.written_ofOperator hnegate] at hd
    by_cases hsubtract : op = .binary .subtract
    · subst hsubtract
      cases hd
      cases hf
      rfl
    · have plain : ∀ op ∈ Operator.all, op ≠ .unary .negate → op ≠ .binary .subtract →
          op.lexemeChars.head?.all (fun c => (punctuation? c).isNone && c != '-') = true := by
        decide
      have hplain := plain op (Operator.mem_all op) hnegate hsubtract
      rw [hd] at hplain
      simp only [List.head?_cons, Option.all_some, Bool.and_eq_true, Option.isNone_iff_eq_none,
        bne_iff_ne] at hplain
      obtain ⟨hnone, hminus⟩ := hplain
      rw [hnone]
      simp only [if_neg hminus]
      rw [← List.cons_append, ← hd]
      exact operatorToken_complete hnegate hsubtract hf ha

theorem nextToken_number {s rest after : List Char} {c : Char} (hs : IsNumber s)
    (hw : s = c :: rest) (ha : ∀ c ∈ after.head?, Text.isDigit c = false ∧ c ≠ '.') :
    nextToken candidates true c (rest ++ after) =
      .ok (⟨.number, String.ofList s⟩, false, after) := by
  obtain ⟨d, more, hd, hdigit⟩ := hs.head
  obtain ⟨rfl, rfl⟩ := List.cons.inj (hd.symm.trans hw)
  have hsplit := splitNumber_of_isNumber hs ha
  rw [hw, List.cons_append] at hsplit
  simp only [nextToken, hdigit, ↓reduceIte, hsplit, hw]

theorem nextToken_identifier {s rest after : List Char} {c : Char} (hs : IsIdentifier s)
    (hw : s = c :: rest) (ha : ∀ c ∈ after.head?, isWordChar c = false) :
    nextToken candidates true c (rest ++ after) =
      .ok (⟨.identifier, String.ofList s⟩, false, after) := by
  subst hw
  obtain ⟨hletter, hrest⟩ := hs
  obtain ⟨htake, hdrop⟩ := span_append after hrest ha
  simp only [nextToken, Text.isDigit_of_isLetter hletter, hletter, Bool.false_eq_true, ↓reduceIte,
    htake, hdrop]

/-- What fits and ends in front of what follows is taken off whole. -/
theorem nextToken_complete {expected : Bool} {t : Token} {c : Char} {rest after : List Char}
    (hl : t.IsLexical) (hf : t.FitsWhere expected) (hw : t.written = c :: rest)
    (ha : ∀ c ∈ after.head?, EndsAt t c) :
    nextToken candidates expected c (rest ++ after) = .ok (t, t.expectsValue, after) := by
  obtain ⟨kind, text⟩ := t
  cases kind with
  | number =>
    cases hf
    rw [Token.written_of_kind_ne (by simp)] at hw
    rw [nextToken_number hl hw ha, String.ofList_toList]
    rfl
  | identifier =>
    cases hf
    rw [Token.written_of_kind_ne (by simp)] at hw
    rw [nextToken_identifier hl hw ha, String.ofList_toList]
    rfl
  | operator =>
    obtain ⟨op, hop⟩ := hl
    rw [hop] at hw ⊢
    exact nextToken_operator (hf op hop) hw ha
  | opening | closing | comma =>
    cases hl
    cases hw
    exact nextToken_sign _ (by decide)

end Formula.Lexer
