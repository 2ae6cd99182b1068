import Formula.Proofs.Scanning

namespace Formula

namespace Lexer

theorem tokensFrom_nil (ops : List Operator) (expected : Bool) :
    tokensFrom ops expected [] = .ok [] := by
  rw [tokensFrom]

theorem tokensFrom_blank {ops : List Operator} {expected : Bool} {c : Char} {rest : List Char}
    (h : Text.isBlank c = true) :
    tokensFrom ops expected (c :: rest) = tokensFrom ops expected rest := by
  rw [tokensFrom, if_pos h]

theorem tokensFrom_token {ops : List Operator} {expected expectsNext : Bool} {c : Char}
    {rest after : List Char} {t : Token} (hc : Text.isBlank c = false)
    (h : nextToken ops expected c rest = .ok (t, expectsNext, after)) :
    tokensFrom ops expected (c :: rest) = (tokensFrom ops expectsNext after).map (t :: ·) := by
  rw [tokensFrom, if_neg (by simp [hc])]
  split
  next error he => simp [h] at he
  next he =>
    rw [h] at he
    cases he
    rfl

theorem tokensFrom_error {ops : List Operator} {expected : Bool} {c : Char} {rest : List Char}
    {error : LexError} (hc : Text.isBlank c = false)
    (h : nextToken ops expected c rest = .error error) :
    tokensFrom ops expected (c :: rest) = .error error := by
  rw [tokensFrom, if_neg (by simp [hc])]
  split
  next he =>
    rw [h] at he
    cases he
    rfl
  next he => simp [h] at he

theorem tokensFrom_sound {expected : Bool} {s : List Char} {tokens : List Token}
    (h : tokensFrom candidates expected s = .ok tokens) :
    AdjoinedFrom expected tokens ∧ (∀ t ∈ tokens, t.IsLexical) ∧ Renders tokens s := by
  induction hn : s.length using Nat.strong_induction_on generalizing expected s tokens with
  | _ n ih =>
    cases s with
    | nil =>
      rw [tokensFrom_nil] at h
      cases h
      exact ⟨adjoinedFrom_nil expected, by simp, .nil⟩
    | cons c rest =>
      by_cases hc : Text.isBlank c = true
      · rw [tokensFrom_blank hc] at h
        obtain ⟨hadjoined, hlexical, hrenders⟩ := ih rest.length (by simp [← hn]) h rfl
        exact ⟨hadjoined, hlexical, .blank hc hrenders⟩
      · have hc : Text.isBlank c = false := by simpa using hc
        cases hnext : nextToken candidates expected c rest with
        | error error => simp [tokensFrom_error hc hnext] at h
        | ok result =>
          obtain ⟨t, expectsNext, after⟩ := result
          obtain ⟨hfits, hlex, rfl, hsplit⟩ := nextToken_sound hnext
          have hshort := nextToken_shorter hnext
          rw [tokensFrom_token hc hnext] at h
          cases hmore : tokensFrom candidates t.expectsValue after with
          | error error => simp [hmore, Except.map] at h
          | ok more =>
            rw [hmore] at h
            cases h
            obtain ⟨hadjoined, hlexical, hrenders⟩ := ih after.length (by omega) hmore rfl
            refine ⟨adjoinedFrom_cons.mpr ⟨hfits, hadjoined⟩, ?_, ?_⟩
            · simpa using ⟨hlex, hlexical⟩
            · rw [hsplit]
              exact .token t hrenders

theorem renders_begins {expected : Bool} {s : List Char} {tokens : List Token}
    (hrenders : Renders tokens s) (hadjoined : AdjoinedFrom expected tokens)
    (hlexical : ∀ t ∈ tokens, t.IsLexical) : ∀ c ∈ s.head?, Begins expected c := by
  cases hrenders with
  | nil => simp
  | blank hblank _ =>
    rintro c ⟨⟩
    exact .inl hblank
  | token t _ =>
    obtain ⟨c, rest, hw, hbegins, _⟩ :=
      written_begins (hlexical t (by simp)) (adjoinedFrom_cons.mp hadjoined).1
    rw [hw]
    rintro d ⟨⟩
    exact hbegins

theorem tokensFrom_complete {expected : Bool} {s : List Char} {tokens : List Token}
    (hrenders : Renders tokens s) (hadjoined : AdjoinedFrom expected tokens)
    (hlexical : ∀ t ∈ tokens, t.IsLexical) :
    tokensFrom candidates expected s = .ok tokens := by
  induction hrenders generalizing expected with
  | nil => exact tokensFrom_nil _ _
  | blank hblank _ ih => rw [tokensFrom_blank hblank, ih hadjoined hlexical]
  | @token t tokens text hrest ih =>
    obtain ⟨hfits, hadjoinedRest⟩ := adjoinedFrom_cons.mp hadjoined
    have hlex := hlexical t (by simp)
    have hlexicalRest : ∀ u ∈ tokens, u.IsLexical := fun u hu => hlexical u (by simp [hu])
    obtain ⟨c, rest, hw, _, hc⟩ := written_begins hlex hfits
    have hnext := nextToken_complete hlex hfits hw
      (fun c hc => (renders_begins hrest hadjoinedRest hlexicalRest c hc).endsAt)
    rw [hw, List.cons_append, tokensFrom_token hc hnext, ih hadjoinedRest hlexicalRest]
    rfl

end Lexer

theorem tokenize_iff {text : String} {tokens : List Token} :
    tokenize text = .ok tokens ↔
      WellAdjoined tokens ∧ (∀ t ∈ tokens, t.IsLexical) ∧ Renders tokens text.toList :=
  ⟨Lexer.tokensFrom_sound, fun h => Lexer.tokensFrom_complete h.2.2 h.1 h.2.1⟩

/-- A text that renders tokens is their written forms once its blanks are taken out. -/
theorem Renders.flatMap_written {tokens : List Token} {s : List Char} (h : Renders tokens s)
    (hlexical : ∀ t ∈ tokens, t.IsLexical) :
    tokens.flatMap Token.written = s.filter (fun c => !Text.isBlank c) := by
  induction h with
  | nil => rfl
  | blank hblank _ ih => simpa [hblank] using ih hlexical
  | @token t tokens text _ ih =>
    have hwritten : t.written.filter (fun c => !Text.isBlank c) = t.written :=
      List.filter_eq_self.mpr
        (fun c hc => by simp [Lexer.written_isBlank (hlexical t (by simp)) c hc])
    rw [List.flatMap_cons, List.filter_append, hwritten,
      ih (fun u hu => hlexical u (by simp [hu]))]

theorem renders_flatMap_written (tokens : List Token) :
    Renders tokens (tokens.flatMap Token.written) := by
  induction tokens with
  | nil => exact .nil
  | cons t tokens ih => exact .token t ih

/-- A text has tokens exactly if they are well adjoined and lexical and the text renders them. Its
characters apart from blanks are then the written tokens, which alone have the same tokens. -/
theorem tokenize_eq_ok_iff_renders (text : String) (tokens : List Token) :
    (tokenize text = .ok tokens ↔
      WellAdjoined tokens ∧ (∀ t ∈ tokens, t.IsLexical) ∧ Renders tokens text.toList) ∧
    (tokenize text = .ok tokens →
      tokens.flatMap Token.written = text.toList.filter (fun c => !Text.isBlank c) ∧
      tokenize (String.ofList (text.toList.filter (fun c => !Text.isBlank c))) = .ok tokens) := by
  refine ⟨tokenize_iff, fun h => ?_⟩
  obtain ⟨hadjoined, hlexical, hrenders⟩ := tokenize_iff.mp h
  have hwritten := hrenders.flatMap_written hlexical
  refine ⟨hwritten, tokenize_iff.mpr ⟨hadjoined, hlexical, ?_⟩⟩
  rw [String.toList_ofList, ← hwritten]
  exact renders_flatMap_written tokens

/-- An identifier is one token. -/
theorem tokenize_identifier {name : String} (h : Lexer.IsIdentifier name.toList) :
    tokenize name = .ok [⟨.identifier, name⟩] := by
  have hwritten : (Token.mk .identifier name).written = name.toList :=
    Token.written_of_kind_ne (by simp)
  refine tokenize_iff.mpr ⟨adjoinedFrom_cons.mpr ⟨rfl, adjoinedFrom_nil _⟩, ?_, ?_⟩
  · intro t ht
    cases List.mem_singleton.mp ht
    exact h
  · simpa [hwritten] using renders_flatMap_written [⟨.identifier, name⟩]

/-- With a blank in front of it or not, the minus sign before `u` is not the spelling of negation. -/
theorem tokenize_minus_before_u :
    tokenize "x -u" = .ok [⟨.identifier, "x"⟩, ⟨.operator, "-"⟩, ⟨.identifier, "u"⟩] ∧
    tokenize "x-u" = .ok [⟨.identifier, "x"⟩, ⟨.operator, "-"⟩, ⟨.identifier, "u"⟩] := by
  have spaced : tokenize "x -u" =
      .ok [⟨.identifier, "x"⟩, ⟨.operator, "-"⟩, ⟨.identifier, "u"⟩] := by
    refine (tokenize_eq_ok_iff_renders _ _).1.mpr ⟨?_, ?_, ?_⟩
    · have minus : Token.FitsWhere false (.ofOperator (.binary .subtract)) :=
        Token.ofOperator_fitsWhere.mpr rfl
      exact adjoinedFrom_cons.mpr ⟨rfl, adjoinedFrom_cons.mpr ⟨minus,
        adjoinedFrom_cons.mpr ⟨rfl, adjoinedFrom_nil _⟩⟩⟩
    · intro t ht
      simp only [List.mem_cons, List.not_mem_nil, or_false] at ht
      rcases ht with rfl | rfl | rfl
      · exact ⟨by decide, by simp⟩
      · exact ⟨.binary .subtract, rfl⟩
      · exact ⟨by decide, by simp⟩
    · exact .token _ (.blank (by decide) (.token _ (.token _ .nil)))
  exact ⟨spaced, ((tokenize_eq_ok_iff_renders _ _).2 spaced).2⟩

end Formula
