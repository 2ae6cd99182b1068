import Formula.Proofs.Tokenizing

namespace Formula

section Longest

variable {α : Type} {spelling : α → List Char} {items others : List α} {text : List Char} {found : α}

/-- One of the items whose spelling the text starts with, of which no other one has a longer
spelling. -/
def IsLongestMatch (spelling : α → List Char) (items : List α) (text : List Char) (item : α) : Prop :=
  item ∈ items ∧ spelling item <+: text ∧
    ∀ other ∈ items, spelling other <+: text → (spelling other).length ≤ (spelling item).length

/-- A text starts with at most one spelling of each length, so the longest one is found. -/
theorem firstMatch?_eq_some_iff (hinjective : Function.Injective spelling) :
    firstMatch? spelling (longestFirst spelling items) text = some found ↔
      IsLongestMatch spelling items text found := by
  refine ⟨firstMatch?_longest, fun ⟨hmem, hfront, hlongest⟩ => ?_⟩
  cases hfirst : firstMatch? spelling (longestFirst spelling items) text with
  | none =>
    have hnone := firstMatch?_eq_none.mp hfirst found ((mem_longestFirst spelling).mpr hmem)
    exact absurd hfront hnone
  | some first =>
    obtain ⟨hmemFirst, hfrontFirst, hlongestFirst⟩ := firstMatch?_longest hfirst
    have hlength : (spelling first).length = (spelling found).length :=
      Nat.le_antisymm (hlongest first hmemFirst hfrontFirst) (hlongestFirst found hmem hfront)
    have hfronts := List.prefix_of_prefix_length_le hfrontFirst hfront (Nat.le_of_eq hlength)
    rw [hinjective (hfronts.eq_of_length hlength)]

theorem firstMatch?_eq_none_iff :
    firstMatch? spelling (longestFirst spelling items) text = none ↔
      ∀ item ∈ items, ¬ spelling item <+: text := by
  simp only [firstMatch?_eq_none, mem_longestFirst]

/-- The order of the items does not matter. -/
theorem firstMatch?_congr (hinjective : Function.Injective spelling)
    (hsame : ∀ item, item ∈ items ↔ item ∈ others) (text : List Char) :
    firstMatch? spelling (longestFirst spelling items) text =
      firstMatch? spelling (longestFirst spelling others) text := by
  ext found
  rw [firstMatch?_eq_some_iff hinjective, firstMatch?_eq_some_iff hinjective]
  simp only [IsLongestMatch, hsame]

end Longest

namespace Lexer

variable {first second : List Operator}

theorem nextToken_congr
    (hmatch : ∀ s, firstMatch? Operator.lexemeChars first s = firstMatch? Operator.lexemeChars second s)
    (expected : Bool) (c : Char) (rest : List Char) :
    nextToken first expected c rest = nextToken second expected c rest := by
  simp only [nextToken, operatorToken, hmatch]

theorem tokensFrom_congr
    (hmatch : ∀ s, firstMatch? Operator.lexemeChars first s = firstMatch? Operator.lexemeChars second s)
    (expected : Bool) (s : List Char) :
    tokensFrom first expected s = tokensFrom second expected s := by
  induction hn : s.length using Nat.strong_induction_on generalizing expected s with
  | _ n ih =>
    cases s with
    | nil => rw [tokensFrom_nil, tokensFrom_nil]
    | cons c rest =>
      by_cases hc : Text.isBlank c = true
      · rw [tokensFrom_blank hc, tokensFrom_blank hc]
        exact ih rest.length (by simp [← hn]) expected rest rfl
      · have hc : Text.isBlank c = false := by simpa using hc
        have hsame := nextToken_congr hmatch expected c rest
        cases hnext : nextToken second expected c rest with
        | error error => rw [tokensFrom_error hc (hsame.trans hnext), tokensFrom_error hc hnext]
        | ok result =>
          obtain ⟨t, expectsNext, after⟩ := result
          have hshort := nextToken_shorter hnext
          rw [tokensFrom_token hc (hsame.trans hnext), tokensFrom_token hc hnext,
            ih after.length (by omega) expectsNext after rfl]

end Lexer

theorem tokenizeWith_congr {table other : List Operator} (hsame : ∀ op, op ∈ table ↔ op ∈ other)
    (text : String) : tokenizeWith table text = tokenizeWith other text :=
  Lexer.tokensFrom_congr (firstMatch?_congr (fun _ _ => Operator.lexemeChars_injective) hsame) true
    text.toList

/-- The text has the lexeme at a position, which may be its end. -/
def StandsAt (text : String) (position : Nat) (lexeme : String) : Prop :=
  position ≤ text.toList.length ∧ lexeme.toList <+: text.toList.drop position

/-- One of the lexemes that the text has at a position, of which no other one is longer. -/
def IsLongestAt (text : String) (position : Nat) (lexemes : List String) (lexeme : String) : Prop :=
  lexeme ∈ lexemes ∧ StandsAt text position lexeme ∧
    ∀ other ∈ lexemes, StandsAt text position other → other.toList.length ≤ lexeme.toList.length

instance (text : String) (position : Nat) (lexeme : String) :
    Decidable (StandsAt text position lexeme) :=
  inferInstanceAs (Decidable (_ ∧ _))

instance (text : String) (position : Nat) (lexemes : List String) (lexeme : String) :
    Decidable (IsLongestAt text position lexemes lexeme) :=
  inferInstanceAs (Decidable (_ ∧ _ ∧ _))

/-- The lexemes of a part of the operator table, the longest first. -/
def lexemesOf (table : List Operator) : List String :=
  longestFirst String.toList (table.map Operator.lexeme)

section Lexemes

variable {text : String} {position : Nat} {lexemes : List String} {lexeme : String}

theorem lexemeAt?_eq_some_iff :
    lexemeAt? (longestFirst String.toList lexemes) text position = some lexeme ↔
      IsLongestAt text position lexemes lexeme := by
  unfold lexemeAt?
  split
  next hposition =>
    have hinjective : Function.Injective String.toList := fun _ _ => String.toList_inj.mp
    simp only [firstMatch?_eq_some_iff hinjective, IsLongestMatch, IsLongestAt, StandsAt, hposition,
      true_and]
  next hposition => simp [IsLongestAt, StandsAt, hposition]

theorem lexemeAt?_eq_none_iff :
    lexemeAt? (longestFirst String.toList lexemes) text position = none ↔
      ∀ lexeme ∈ lexemes, ¬ StandsAt text position lexeme := by
  unfold lexemeAt?
  split
  next hposition => simp only [firstMatch?_eq_none_iff, StandsAt, hposition, true_and]
  next hposition => simp [StandsAt, hposition]

@[simp] theorem Operator.toList_lexeme (op : Operator) : op.lexeme.toList = op.lexemeChars :=
  String.toList_ofList

/-- The operator that the lexer finds at a position is the one with this lexeme. -/
theorem map_lexeme_firstMatch? (table : List Operator) (hposition : position ≤ text.toList.length) :
    (firstMatch? Operator.lexemeChars (longestFirst Operator.lexemeChars table)
      (text.toList.drop position)).map Operator.lexeme = lexemeAt? (lexemesOf table) text position := by
  ext lexeme
  rw [lexemesOf, lexemeAt?_eq_some_iff, Option.map_eq_some_iff]
  simp only [firstMatch?_eq_some_iff fun _ _ => Operator.lexemeChars_injective, IsLongestMatch,
    IsLongestAt, StandsAt, hposition, true_and, List.forall_mem_map, Operator.toList_lexeme]
  constructor
  · rintro ⟨op, ⟨hmem, hfront, hlongest⟩, rfl⟩
    rw [Operator.toList_lexeme]
    exact ⟨List.mem_map_of_mem hmem, hfront, hlongest⟩
  · rintro ⟨hmem, hfront, hlongest⟩
    obtain ⟨op, hop, rfl⟩ := List.mem_map.mp hmem
    rw [Operator.toList_lexeme] at hfront hlongest
    exact ⟨op, ⟨hop, hfront, hlongest⟩, rfl⟩

end Lexemes

/-- For every part of the operator table, the lexeme found at a position of a text is the longest one
that the text has there, and none is found exactly if it has none. The lexer takes the operator with
this lexeme, so the order of the table does not matter for the tokens of a text, or for the error. -/
theorem lexemeAt?_longest (table other : List Operator) (hsame : table.Perm other) (text : String) :
    (∀ position lexeme, lexemeAt? (lexemesOf table) text position = some lexeme ↔
      IsLongestAt text position (table.map Operator.lexeme) lexeme) ∧
    (∀ position, lexemeAt? (lexemesOf table) text position = none ↔
      ∀ lexeme ∈ table.map Operator.lexeme, ¬ StandsAt text position lexeme) ∧
    (∀ position ≤ text.toList.length,
      (firstMatch? Operator.lexemeChars (longestFirst Operator.lexemeChars table)
        (text.toList.drop position)).map Operator.lexeme =
          lexemeAt? (lexemesOf table) text position) ∧
    tokenizeWith table text = tokenizeWith other text :=
  ⟨fun _ _ => lexemeAt?_eq_some_iff, fun _ => lexemeAt?_eq_none_iff,
    fun _ => map_lexeme_firstMatch? table,
    tokenizeWith_congr (fun _ => hsame.mem_iff) text⟩

/-- Of three lexemes that begin alike the text has two at this position. -/
theorem lexemeAt?_longest_lessEqual :
    let table := [.binary .less, .binary .shiftLeft, .binary .lessEqual]
    let other := [.binary .lessEqual, .binary .less, .binary .shiftLeft]
    table.Perm other ∧ lexemeAt? (lexemesOf table) "x<=1" 1 = some "<=" ∧
      lexemeAt? (lexemesOf table) "x<=1" 2 = none ∧
      tokenizeWith table "x<=1" = tokenizeWith other "x<=1" := by
  intro table other
  have hsame : table.Perm other := by decide
  obtain ⟨hfound, hnone, -, htokens⟩ := lexemeAt?_longest table other hsame "x<=1"
  exact ⟨hsame, (hfound 1 "<=").mpr (by decide), (hnone 2).mpr (by decide), htokens⟩

end Formula
