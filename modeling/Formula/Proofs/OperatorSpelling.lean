import Formula.Operator

namespace Formula

section Longest

variable {α : Type} (spelling : α → List Char)

theorem longestFirst_pairwise (items : List α) :
    (longestFirst spelling items).Pairwise
      (fun a b => (spelling b).length ≤ (spelling a).length) := by
  refine List.Pairwise.imp (fun hab => ?_) (List.pairwise_mergeSort ?_ ?_ items)
  · simpa using hab
  · intro a b c hab hbc
    simp only [decide_eq_true_eq] at *
    omega
  · intro a b
    simp only [Bool.or_eq_true, decide_eq_true_eq]
    omega

theorem mem_longestFirst {items : List α} {item : α} :
    item ∈ longestFirst spelling items ↔ item ∈ items :=
  List.mem_mergeSort

variable {spelling}

theorem firstMatch?_eq_none {candidates : List α} {text : List Char} :
    firstMatch? spelling candidates text = none ↔
      ∀ item ∈ candidates, ¬ spelling item <+: text := by
  simp [firstMatch?, List.find?_eq_none]

theorem firstMatch?_longest {items : List α} {text : List Char} {found : α}
    (h : firstMatch? spelling (longestFirst spelling items) text = some found) :
    found ∈ items ∧ spelling found <+: text ∧
      ∀ item ∈ items, spelling item <+: text →
        (spelling item).length ≤ (spelling found).length := by
  obtain ⟨hf, before, after, hsplit, hbefore⟩ := List.find?_eq_some_iff_append.mp h
  have hmem : found ∈ longestFirst spelling items := by simp [hsplit]
  refine ⟨(mem_longestFirst spelling).mp hmem, List.isPrefixOf_iff_prefix.mp hf, ?_⟩
  intro item hi hp
  have hitem := (mem_longestFirst spelling).mpr hi
  have hsorted := longestFirst_pairwise spelling items
  rw [hsplit] at hitem hsorted
  rcases List.mem_append.mp hitem with hb | hb
  · have := hbefore item hb
    simp [List.isPrefixOf_iff_prefix.mpr hp] at this
  · rcases List.mem_cons.mp hb with rfl | ha
    · exact Nat.le_refl _
    · exact (List.pairwise_cons.mp (List.pairwise_append.mp hsorted).2.1).1 item ha

end Longest

namespace Operator

theorem lexemeChars_injective {a b : Operator} (h : a.lexemeChars = b.lexemeChars) : a = b := by
  have apart : ∀ a ∈ all, ∀ b ∈ all, a.lexemeChars = b.lexemeChars → a = b := by decide
  exact apart a (mem_all a) b (mem_all b) h

theorem lexeme_injective {a b : Operator} (h : a.lexeme = b.lexeme) : a = b :=
  lexemeChars_injective (String.ofList_injective h)

theorem ofLexeme?_lexeme (op : Operator) : ofLexeme? op.lexeme = some op := by
  have found : (ofLexeme? op.lexeme).isSome := by
    simp only [ofLexeme?, List.isSome_find?, List.any_eq_true, beq_iff_eq]
    exact ⟨op, mem_all op, rfl⟩
  obtain ⟨other, h⟩ := Option.isSome_iff_exists.mp found
  have same : other.lexeme = op.lexeme := by simpa using List.find?_some h
  rw [h, lexeme_injective same]

theorem lexeme_of_ofLexeme? {text : String} {op : Operator} (h : ofLexeme? text = some op) :
    op.lexeme = text := by
  simpa using List.find?_some h

theorem isRightAssociative_of_precedence {a b : Operator} (h : a.precedence = b.precedence) :
    a.isRightAssociative = b.isRightAssociative := by
  have alike : ∀ a ∈ all, ∀ b ∈ all, a.precedence = b.precedence →
      a.isRightAssociative = b.isRightAssociative := by decide
  exact alike a (mem_all a) b (mem_all b) h

end Operator

end Formula
