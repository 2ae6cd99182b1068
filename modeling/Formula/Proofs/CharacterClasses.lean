import Formula.Text.Blank
import Formula.Text.Digit
import Formula.Text.Letter
import Formula.Text.Numeral

namespace Formula.Text

/-- Whether no range of the one list meets a range of the other. -/
def areApart (first second : List (Nat × Nat)) : Bool :=
  first.all (fun a => second.all (fun b => Nat.blt a.2 b.1 || Nat.blt b.2 a.1))

theorem inRanges_eq_true {ranges : List (Nat × Nat)} {code : Nat} :
    inRanges ranges code = true ↔ ∃ range ∈ ranges, range.1 ≤ code ∧ code ≤ range.2 := by
  simp [inRanges]

theorem inRanges_of_areApart {first second : List (Nat × Nat)} {code : Nat}
    (apart : areApart first second = true) (h : inRanges second code = true) :
    inRanges first code = false := by
  obtain ⟨b, hb, hl, hh⟩ := inRanges_eq_true.mp h
  refine Bool.eq_false_iff.mpr (fun hs => ?_)
  obtain ⟨a, ha, hlow, hhigh⟩ := inRanges_eq_true.mp hs
  have hab := List.all_eq_true.mp (List.all_eq_true.mp apart a ha) b hb
  simp only [Bool.or_eq_true, Nat.blt_eq] at hab
  omega

/-- The digits as ranges, like the other classes. -/
def digitRanges : List (Nat × Nat) :=
  zeros.map (fun first => (first, first + 9))

theorem isDigit_eq_inRanges (c : Char) : isDigit c = inRanges digitRanges c.toNat := by
  simp only [isDigit, digit?, Option.isSome_map, List.isSome_find?, inRanges, digitRanges,
    List.any_map]
  congr 1
  funext first
  have same : c.toNat < first + 10 ↔ c.toNat ≤ first + 9 := by omega
  simp [same]

theorem isBlank_of_isDigit {c : Char} (h : isDigit c = true) : isBlank c = false :=
  inRanges_of_areApart (by decide +kernel) (isDigit_eq_inRanges c ▸ h)

theorem isBlank_of_isLetter {c : Char} (h : isLetter c = true) : isBlank c = false :=
  inRanges_of_areApart (by decide +kernel) h

theorem isBlank_of_isNumeral {c : Char} (h : isNumeral c = true) : isBlank c = false :=
  inRanges_of_areApart (by decide +kernel) h

theorem isLetter_of_isDigit {c : Char} (h : isDigit c = true) : isLetter c = false :=
  inRanges_of_areApart (by decide +kernel) (isDigit_eq_inRanges c ▸ h)

theorem isDigit_of_isLetter {c : Char} (h : isLetter c = true) : isDigit c = false :=
  Bool.eq_false_iff.mpr (fun hd => by simp [isLetter_of_isDigit hd] at h)

end Formula.Text
