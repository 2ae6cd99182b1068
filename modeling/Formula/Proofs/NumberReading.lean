import Formula.Double.Reading
import Formula.Proofs.TokenPlaces
import Mathlib.Data.List.TakeWhile

namespace Formula.Double

theorem digit?_lt_ten {c : Char} {digit : Nat} (h : Text.digit? c = some digit) : digit < 10 := by
  obtain ⟨first, hfind, hdigit⟩ := Option.map_eq_some_iff.mp h
  have hrange := List.find?_some hfind
  simp only [Bool.and_eq_true, decide_eq_true_eq] at hrange
  omega

/-- Digits of all scripts become ASCII digits. -/
theorem plainChar_isDigit {c : Char} (h : Text.isDigit c = true) :
    (plainChar c).isDigit = true := by
  unfold plainChar
  split
  next hascii =>
    rw [Text.isDigit_eq_inRanges] at h
    obtain ⟨range, hmem, hlow, hhigh⟩ := Text.inRanges_eq_true.mp h
    have only : ∀ range ∈ Text.digitRanges, range.1 < 127 → range = (48, 57) := by decide
    cases only range hmem (by omega)
    simp only [Char.isDigit, Bool.and_eq_true, decide_eq_true_eq, ge_iff_le, UInt32.le_iff_toNat_le]
    exact ⟨hlow, hhigh⟩
  next =>
    rw [if_neg (by simp [Text.isBlank_of_isDigit h])]
    obtain ⟨digit, hdigit⟩ := Option.isSome_iff_exists.mp h
    rw [hdigit]
    have ascii : ∀ digit < 10, (Char.ofNat (48 + digit)).isDigit = true := by decide
    exact ascii digit (digit?_lt_ten hdigit)

theorem strip_eq_self {s : List Char} (h : ∀ c ∈ s, isEdge c = false) : strip s = s := by
  have keep : ∀ t : List Char, (∀ c ∈ t, isEdge c = false) → t.dropWhile isEdge = t := by
    intro t ht
    cases t with
    | nil => rfl
    | cons c rest => simp [ht c (by simp)]
  rw [strip, keep s h, keep s.reverse (by simpa using h), List.reverse_reverse]

theorem joinDigits?_eq_some {afterDigit : Bool} {s : List Char} (h : '_' ∉ s) :
    joinDigits? afterDigit s = some s := by
  induction s generalizing afterDigit with
  | nil => rfl
  | cons c rest ih =>
    rw [List.mem_cons, not_or] at h
    rw [joinDigits?, if_neg (Ne.symm h.1), ih h.2]
    rfl

theorem toNat_of_digit_or_point {c : Char} (h : c.isDigit = true ∨ c = '.') :
    (48 ≤ c.toNat ∧ c.toNat ≤ 57) ∨ c.toNat = 46 := by
  rcases h with h | rfl
  · exact .inl (Char.isDigit_iff_toNat.mp h)
  · exact .inr rfl

theorem decimal?_of_digitsWithPoint {s : List Char} (h : Lexer.DigitsWithPoint Char.isDigit s) :
    ∃ value, decimal? s = some value := by
  cases h with
  | whole hne hall =>
    obtain ⟨htake, hdrop⟩ := span_append [] hall (by simp)
    rw [List.append_nil] at htake hdrop
    simp [decimal?, htake, hdrop, hne]
  | @fraction digits more hne hall hmore =>
    obtain ⟨htake, hdrop⟩ := span_append ('.' :: more) hall (by rintro c ⟨⟩; decide)
    obtain ⟨hmoreTake, hmoreDrop⟩ := span_append [] hmore (by simp)
    rw [List.append_nil] at hmoreTake hmoreDrop
    simp only [decimal?, htake, hdrop, hmoreTake, hmoreDrop]
    simp [hne]

theorem toLower_of_isDigit {c : Char} (h : c.isDigit = true) : c.toLower = c := by
  have hc := (Char.isDigit_iff_toNat.mp h).2
  have below : ¬ (c.val ≥ 'A'.val ∧ c.val ≤ 'Z'.val) := by
    intro hupper
    have hle := UInt32.le_iff_toNat_le.mp hupper.1
    have bound : c.val.toNat ≤ 57 := hc
    have : ('A'.val).toNat = 65 := rfl
    omega
  exact dif_neg below

theorem signed?_of_digitsWithPoint {s : List Char} (h : Lexer.DigitsWithPoint Char.isDigit s) :
    ∃ value, signed? s = some value := by
  obtain ⟨value, hvalue⟩ := decimal?_of_digitsWithPoint h
  obtain ⟨c, rest, rfl, hc⟩ := h.head
  have unlike : ∀ d : Char, d.isDigit = false → c ≠ d := by
    rintro d hd rfl
    simp [hc] at hd
  have unsigned : signed? (c :: rest) = unsigned? false (c :: rest) := by
    unfold signed?
    split
    next heq => exact absurd (List.cons.inj heq).1 (unlike '-' (by decide))
    next heq => exact absurd (List.cons.inj heq).1 (unlike '+' (by decide))
    next => rfl
  refine ⟨value.toFloat false, ?_⟩
  simp [unsigned, unsigned?, toLower_of_isDigit hc, unlike 'n' (by decide),
    unlike 'i' (by decide), hvalue]

theorem read?_of_isNumber {s : String} (h : Lexer.IsNumber s.toList) :
    ∃ value, read? s = some value := by
  have hplain : Lexer.DigitsWithPoint Char.isDigit (s.toList.map plainChar) :=
    h.map (fun c hc => plainChar_isDigit hc) (by decide)
  have hstrip : strip (s.toList.map plainChar) = s.toList.map plainChar := by
    refine strip_eq_self (fun c hc => ?_)
    have hrange := toNat_of_digit_or_point (hplain.digit_or_point c hc)
    simp only [isEdge, Bool.or_eq_false_iff, beq_eq_false_iff_ne, Bool.and_eq_false_iff,
      decide_eq_false_iff_not]
    refine ⟨?_, by omega⟩
    rintro rfl
    revert hrange
    decide
  have hjoin : joinDigits? false (s.toList.map plainChar) = some (s.toList.map plainChar) := by
    refine joinDigits?_eq_some (fun hmem => ?_)
    have hrange := toNat_of_digit_or_point (hplain.digit_or_point _ hmem)
    revert hrange
    decide
  rw [read?, readChars?, hstrip, hjoin]
  exact signed?_of_digitsWithPoint hplain

end Formula.Double
