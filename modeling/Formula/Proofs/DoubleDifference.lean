import Formula.Proofs.DoubleClasses

namespace Formula.Double

open Float.Model
open Float.Model.UnpackedFloat (Sign Accuracy ExtendedMantissa unpackExponent unpackMantissa)

theorem shiftRight_mantissa (em : ExtendedMantissa) (count : Nat) :
    (em >>> count).mantissa = em.mantissa / 2 ^ count := by
  induction count with
  | zero => simp [HShiftRight.hShiftRight, Nat.repeat]
  | succ count ih =>
    have hstep : em >>> (count + 1) = (em >>> count).shiftRightOne := rfl
    rw [hstep, ExtendedMantissa.shiftRightOne, ih, Nat.div_div_eq_div_mul, ← Nat.pow_succ]

theorem ofMantissaAndAccuracy_mantissa (mantissa : Nat) (accuracy : Accuracy) :
    (ExtendedMantissa.ofMantissaAndAccuracy mantissa accuracy).mantissa = mantissa := by
  rcases accuracy with _ | order
  · rfl
  · cases order <;> rfl

theorem le_roundToNearestEven (mantissa : Nat) (accuracy : Accuracy) :
    mantissa ≤ accuracy.roundToNearestEven mantissa := by
  rcases accuracy with _ | order
  · exact le_refl mantissa
  · cases order <;> simp [Accuracy.roundToNearestEven]

theorem targetExponent_binary64 (total : Int) :
    Format.binary64.targetExponent total = max (total - 53) (-1074) := by
  rfl

variable {mantissa : Nat} {exponent : Int}

theorem shiftLeft_pos (hpos : 0 < mantissa) (count : Nat) : 0 < mantissa <<< count := by
  rw [Nat.shiftLeft_eq]
  exact Nat.mul_pos hpos (Nat.two_pow_pos _)

/-- An extended mantissa and an exponent as they are after a shift to the target exponent. -/
structure Placed (placed : ExtendedMantissa × Int) : Prop where
  pos : 0 < placed.1.mantissa
  fits : placed.1.mantissa < 2 ^ 53
  least : -1074 ≤ placed.2

theorem shiftToTargetExponent_placed (accuracy : Accuracy) (hpos : 0 < mantissa)
    (hleast : -1074 ≤ exponent) :
    Placed (UnpackedFloat.shiftToTargetExponent .binary64 mantissa exponent accuracy) := by
  have hcount : (Format.binary64.targetExponent (totalExponent mantissa exponent) - exponent).toNat
      = mantissa.log2 - 52 := by
    rw [targetExponent_binary64, totalExponent]
    omega
  simp only [UnpackedFloat.shiftToTargetExponent, UnpackedFloat.shiftToExponent, hcount]
  refine ⟨?_, ?_, by dsimp only; omega⟩
  · rw [shiftRight_mantissa, ofMantissaAndAccuracy_mantissa]
    have hle : 2 ^ (mantissa.log2 - 52) ≤ 2 ^ mantissa.log2 :=
      Nat.pow_le_pow_right (by decide) (Nat.sub_le _ _)
    exact Nat.div_pos (hle.trans (Nat.log2_self_le hpos.ne')) (Nat.two_pow_pos _)
  · rw [shiftRight_mantissa, ofMantissaAndAccuracy_mantissa,
      Nat.div_lt_iff_lt_mul (Nat.two_pow_pos _), ← Nat.pow_add]
    exact Nat.lt_log2_self.trans_le (Nat.pow_le_pow_right (by decide) (by omega))

/-- Unpacked doubles that are not zero and do not become it when they are packed. -/
inductive Lasting : UnpackedFloat → Prop
  | nan : Lasting .notANumber
  | infinite (sign : Sign) : Lasting (.infinity sign)
  | finite (sign : Sign) {mantissa : Nat} {exponent : Int} (hpos : 0 < mantissa)
      (hfits : mantissa < 2 ^ 53) (hleast : -1074 ≤ exponent) :
      Lasting (.finite sign mantissa exponent hpos)

theorem roundWithAccuracy_lasting (sign : Sign) (accuracy : Accuracy) (hpos : 0 < mantissa)
    (hleast : -1074 ≤ exponent) :
    Lasting (UnpackedFloat.roundWithAccuracy .binary64 sign mantissa exponent accuracy) := by
  have hfirst := shiftToTargetExponent_placed accuracy hpos hleast
  rw [UnpackedFloat.roundWithAccuracy]
  generalize UnpackedFloat.shiftToTargetExponent .binary64 mantissa exponent accuracy = first
    at hfirst
  have hrounded : 0 < first.1.roundedMantissa :=
    hfirst.pos.trans_le (le_roundToNearestEven _ _)
  have hsecond := shiftToTargetExponent_placed .exact hrounded hfirst.least
  dsimp only
  rw [dif_neg hsecond.pos.ne']
  exact .finite _ _ hsecond.fits hsecond.least

theorem round_lasting (sign : Sign) (hpos : 0 < mantissa) (hleast : -1074 ≤ exponent) :
    Lasting (UnpackedFloat.round .binary64 sign mantissa exponent) := by
  simp only [UnpackedFloat.round, UnpackedFloat.decreaseExponent]
  refine roundWithAccuracy_lasting sign _ (shiftLeft_pos hpos _) ?_
  rw [targetExponent_binary64]
  omega

theorem normalize_lasting {difference : Int} (zeroSign : Sign) (hne : difference ≠ 0)
    (hleast : -1074 ≤ exponent) :
    Lasting (UnpackedFloat.normalize .binary64 difference exponent zeroSign) := by
  rw [UnpackedFloat.normalize]
  split
  next hlt => exact round_lasting _ (by have := Int.compare_eq_lt.mp hlt; omega) hleast
  next heq => exact absurd (Int.compare_eq_eq.mp heq) hne
  next hgt => exact round_lasting _ (by have := Int.compare_eq_gt.mp hgt; omega) hleast

theorem exponentBias_binary64 : Format.binary64.exponentBias = 1023 := by
  rfl

theorem Lasting.bits_ne_zero {u : UnpackedFloat} (h : Lasting u) :
    unpackExponent (u.pack .binary64) ≠ 0#11 ∨ unpackMantissa (u.pack .binary64) ≠ 0#52 := by
  cases h with
  | nan => exact .inl (by decide)
  | infinite sign => exact .inl (by cases sign <;> decide)
  | @finite sign mantissa exponent hpos hfits hleast =>
    rw [UnpackedFloat.pack, exponentBias_binary64]
    dsimp only
    split
    next => exact .inl (by cases sign <;> decide)
    next hfinite =>
      split
      next =>
        -- The exponent field is at least 1 and less than 2 ^ 11 - 1.
        rw [UnpackedFloat.unpackExponent_packComponents, ← BitVec.toNat_ne_iff_ne]
        left
        simp only [BitVec.toNat_ofNat]
        omega
      next hshort =>
        rw [UnpackedFloat.unpackMantissa_packComponents]
        right
        have hlog : mantissa.log2 < 52 := by
          have := (Nat.log2_lt hpos.ne').mpr hfits
          simp only [Format.mantissaBits] at hshort
          omega
        have hlt : mantissa < 2 ^ 52 := (Nat.log2_lt hpos.ne').mp hlog
        rw [← BitVec.toNat_ne_iff_ne]
        simp only [BitVec.toNat_ofNat]
        omega

theorem bits_of_unpack_zero {b : BitVec Format.binary64.numBits} {sign : Sign}
    (h : UnpackedFloat.unpack .binary64 b = .zero sign) :
    unpackExponent b = 0#11 ∧ unpackMantissa b = 0#52 := by
  simp only [UnpackedFloat.unpack] at h
  split at h
  next => split at h <;> cases h
  next =>
    split at h
    next hexponent =>
      split at h
      next hmantissa => exact ⟨hexponent, hmantissa⟩
      next => cases h
    next => cases h

theorem Lasting.unpack_ne_zero {u : UnpackedFloat} (h : Lasting u) (sign : Sign) :
    (Float.Model.pack u).unpack ≠ .zero sign := by
  intro hzero
  obtain ⟨hexponent, hmantissa⟩ := bits_of_unpack_zero hzero
  exact h.bits_ne_zero.elim (absurd hexponent) (absurd hmantissa)

/-- Mantissa and exponent of a finite double as it is unpacked: all 53 bits are in use, or the
exponent is the least one. -/
structure Canonical (mantissa : Nat) (exponent : Int) : Prop where
  fits : mantissa < 2 ^ 53
  least : -1074 ≤ exponent
  full : exponent = -1074 ∨ 2 ^ 52 ≤ mantissa

theorem canonical_of_unpack {b : BitVec Format.binary64.numBits} {sign : Sign}
    {hpos : 0 < mantissa}
    (h : UnpackedFloat.unpack .binary64 b = .finite sign mantissa exponent hpos) :
    Canonical mantissa exponent := by
  simp only [UnpackedFloat.unpack, exponentBias_binary64] at h
  split at h
  next => split at h <;> cases h
  next =>
    split at h
    next hexponent =>
      split at h
      next => cases h
      next =>
        simp only [UnpackedFloat.finite.injEq] at h
        obtain ⟨-, rfl, rfl⟩ := h
        rw [hexponent]
        exact ⟨by omega, by simp, by simp⟩
    next hexponent =>
      simp only [UnpackedFloat.finite.injEq] at h
      obtain ⟨-, rfl, rfl⟩ := h
      have hfield : (unpackExponent b).toNat ≠ 0 := BitVec.toNat_ne_iff_ne.mpr hexponent
      refine ⟨BitVec.isLt _, by omega, .inr ?_⟩
      rw [BitVec.toNat_append, Nat.shiftLeft_eq]
      exact (Nat.le_of_eq (by decide)).trans Nat.left_le_or

/-- At the lesser of two exponents the double that has the greater one does not fit. -/
theorem Canonical.ne_shifted {mantissa' : Nat} {exponent' : Int} (h : Canonical mantissa exponent)
    (h' : Canonical mantissa' exponent') (hlt : exponent < exponent') :
    mantissa ≠ mantissa' <<< (exponent' - exponent).toNat := by
  have hfull : 2 ^ 52 ≤ mantissa' := by
    have := h.least
    exact h'.full.resolve_left (by omega)
  have hshift : 2 ^ 1 ≤ 2 ^ (exponent' - exponent).toNat :=
    Nat.pow_le_pow_right (by decide) (by omega)
  have hfits := h.fits
  rw [Nat.shiftLeft_eq]
  have := Nat.mul_le_mul hfull hshift
  omega

theorem Canonical.eq_of_shifted {mantissa' : Nat} {exponent' : Int}
    (h : Canonical mantissa exponent) (h' : Canonical mantissa' exponent')
    (heq : mantissa <<< (exponent - min exponent exponent').toNat =
      mantissa' <<< (exponent' - min exponent exponent').toNat) :
    mantissa = mantissa' ∧ exponent = exponent' := by
  rcases Int.lt_trichotomy exponent exponent' with hlt | rfl | hlt
  · rw [Int.min_eq_left (by omega), Int.sub_self] at heq
    exact absurd heq (h.ne_shifted h' hlt)
  · rw [Int.min_self, Int.sub_self] at heq
    exact ⟨heq, rfl⟩
  · rw [Int.min_eq_right (by omega), Int.sub_self] at heq
    exact absurd heq.symm (h'.ne_shifted h hlt)

/-- Unpacked doubles that are canonical, as far as they are finite. -/
def IsCanonical (u : UnpackedFloat) : Prop :=
  ∀ sign mantissa exponent hpos, u = .finite sign mantissa exponent hpos →
    Canonical mantissa exponent

theorem isCanonical_unpack (x : Float) : IsCanonical x.toModel.unpack :=
  fun _ _ _ _ h => canonical_of_unpack h

theorem sub_lasting {u v : UnpackedFloat} (hu : IsCanonical u) (hv : IsCanonical v)
    (hne : u.beq v = false) : Lasting (u.sub .binary64 v) := by
  cases u with
  | notANumber => exact .nan
  | infinity s =>
    cases v with
    | notANumber => exact .nan
    | infinity s' =>
      simp only [UnpackedFloat.sub]
      split
      · exact .infinite s
      · exact .nan
    | zero => exact .infinite s
    | finite => exact .infinite s
  | zero s =>
    cases v with
    | notANumber => exact .nan
    | infinity s' => exact .infinite _
    | zero => simp [UnpackedFloat.beq, UnpackedFloat.compare] at hne
    | finite s' m' e' hpos' =>
      have h' := hv _ _ _ _ rfl
      exact .finite _ hpos' h'.fits h'.least
  | finite s m e hpos =>
    have h := hu _ _ _ _ rfl
    cases v with
    | notANumber => exact .nan
    | infinity s' => exact .infinite _
    | zero => exact .finite _ hpos h.fits h.least
    | finite s' m' e' hpos' =>
      have h' := hv _ _ _ _ rfl
      simp only [UnpackedFloat.sub, UnpackedFloat.decreaseExponent]
      refine normalize_lasting _ ?_ (Int.le_min.mpr ⟨h.least, h'.least⟩)
      have hm := shiftLeft_pos hpos (e - min e e').toNat
      have hm' := shiftLeft_pos hpos' (e' - min e e').toNat
      have hne : s = s' → m <<< (e - min e e').toNat ≠ m' <<< (e' - min e e').toNat := by
        rintro rfl heq
        obtain ⟨rfl, rfl⟩ := h.eq_of_shifted h' heq
        cases s <;> simp [UnpackedFloat.beq, UnpackedFloat.compare] at hne
      generalize m <<< (e - min e e').toNat = shifted at hm hne ⊢
      generalize m' <<< (e' - min e e').toNat = shifted' at hm' hne ⊢
      by_cases hs : s = s'
      · subst hs
        have := hne rfl
        cases s <;> simp only [Sign.apply] <;> omega
      · cases s <;> cases s' <;> simp only [Sign.apply] <;> first | omega | exact absurd rfl hs

/-- The difference of two doubles is zero only where they are equal. -/
theorem sub_beq_zero {a b : Float} (hne : (a == b) = false) : (a - b == 0) = false := by
  have hlasting : Lasting (UnpackedFloat.sub .binary64 a.toModel.unpack b.toModel.unpack) :=
    sub_lasting (isCanonical_unpack a) (isCanonical_unpack b) hne
  rw [Bool.eq_false_iff, ne_eq, beq_zero_iff]
  rintro ⟨sign, hzero⟩
  exact hlasting.unpack_ne_zero sign hzero

end Formula.Double
