import Formula.Proofs.DoubleDifference

namespace Formula.Double

open Float.Model
open Float.Model.UnpackedFloat (Sign Accuracy ExtendedMantissa unpackSign unpackExponent
  unpackMantissa)

variable {mantissa : Nat} {exponent : Int}

/-- Mantissa and exponent of a double with all 53 bits in use. -/
structure Full (mantissa : Nat) (exponent : Int) : Prop where
  lower : 2 ^ 52 ≤ mantissa
  upper : mantissa < 2 ^ 53
  least : -1074 ≤ exponent
  greatest : exponent ≤ 971

/-- The pattern without its sign; the leading bit of the mantissa adds 1 to the field. -/
def fullBits (mantissa : Nat) (exponent : Int) : Nat :=
  (exponent + 1074).toNat * 2 ^ 52 + mantissa

def signBits : Sign → Nat
  | .positive => 0
  | .negative => 2 ^ 63

theorem signBits_cases (sign : Sign) : signBits sign = 0 ∨ signBits sign = 2 ^ 63 := by
  cases sign with
  | positive => exact .inl rfl
  | negative => exact .inr rfl

theorem Full.pos (h : Full mantissa exponent) : 0 < mantissa :=
  (Nat.two_pow_pos 52).trans_le h.lower

theorem Full.log2 (h : Full mantissa exponent) : mantissa.log2 = 52 :=
  (Nat.log2_eq_iff h.pos.ne').mpr ⟨h.lower, h.upper⟩

theorem Full.patternBits_lt (h : Full mantissa exponent) (sign : Sign) :
    signBits sign + fullBits mantissa exponent < 2 ^ 64 := by
  have hsigns := signBits_cases sign
  obtain ⟨-, hupper, -, hgreatest⟩ := h
  unfold fullBits
  omega

section Pattern

variable {sign : Sign} {b : BitVec Format.binary64.numBits}

theorem Full.field (h : Full mantissa exponent)
    (hb : b.toNat = signBits sign + fullBits mantissa exponent) :
    b.toNat / 2 ^ 52 % 2 ^ 11 = (exponent + 1075).toNat := by
  have hsigns := signBits_cases sign
  obtain ⟨hlower, hupper, hleast, hgreatest⟩ := h
  unfold fullBits at hb
  omega

theorem Full.exponent_ne_ones (h : Full mantissa exponent)
    (hb : b.toNat = signBits sign + fullBits mantissa exponent) : unpackExponent b ≠ -1#11 := by
  have hfield := h.field hb
  have hgreatest := h.greatest
  intro hsame
  have hones := (unpackExponent_eq_ones b).mp hsame
  omega

theorem Full.unpack (h : Full mantissa exponent)
    (hb : b.toNat = signBits sign + fullBits mantissa exponent) :
    UnpackedFloat.unpack .binary64 b = .finite sign mantissa exponent h.pos := by
  have hsigns := signBits_cases sign
  have hfield := h.field hb
  have hones := h.exponent_ne_ones hb
  obtain ⟨hlower, hupper, hleast, hgreatest⟩ := h
  unfold fullBits at hb
  have hfraction : b.toNat % 2 ^ 52 = mantissa - 2 ^ 52 := by omega
  have hexponent : (unpackExponent b).toNat = (exponent + 1075).toNat := by
    rw [unpackExponent_toNat, hfield]
  have hzero : unpackExponent b ≠ 0#11 := by
    intro hsame
    have hempty := (unpackExponent_eq_zero b).mp hsame
    omega
  have hsign : Sign.ofBitVec (unpackSign b) = sign := by
    cases sign with
    | positive =>
      have hlow : b.toNat < 2 ^ 63 := by rw [hb, signBits]; omega
      rw [Sign.ofBitVec, if_pos ((unpackSign_eq_zero b).mpr hlow)]
    | negative =>
      have hhigh : ¬ b.toNat < 2 ^ 63 := by rw [hb, signBits]; omega
      rw [Sign.ofBitVec, if_neg (mt (unpackSign_eq_zero b).mp hhigh)]
  have hwhole : (1#1 ++ unpackMantissa b).toNat = mantissa := by
    rw [leading_append_toNat, hfraction]
    omega
  rw [UnpackedFloat.unpack]
  simp only [if_neg hones, if_neg hzero, hsign, hwhole, hexponent, exponentBias_binary64]
  congr 1
  show ((exponent + 1075).toNat : Int) - (1023 + 52) = exponent
  omega

end Pattern

theorem Full.pack (h : Full mantissa exponent) (sign : Sign) :
    (UnpackedFloat.pack .binary64 (.finite sign mantissa exponent h.pos)).toNat =
      signBits sign + fullBits mantissa exponent := by
  obtain ⟨b, hb⟩ : ∃ b : BitVec Format.binary64.numBits,
      b.toNat = signBits sign + fullBits mantissa exponent :=
    ⟨BitVec.ofNatLT _ (h.patternBits_lt sign), rfl⟩
  have hnumber : UnpackedFloat.isNaNBits b = false :=
    decide_eq_false fun hnan => h.exponent_ne_ones hb hnan.1
  rw [← h.unpack hb, UnpackedFloat.pack_unpack b, hnumber, if_neg Bool.false_ne_true, hb]

theorem toModel_ofBits (bits : UInt64) : (Float.ofBits bits).toModel =
    Float.Model.pack (UnpackedFloat.unpack .binary64 bits.toBitVec) :=
  rfl

/-- Reading a pattern and writing it again changes nothing. -/
theorem Full.toBits_ofBits (h : Full mantissa exponent) {sign : Sign} {bits : UInt64}
    (hbits : bits.toNat = signBits sign + fullBits mantissa exponent) :
    (Float.ofBits bits).toBits = bits := by
  have hmodel : (Float.ofBits bits).toModel =
      Float.Model.pack (.finite sign mantissa exponent h.pos) := by
    rw [toModel_ofBits, h.unpack hbits]
  rw [Float.toBits, hmodel]
  exact UInt64.toNat_inj.mp ((h.pack sign).trans hbits.symm)

theorem shiftRight_exact (mantissa count : Nat) :
    ExtendedMantissa.ofMantissaAndAccuracy (mantissa <<< count) .exact >>> count =
      .ofMantissaAndAccuracy mantissa .exact := by
  induction count generalizing mantissa with
  | zero => rfl
  | succ count ih =>
    have hstep : mantissa <<< (count + 1) = (mantissa * 2) <<< count := by
      rw [Nat.shiftLeft_eq, Nat.shiftLeft_eq, Nat.pow_succ', Nat.mul_assoc]
    have hshift (em : ExtendedMantissa) : em >>> (count + 1) = (em >>> count).shiftRightOne := rfl
    rw [hstep, hshift, ih]
    simp [ExtendedMantissa.shiftRightOne, ExtendedMantissa.ofMantissaAndAccuracy]

/-- A natural number as an unpacked double: its bits are the leading ones of the mantissa. -/
def whole (count : Nat) (hpos : 0 < count) : UnpackedFloat :=
  .finite .positive (count <<< (52 - count.log2)) (count.log2 - 52) (shiftLeft_pos hpos _)

variable {count : Nat}

theorem two_pow_split {m n k : Nat} (h : m = n + k) : 2 ^ m = 2 ^ n * 2 ^ k := by
  rw [h, Nat.pow_add]

theorem log2_lt (hlt : count < 2 ^ 53) : count.log2 < 53 := by
  by_cases hzero : count = 0
  · subst hzero
    decide
  · exact (Nat.log2_lt hzero).mpr hlt

theorem full_whole (hpos : 0 < count) (hlt : count < 2 ^ 53) :
    Full (count <<< (52 - count.log2)) (count.log2 - 52) := by
  have hlog := log2_lt hlt
  have hsplit : 2 ^ 52 = 2 ^ count.log2 * 2 ^ (52 - count.log2) :=
    two_pow_split (by omega)
  have hlower := Nat.log2_self_le hpos.ne'
  have hupper : count < 2 ^ (count.log2 + 1) := Nat.lt_log2_self
  have hpow := Nat.two_pow_pos (52 - count.log2)
  rw [Nat.shiftLeft_eq]
  refine ⟨?_, ?_, by omega, by omega⟩
  · rw [hsplit]
    exact Nat.mul_le_mul_right _ hlower
  · have hdouble : 2 ^ 53 = 2 ^ (count.log2 + 1) * 2 ^ (52 - count.log2) :=
      two_pow_split (by omega)
    rw [hdouble]
    exact Nat.mul_lt_mul_of_pos_right hupper hpow

theorem log2_shiftLeft (hpos : 0 < count) (places : Nat) :
    (count <<< places).log2 = count.log2 + places := by
  have hshifted := shiftLeft_pos hpos places
  rw [Nat.log2_eq_iff hshifted.ne', Nat.shiftLeft_eq]
  have hpow := Nat.two_pow_pos places
  refine ⟨?_, ?_⟩
  · rw [Nat.pow_add]
    exact Nat.mul_le_mul_right _ (Nat.log2_self_le hpos.ne')
  · have hsplit : 2 ^ (count.log2 + places + 1) = 2 ^ (count.log2 + 1) * 2 ^ places :=
      two_pow_split (by omega)
    rw [hsplit]
    exact Nat.mul_lt_mul_of_pos_right Nat.lt_log2_self hpow

theorem shiftToTargetExponent_full (h : Full mantissa exponent) :
    UnpackedFloat.shiftToTargetExponent .binary64 mantissa exponent .exact =
      (.ofMantissaAndAccuracy mantissa .exact, exponent) := by
  have hnone : (Format.binary64.targetExponent (totalExponent mantissa exponent) - exponent).toNat
      = 0 := by
    have hleast := h.least
    rw [targetExponent_binary64, totalExponent, h.log2]
    omega
  simp only [UnpackedFloat.shiftToTargetExponent, UnpackedFloat.shiftToExponent, hnone]
  exact Prod.ext rfl (Int.add_zero exponent)

theorem roundedMantissa_exact (mantissa : Nat) :
    (ExtendedMantissa.ofMantissaAndAccuracy mantissa .exact).roundedMantissa = mantissa :=
  rfl

/-- A mantissa of which the places behind the 53rd bit are empty is rounded to the others. -/
theorem round_full (h : Full mantissa exponent) (places : Nat) :
    UnpackedFloat.round .binary64 .positive (mantissa <<< places) (exponent - places) =
      .finite .positive mantissa exponent h.pos := by
  have hleast := h.least
  have htarget : Format.binary64.targetExponent
      (totalExponent (mantissa <<< places) (exponent - places)) = exponent := by
    rw [targetExponent_binary64, totalExponent, log2_shiftLeft h.pos, h.log2]
    omega
  have hnone : ((exponent - places) - exponent).toNat = 0 := by omega
  have hplaces : (exponent - (exponent - places)).toNat = places := by omega
  have hkeep : UnpackedFloat.decreaseExponent (mantissa <<< places) (exponent - places) exponent =
      (mantissa <<< places, exponent - places) := by
    simp only [UnpackedFloat.decreaseExponent, hnone]
    exact Prod.ext rfl (Int.sub_zero _)
  have hshift : UnpackedFloat.shiftToTargetExponent .binary64 (mantissa <<< places)
      (exponent - places) .exact = (.ofMantissaAndAccuracy mantissa .exact, exponent) := by
    simp only [UnpackedFloat.shiftToTargetExponent, UnpackedFloat.shiftToExponent, htarget,
      hplaces, shiftRight_exact]
    exact Prod.ext rfl (by omega)
  simp only [UnpackedFloat.round, htarget, hkeep, UnpackedFloat.roundWithAccuracy, hshift,
    roundedMantissa_exact, shiftToTargetExponent_full h, ofMantissaAndAccuracy_mantissa]
  exact dif_neg h.pos.ne'

theorem normalize_pos (hpos : 0 < mantissa) (zeroSign : Sign) :
    UnpackedFloat.normalize .binary64 mantissa exponent zeroSign =
      UnpackedFloat.round .binary64 .positive mantissa exponent := by
  have hgreater : compare (mantissa : Int) 0 = .gt := Int.compare_eq_gt.mpr (by omega)
  rw [UnpackedFloat.normalize, hgreater]
  rfl

/-- Positive doubles are added over the lesser of their exponents. -/
theorem add_positive {mantissa' : Nat} {exponent' : Int} (hpos : 0 < mantissa)
    (hpos' : 0 < mantissa') :
    UnpackedFloat.add .binary64 (.finite .positive mantissa exponent hpos)
        (.finite .positive mantissa' exponent' hpos') =
      UnpackedFloat.round .binary64 .positive
        (mantissa <<< (exponent - min exponent exponent').toNat +
          mantissa' <<< (exponent' - min exponent exponent').toNat) (min exponent exponent') := by
  have hshifted := shiftLeft_pos hpos (exponent - min exponent exponent').toNat
  simp only [UnpackedFloat.add, UnpackedFloat.decreaseExponent, Sign.apply]
  rw [← Int.natCast_add]
  exact normalize_pos (Nat.add_pos_left hshifted _) _

theorem add_whole (hpos : 0 < count) (hlt : count + 1 < 2 ^ 53) :
    UnpackedFloat.add .binary64 (whole count hpos) (whole 1 Nat.one_pos) =
      whole (count + 1) (Nat.succ_pos count) := by
  have hfits : count < 2 ^ 53 := by omega
  have hlog := log2_lt hfits
  have hlog' := log2_lt hlt
  have hone : (1 : Nat).log2 = 0 := by decide
  have hleast : min ((count.log2 : Int) - 52) ((Nat.log2 1 : Int) - 52) = -52 := by
    rw [hone]
    omega
  have hplaces : (((count.log2 : Int) - 52) - (-52)).toNat = count.log2 := by omega
  have hnone : (((Nat.log2 1 : Nat) : Int) - 52 - (-52)).toNat = 0 := by rw [hone]; decide
  -- Over the exponent of 1 each number is followed by 52 empty places.
  have hover (n : Nat) (hn : n.log2 < 53) : n <<< 52 = (n <<< (52 - n.log2)) <<< n.log2 := by
    rw [← Nat.shiftLeft_add]
    congr 1
    omega
  have hsum : (count <<< (52 - count.log2)) <<< count.log2 +
      (1 <<< (52 - Nat.log2 1)) <<< 0 =
        ((count + 1) <<< (52 - (count + 1).log2)) <<< (count + 1).log2 := by
    have hdistributes (places : Nat) :
        count <<< places + 1 <<< places = (count + 1) <<< places := by
      rw [Nat.shiftLeft_eq, Nat.shiftLeft_eq, Nat.shiftLeft_eq, Nat.add_mul]
    rw [← hover count hlog, ← hover (count + 1) hlog', hone, Nat.sub_zero, Nat.shiftLeft_zero]
    exact hdistributes 52
  have hexponent : (-52 : Int) = (((count + 1).log2 : Int) - 52) - (count + 1).log2 := by omega
  unfold whole
  rw [add_positive, hleast, hplaces, hnone, hsum, hexponent]
  exact round_full (full_whole (Nat.succ_pos count) hlt) _

theorem spacing_whole (hpos : 0 < count) : spacing count 1 = count.log2 - 52 := by
  have hone : Nat.log2 1 = 0 := by decide
  have hshort : ¬ count * 2 ^ (-((count.log2 : Int) - (0 : Nat) - 53)).toNat <
      2 ^ 53 * (1 * 2 ^ ((count.log2 : Int) - (0 : Nat) - 53).toNat) := by
    have hsplit : 2 ^ 53 * 2 ^ ((count.log2 : Int) - (0 : Nat) - 53).toNat =
        2 ^ count.log2 * 2 ^ (-((count.log2 : Int) - (0 : Nat) - 53)).toNat := by
      rw [← Nat.pow_add, ← Nat.pow_add]
      congr 1
      omega
    rw [Nat.one_mul, hsplit]
    exact Nat.not_lt.mpr (Nat.mul_le_mul_right _ (Nat.log2_self_le hpos.ne'))
  simp only [spacing, hone, Nat.pow_eq, if_neg hshort]
  omega

theorem roundEven_one (n : Nat) : roundEven n 1 = n := by
  unfold roundEven
  rw [Nat.div_one, Nat.mod_one]
  rfl

theorem magnitudeBits_whole (hpos : 0 < count) (hlt : count < 2 ^ 53) :
    magnitudeBits count 1 = fullBits (count <<< (52 - count.log2)) (count.log2 - 52) := by
  have hlog := log2_lt hlt
  have hfull := full_whole hpos hlt
  have hplaces : (-((count.log2 : Int) - 52)).toNat = 52 - count.log2 := by omega
  have hnone : ((count.log2 : Int) - 52).toNat = 0 := by omega
  have hupper := hfull.upper
  simp only [magnitudeBits, if_neg hpos.ne', spacing_whole hpos, hplaces, hnone, Nat.pow_eq,
    Nat.pow_zero, Nat.mul_one, roundEven_one, ← Nat.shiftLeft_eq]
  unfold fullBits
  omega

theorem toModel_ofInt (hpos : 0 < count) (hlt : count < 2 ^ 53) :
    (ofInt count).toModel = Float.Model.pack (whole count hpos) := by
  have hlog := log2_lt hlt
  have hfull := full_whole hpos hlt
  have hbits : (UInt64.ofNat (magnitudeBits count 1)).toNat =
      signBits .positive + fullBits (count <<< (52 - count.log2)) (count.log2 - 52) := by
    have hbound := hfull.patternBits_lt .positive
    rw [signBits, Nat.zero_add] at hbound ⊢
    rw [UInt64.toNat_ofNat', magnitudeBits_whole hpos hlt]
    exact Nat.mod_eq_of_lt hbound
  have hnearest : ofInt count = Float.ofBits (UInt64.ofNat (magnitudeBits count 1)) := by
    have hsign : decide ((count : Int) < 0) = false := decide_eq_false (by omega)
    simp only [ofInt, nearest, hsign, Int.natAbs_natCast, Bool.false_eq_true, ↓reduceIte,
      Nat.zero_add]
  rw [hnearest, toModel_ofBits, hfull.unpack hbits, whole]

theorem unpack_ofInt (hpos : 0 < count) (hlt : count < 2 ^ 53) :
    (ofInt count).toModel.unpack = whole count hpos := by
  rw [toModel_ofInt hpos hlt]
  exact (full_whole hpos hlt).unpack ((full_whole hpos hlt).pack .positive)

theorem eq_of_toModel {x y : Float} (h : x.toModel = y.toModel) : x = y := by
  cases x
  cases y
  exact congrArg Float.ofModel h

/-- Below 2^53 adding 1 gives the double of the next number. -/
theorem ofInt_add_one (hlt : count < 2 ^ 53) :
    ofInt count + 1 = ofInt (count + 1 : Nat) := by
  by_cases hzero : count = 0
  · subst hzero
    rfl
  by_cases hlast : count + 1 = 2 ^ 53
  · obtain rfl : count = 2 ^ 53 - 1 := by omega
    decide +kernel
  have hpos : 0 < count := by omega
  have hnext : count + 1 < 2 ^ 53 := by omega
  have hone : (1 : Float).toModel.unpack = whole 1 Nat.one_pos := by rfl
  apply eq_of_toModel
  rw [toModel_ofInt (Nat.succ_pos count) hnext]
  show Float.Model.pack (UnpackedFloat.add .binary64 (ofInt count).toModel.unpack
    (1 : Float).toModel.unpack) = Float.Model.pack (whole (count + 1) (Nat.succ_pos count))
  rw [unpack_ofInt hpos (by omega), hone, add_whole hpos hnext]

theorem ofInt_greatest_add_one : ofInt (2 ^ 53 : Nat) + 1 = ofInt (2 ^ 53 : Nat) := by
  decide +kernel

end Formula.Double
