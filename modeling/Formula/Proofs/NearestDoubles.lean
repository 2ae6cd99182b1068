import Formula.Proofs.ExactValues
import Formula.Proofs.WholeDoubles

namespace Formula.Double

open Float.Model
open Float.Model.UnpackedFloat (Sign)

/-- Rounding `q` to `v` prefers it to the number `w`: it is nearer, or as near and even. -/
def Prefers (q v : ℚ) (even : Prop) (w : ℚ) : Prop :=
  w ≠ v → |v - q| < |w - q| ∨ |v - q| = |w - q| ∧ even

section Prefers

variable {q v w u : ℚ} {even : Prop}

theorem Prefers.scale (h : Prefers q v even w) (hu : 0 < u) :
    Prefers (q * u) (v * u) even (w * u) := by
  have hdistance (z : ℚ) : |z * u - q * u| = |z - q| * u := by
    rw [← sub_mul, abs_mul, abs_of_pos hu]
  intro hne
  rw [hdistance, hdistance, mul_lt_mul_iff_of_pos_right hu, mul_left_inj' hu.ne']
  exact h fun hsame => hne (by rw [hsame])

theorem Prefers.neg (h : Prefers q v even w) : Prefers (-q) (-v) even (-w) := by
  have hdistance (z : ℚ) : |-z - -q| = |z - q| := by
    rw [neg_sub_neg, abs_sub_comm]
  intro hne
  rw [hdistance, hdistance]
  exact h fun hsame => hne (by rw [hsame])

theorem Prefers.imp {even' : Prop} (h : Prefers q v even w) (himp : even → even') :
    Prefers q v even' w :=
  fun hne => (h hne).imp_right fun ⟨hdistance, heven⟩ => ⟨hdistance, himp heven⟩

theorem Prefers.le (h : Prefers q v even w) : |v - q| ≤ |w - q| := by
  by_cases hsame : w = v
  · rw [hsame]
  · rcases h hsame with hnearer | ⟨hdistance, -⟩
    · exact hnearer.le
    · exact hdistance.le

end Prefers

section Rounding

variable {n d : ℕ}

theorem le_roundEven (n d : ℕ) : n / d ≤ roundEven n d := by
  unfold roundEven
  dsimp only
  split_ifs <;> omega

theorem roundEven_le (n d : ℕ) : roundEven n d ≤ n / d + 1 := by
  unfold roundEven
  dsimp only
  split_ifs <;> omega

theorem cast_quotient (n : ℕ) (hd : 0 < d) :
    (n : ℚ) / d = (n / d : ℕ) + (n % d : ℕ) / d := by
  have hne : (d : ℚ) ≠ 0 := by exact_mod_cast hd.ne'
  have hsum : ((d * (n / d) + n % d : ℕ) : ℚ) = n := by rw [Nat.div_add_mod]
  rw [← hsum]
  push_cast
  field_simp

/-- An error of a half is left by rounding to an even integer only. -/
theorem roundEven_error (n : ℕ) (hd : 0 < d) :
    |(roundEven n d : ℚ) - n / d| ≤ 1 / 2 ∧
      (|(roundEven n d : ℚ) - n / d| = 1 / 2 → roundEven n d % 2 = 0) := by
  have hpos : (0 : ℚ) < d := by exact_mod_cast hd
  have hnonneg : (0 : ℚ) ≤ (n % d : ℕ) / d := by positivity
  have hless : ((n % d : ℕ) : ℚ) / d < 1 := by
    rw [div_lt_one hpos]
    exact_mod_cast Nat.mod_lt n hd
  rw [cast_quotient n hd]
  unfold roundEven
  dsimp only
  split_ifs with hlow hhigh
  · have hpart : ((n % d : ℕ) : ℚ) / d < 1 / 2 := by
      rw [div_lt_iff₀ hpos]
      have hcast : (2 : ℚ) * (n % d : ℕ) < d := by exact_mod_cast hlow
      linarith
    rw [sub_add_cancel_left, abs_neg, abs_of_nonneg hnonneg]
    exact ⟨hpart.le, fun heq => absurd heq hpart.ne⟩
  · have hpart : 1 / 2 < ((n % d : ℕ) : ℚ) / d := by
      rw [lt_div_iff₀ hpos]
      have hcast : (d : ℚ) < 2 * (n % d : ℕ) := by exact_mod_cast hhigh
      linarith
    push_cast
    rw [add_sub_add_left_eq_sub, abs_of_nonneg (by linarith)]
    exact ⟨by linarith, fun heq => absurd heq (by linarith)⟩
  · have hpart : ((n % d : ℕ) : ℚ) / d = 1 / 2 := by
      rw [div_eq_div_iff hpos.ne' two_ne_zero]
      have hcast : (n % d) * 2 = 1 * d := by omega
      exact_mod_cast hcast
    refine ⟨?_, fun _ => by omega⟩
    rw [hpart]
    push_cast
    rw [add_sub_add_left_eq_sub]
    rcases Nat.mod_two_eq_zero_or_one (n / d) with hparity | hparity <;> rw [hparity] <;> norm_num

theorem roundEven_prefers (n : ℕ) (hd : 0 < d) (k : ℤ) :
    Prefers (n / d) (roundEven n d) (roundEven n d % 2 = 0) k := by
  obtain ⟨herror, heven⟩ := roundEven_error n hd
  intro hne
  have hapart : (1 : ℚ) ≤ |(k : ℚ) - roundEven n d| := by
    have hdifference : k - roundEven n d ≠ 0 := by
      intro hsame
      exact hne (by exact_mod_cast sub_eq_zero.mp hsame)
    exact_mod_cast Int.one_le_abs hdifference
  have htriangle := abs_sub_le (k : ℚ) (n / d) (roundEven n d)
  rw [abs_sub_comm ((n : ℚ) / d)] at htriangle
  rcases lt_or_eq_of_le herror with hless | hhalf
  · exact .inl (by linarith)
  · rcases lt_or_eq_of_le (show |(roundEven n d : ℚ) - n / d| ≤ |(k : ℚ) - n / d| by linarith)
      with hnearer | hdistance
    · exact .inl hnearer
    · exact .inr ⟨hdistance, heven hhalf⟩

end Rounding

/-- A number that 53 bits are enough for, with an exponent of whatever size. -/
def OnGrid (w : ℚ) : Prop :=
  ∃ k e : ℤ, |k| < 2 ^ 53 ∧ w = k * 2 ^ e

theorem OnGrid.neg {w : ℚ} (h : OnGrid w) : OnGrid (-w) := by
  obtain ⟨k, e, hk, rfl⟩ := h
  refine ⟨-k, e, by rwa [abs_neg], ?_⟩
  push_cast
  ring

theorem significand_lt {x : Float} {negative : Bool} {significand : ℕ} {exponent : ℤ}
    (h : ofFloat x = .finite negative significand exponent) : significand < 2 ^ 53 := by
  have hfraction : x.toBits.toNat % Nat.pow 2 52 < 2 ^ 52 := Nat.mod_lt _ (by decide)
  simp only [ofFloat] at h
  split at h
  next => split at h <;> cases h
  next =>
    split at h
    next =>
      cases h
      omega
    next =>
      cases h
      rw [Nat.pow_eq] at *
      omega

theorem onGrid_value {x : Float} {w : ℚ} (h : value x = some w) : OnGrid w := by
  rw [value_eq_exactValue] at h
  cases hx : ofFloat x with
  | nan => rw [hx] at h; cases h
  | infinite negative => rw [hx] at h; cases h
  | finite negative significand exponent =>
    rw [hx] at h
    cases h
    refine ⟨signed negative significand, exponent, ?_, rfl⟩
    rw [Int.abs_eq_natAbs, signed_natAbs]
    exact_mod_cast significand_lt hx

/-- The exponent of the last of the 53 leading bits. -/
def lastPlace (n : ℕ) : ℤ :=
  n.log2 - 52

/-- The 53 leading bits of a number, rounded to even; they may have become 2^53. -/
def leading (n : ℕ) : ℕ :=
  roundEven (n * 2 ^ (-lastPlace n).toNat) (2 ^ (lastPlace n).toNat)

section Leading

variable {n : ℕ}

/-- Moving the last place to 1 moves the leading bit to 2^52. -/
theorem two_pow_lastPlace (n extra : ℕ) :
    2 ^ (52 + extra) * 2 ^ (lastPlace n).toNat =
      2 ^ (n.log2 + extra) * 2 ^ (-lastPlace n).toNat := by
  rw [← Nat.pow_add, ← Nat.pow_add]
  congr 1
  unfold lastPlace
  omega

theorem le_scaled (hpos : 0 < n) :
    2 ^ 52 * 2 ^ (lastPlace n).toNat ≤ n * 2 ^ (-lastPlace n).toNat := by
  rw [two_pow_lastPlace n 0]
  exact Nat.mul_le_mul_right _ (Nat.log2_self_le hpos.ne')

theorem scaled_lt (n : ℕ) : n * 2 ^ (-lastPlace n).toNat < 2 ^ 53 * 2 ^ (lastPlace n).toNat := by
  rw [two_pow_lastPlace n 1]
  exact Nat.mul_lt_mul_of_pos_right Nat.lt_log2_self (Nat.two_pow_pos _)

theorem le_leading (hpos : 0 < n) : 2 ^ 52 ≤ leading n :=
  ((Nat.le_div_iff_mul_le (Nat.two_pow_pos _)).mpr (le_scaled hpos)).trans (le_roundEven _ _)

theorem leading_le (n : ℕ) : leading n ≤ 2 ^ 53 :=
  (roundEven_le _ _).trans ((Nat.div_lt_iff_lt_mul (Nat.two_pow_pos _)).mpr (scaled_lt n))

/-- The number in units of its last place. -/
theorem cast_scaled (n : ℕ) :
    ((n * 2 ^ (-lastPlace n).toNat : ℕ) : ℚ) / (2 ^ (lastPlace n).toNat : ℕ) =
      n / 2 ^ lastPlace n := by
  rw [two_zpow_eq_div]
  push_cast
  rw [div_div_eq_mul_div]

theorem leading_prefers_whole (n : ℕ) (k : ℤ) :
    Prefers (n / 2 ^ lastPlace n) (leading n) (leading n % 2 = 0) k := by
  have hprefers := roundEven_prefers (n * 2 ^ (-lastPlace n).toNat)
    (Nat.two_pow_pos (lastPlace n).toNat) k
  rwa [cast_scaled] at hprefers

/-- A number below the least one with 53 bits is farther away than that one. -/
theorem leading_prefers_low (hpos : 0 < n) {w : ℚ} (hlow : w < 2 ^ 52) :
    Prefers (n / 2 ^ lastPlace n) (leading n) (leading n % 2 = 0) w := by
  have hscaled : (2 : ℚ) ^ 52 ≤ n / 2 ^ lastPlace n := by
    rw [← cast_scaled, le_div_iff₀ (by positivity)]
    exact_mod_cast le_scaled hpos
  have hleast : |(leading n : ℚ) - n / 2 ^ lastPlace n| ≤ |(2 : ℚ) ^ 52 - n / 2 ^ lastPlace n| := by
    have hprefers := (leading_prefers_whole n (2 ^ 52)).le
    push_cast at hprefers
    exact hprefers
  rw [abs_of_nonpos (sub_nonpos.mpr hscaled)] at hleast
  intro _
  left
  rw [abs_of_nonpos (show w - n / 2 ^ lastPlace n ≤ 0 by linarith)]
  linarith

theorem leading_prefers (hpos : 0 < n) {w : ℚ} (hw : OnGrid w) :
    Prefers n (leading n * 2 ^ lastPlace n) (leading n % 2 = 0) w := by
  obtain ⟨k, e, hk, rfl⟩ := hw
  have hunit : (0 : ℚ) < 2 ^ lastPlace n := by positivity
  have hplace : (2 : ℚ) ^ e = 2 ^ (e - lastPlace n) * 2 ^ lastPlace n := by
    rw [← zpow_add₀ two_ne_zero, sub_add_cancel]
  have hscaled : Prefers (n / 2 ^ lastPlace n) (leading n) (leading n % 2 = 0)
      (k * 2 ^ (e - lastPlace n)) := by
    by_cases hinteger : lastPlace n ≤ e
    · -- In units of the last place the other number is an integer.
      have hwhole : (k : ℚ) * 2 ^ (e - lastPlace n) = (k * 2 ^ (e - lastPlace n).toNat : ℤ) := by
        have hcount : ((e - lastPlace n).toNat : ℤ) = e - lastPlace n := by omega
        push_cast
        rw [← zpow_natCast, hcount]
      rw [hwhole]
      exact leading_prefers_whole n _
    · apply leading_prefers_low hpos
      have hhalf : (2 : ℚ) ^ (e - lastPlace n) ≤ 1 / 2 := by
        have hle : (2 : ℚ) ^ (e - lastPlace n) ≤ 2 ^ (-1 : ℤ) :=
          zpow_le_zpow_right₀ (by norm_num) (by omega)
        norm_num at hle ⊢
        exact hle
      have hsize : |(k : ℚ)| < 2 ^ 53 := by exact_mod_cast hk
      have hfactor : (0 : ℚ) < 2 ^ (e - lastPlace n) := by positivity
      calc (k : ℚ) * 2 ^ (e - lastPlace n)
          ≤ |(k : ℚ)| * 2 ^ (e - lastPlace n) :=
            mul_le_mul_of_nonneg_right (le_abs_self _) hfactor.le
        _ < 2 ^ 53 * 2 ^ (e - lastPlace n) := mul_lt_mul_of_pos_right hsize hfactor
        _ ≤ 2 ^ 53 * (1 / 2) := mul_le_mul_of_nonneg_left hhalf (by norm_num)
        _ = 2 ^ 52 := by norm_num
  rw [hplace, ← mul_assoc]
  have hprefers := hscaled.scale hunit
  rw [div_mul_cancel₀ _ hunit.ne'] at hprefers
  exact hprefers

theorem signed_prefers (sign : Sign) (hpos : 0 < n) {w : ℚ} (hw : OnGrid w) :
    Prefers (sign.apply n) (sign.apply (leading n) * 2 ^ lastPlace n) (leading n % 2 = 0) w := by
  cases sign with
  | positive => exact leading_prefers hpos hw
  | negative =>
    have hopposite := (leading_prefers hpos hw.neg).neg
    rw [neg_neg, ← neg_mul] at hopposite
    exact_mod_cast hopposite

end Leading

/-- No double is nearer to `q`, and one that is as near and another number leaves the last bit of
this one 0. -/
def IsNearest (x : Float) (q : ℚ) : Prop :=
  ∃ v, value x = some v ∧
    ∀ y w, value y = some w → Prefers q v (x.toBits.toNat % 2 = 0) w

theorem Full.value_ofBits {mantissa : ℕ} {exponent : ℤ} (h : Full mantissa exponent) {sign : Sign}
    {bits : UInt64} (hbits : bits.toNat = signBits sign + fullBits mantissa exponent) :
    value (Float.ofBits bits) = some ((sign.apply mantissa : ℚ) * 2 ^ exponent) := by
  have hunpack : (Float.ofBits bits).toModel.unpack = .finite sign mantissa exponent h.pos := by
    have hmodel : (Float.ofBits bits).toModel.toBits = bits := h.toBits_ofBits hbits
    rw [Float.Model.unpack, hmodel]
    exact h.unpack hbits
  rw [value, hunpack]
  rfl

/-- Leading bits that have become 2^53 give the mantissa 2^52 in units twice as large. -/
theorem value_ofBits_leading {significand : ℕ} {exponent : ℤ} {sign : Sign} {bits : UInt64}
    (hlower : 2 ^ 52 ≤ significand) (hupper : significand ≤ 2 ^ 53) (hleast : -1074 ≤ exponent)
    (hgreatest : exponent ≤ 970)
    (hbits : bits.toNat = signBits sign + fullBits significand exponent) :
    (Float.ofBits bits).toBits = bits ∧
      value (Float.ofBits bits) = some ((sign.apply significand : ℚ) * 2 ^ exponent) := by
  by_cases hcarry : significand = 2 ^ 53
  · have hfull : Full (2 ^ 52) (exponent + 1) := ⟨le_rfl, by decide, by omega, by omega⟩
    have hsame : fullBits significand exponent = fullBits (2 ^ 52) (exponent + 1) := by
      unfold fullBits
      omega
    have hdouble : (sign.apply (2 ^ 53 : ℕ) : ℚ) = sign.apply (2 ^ 52 : ℕ) * 2 := by
      cases sign <;> norm_num [Sign.apply]
    rw [hsame] at hbits
    rw [hcarry, hdouble, mul_assoc, mul_comm (2 : ℚ), ← zpow_add_one₀ two_ne_zero]
    exact ⟨hfull.toBits_ofBits hbits, hfull.value_ofBits hbits⟩
  · have hfull : Full significand exponent := ⟨hlower, by omega, hleast, by omega⟩
    exact ⟨hfull.toBits_ofBits hbits, hfull.value_ofBits hbits⟩

theorem magnitudeBits_one {n : ℕ} (hpos : 0 < n) (hlog : n.log2 < 1023) :
    magnitudeBits n 1 = fullBits (leading n) (lastPlace n) := by
  have hupper := leading_le n
  rw [magnitudeBits, if_neg hpos.ne', spacing_whole hpos]
  simp only [Nat.pow_eq, Nat.one_mul]
  rw [← lastPlace, ← leading, fullBits]
  apply Nat.min_eq_left
  unfold lastPlace
  omega

def signOf (n : ℤ) : Sign :=
  if n < 0 then .negative else .positive

theorem signOf_apply (n : ℤ) : (signOf n).apply n.natAbs = n := by
  unfold signOf
  split
  next hnegative => exact (congrArg _ (Int.ofNat_natAbs_of_nonpos hnegative.le)).trans (neg_neg n)
  next hnonneg => exact Int.natAbs_of_nonneg (not_lt.mp hnonneg)

theorem ofInt_eq_ofBits {n : ℤ} (hne : n ≠ 0) (hlog : n.natAbs.log2 < 1023) :
    ∃ bits, ofInt n = Float.ofBits bits ∧
      bits.toNat = signBits (signOf n) + fullBits (leading n.natAbs) (lastPlace n.natAbs) := by
  refine ⟨_, rfl, ?_⟩
  have hupper := leading_le n.natAbs
  have hsign : (if decide (n < 0) = true then Nat.pow 2 63 else 0) = signBits (signOf n) := by
    unfold signOf
    by_cases hnegative : n < 0 <;> simp [hnegative, signBits]
  have hsigns := signBits_cases (signOf n)
  rw [UInt64.toNat_ofNat', magnitudeBits_one (Int.natAbs_pos.mpr hne) hlog, hsign]
  apply Nat.mod_eq_of_lt
  unfold fullBits lastPlace
  omega

theorem isNearest_zero : IsNearest (ofInt 0) 0 := by
  have hzero : ofFloat (ofInt 0) = .finite false 0 (-1074) := by decide +kernel
  refine ⟨0, ?_, fun _ w _ hne => .inl ?_⟩
  · rw [value_eq_exactValue, hzero, exactValue, signed_zero, Int.cast_zero, zero_mul]
  · rw [sub_zero, sub_zero, abs_zero]
    exact abs_pos.mpr hne

theorem ofInt_isNearest {n : ℤ} (hlog : n.natAbs.log2 < 1023) : IsNearest (ofInt n) n := by
  by_cases hzero : n = 0
  · subst hzero
    exact_mod_cast isNearest_zero
  have hpos : 0 < n.natAbs := Int.natAbs_pos.mpr hzero
  obtain ⟨bits, hofInt, hbits⟩ := ofInt_eq_ofBits hzero hlog
  obtain ⟨hpattern, hvalue⟩ := value_ofBits_leading (le_leading hpos) (leading_le _)
    (by unfold lastPlace; omega) (by unfold lastPlace; omega) hbits
  have heven : leading n.natAbs % 2 = 0 → (Float.ofBits bits).toBits.toNat % 2 = 0 := by
    intro hparity
    have hsigns := signBits_cases (signOf n)
    rw [hpattern, hbits, fullBits]
    omega
  rw [hofInt]
  refine ⟨_, hvalue, fun y w hy => Prefers.imp ?_ heven⟩
  have hprefers := signed_prefers (signOf n) hpos (onGrid_value hy)
  rwa [signOf_apply] at hprefers

end Formula.Double
