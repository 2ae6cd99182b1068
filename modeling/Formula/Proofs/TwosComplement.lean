import Formula.Operator.Meaning
import Formula.Proofs.NearestDoubles

namespace Formula.Double

/-- The 64-bit integer an operand is taken for. -/
def int64Of (x : Float) : ℤ :=
  pinned (value x)

/-- The number of places an operand stands for: its 64-bit integer read without a sign. -/
def countOf (x : Float) : ℕ :=
  (int64Of x % 2 ^ 64).toNat

/-- The result is the double nearest to `n`, which is a 64-bit integer. -/
structure Yields (result : Except Fault Float) (n : ℤ) : Prop where
  lower : -2 ^ 63 ≤ n
  upper : n < 2 ^ 63
  result_eq : result = .ok (ofInt n)
  nearest : IsNearest (ofInt n) n

theorem yields_ofInt {n : ℤ} (hlower : -2 ^ 63 ≤ n) (hupper : n < 2 ^ 63) :
    Yields (.ok (ofInt n)) n := by
  refine ⟨hlower, hupper, rfl, ofInt_isNearest ?_⟩
  have hsize : n.natAbs < 2 ^ 64 := by omega
  by_cases hzero : n.natAbs = 0
  · rw [hzero]
    decide
  · have hlog := (Nat.log2_lt hzero).mpr hsize
    omega

theorem toInt64_int64Of (x : Float) : toInt64 x = .ok (int64Of x) :=
  toInt64_eq_pinned x

theorem int64Of_range (x : Float) : -2 ^ 63 ≤ int64Of x ∧ int64Of x < 2 ^ 63 :=
  pinned_range (value x)

theorem shiftCount_countOf (x : Float) : shiftCount x = .ok (countOf x : ℤ) := by
  have hnonneg : 0 ≤ int64Of x % 2 ^ 64 := Int.emod_nonneg _ (by decide)
  rw [shiftCount, toInt64_int64Of, countOf, Int.toNat_of_nonneg hnonneg]
  rfl

theorem ok_bind {α β : Type} (x : α) (f : α → Except Fault β) : (Except.ok x >>= f) = f x :=
  rfl

theorem shiftLeftBy_count (n : ℤ) (count : ℕ) : shiftLeftBy n count = .ok (n * 2 ^ count) := by
  rw [shiftLeftBy, if_neg (by omega), Int.toNat_natCast, Int.shiftLeft_eq]

theorem shiftRightBy_count (n : ℤ) (count : ℕ) : shiftRightBy n count = .ok (n / 2 ^ count) := by
  rw [shiftRightBy, if_neg (by omega), Int.toNat_natCast, Int.shiftRight_eq_div_pow]
  rfl

section Shifts

variable (shift : Int → Int → Except Fault Int) (a b : Float)

/-- Shifting to the left, where integers are shifted by a function of choice. -/
def shiftLeftWith : Except Fault Float := do
  let count ← shiftCount b
  if 64 ≤ count then return 0
  else return ofInt (wrapInt64 (← shift (← toInt64 a) count))

/-- Shifting to the right, where integers are shifted by a function of choice. -/
def shiftRightWith : Except Fault Float := do
  let n ← toInt64 a
  let count ← shiftCount b
  if 64 ≤ count then return if n < 0 then -1 else 0
  else return ofInt (← shift n count)

/-- A shift that goes wrong from 64 places on. -/
def capped (fault : Fault) (n count : Int) : Except Fault Int :=
  if 64 ≤ count then .error fault else shift n count

theorem shiftLeft_eq_with : shiftLeft a b = shiftLeftWith shiftLeftBy a b :=
  rfl

theorem shiftRight_eq_with : shiftRight a b = shiftRightWith shiftRightBy a b :=
  rfl

theorem shiftLeftWith_capped (fault : Fault) :
    shiftLeftWith (capped shift fault) a b = shiftLeftWith shift a b := by
  rw [shiftLeftWith, shiftLeftWith, shiftCount_countOf, ok_bind, ok_bind]
  split
  next => rfl
  next hsmall => rw [toInt64_int64Of, ok_bind, ok_bind, capped, if_neg hsmall]

theorem shiftRightWith_capped (fault : Fault) :
    shiftRightWith (capped shift fault) a b = shiftRightWith shift a b := by
  rw [shiftRightWith, shiftRightWith, toInt64_int64Of, ok_bind, ok_bind, shiftCount_countOf,
    ok_bind, ok_bind]
  split
  next => rfl
  next hsmall => rw [capped, if_neg hsmall]

theorem shiftLeft_eq :
    shiftLeft a b = .ok (ofInt (wrapInt64 (int64Of a * 2 ^ countOf b))) := by
  rw [shiftLeft, shiftCount_countOf, ok_bind]
  split
  next hlarge =>
    have hdvd : (2 ^ 64 : ℤ) ∣ int64Of a * 2 ^ countOf b :=
      Dvd.dvd.mul_left (pow_dvd_pow 2 (by omega)) _
    have hnothing : wrapInt64 (int64Of a * 2 ^ countOf b) = 0 := Int.bmod_eq_zero_of_dvd hdvd
    have hzero : ofInt 0 = 0 := by decide +kernel
    rw [hnothing, hzero]
    rfl
  next =>
    rw [toInt64_int64Of, ok_bind, shiftLeftBy_count]
    rfl

/-- A shift that leaves nothing but the sign. -/
theorem int64Of_ediv (hlarge : 64 ≤ countOf b) :
    int64Of a / 2 ^ countOf b = if int64Of a < 0 then -1 else 0 := by
  obtain ⟨hlower, hupper⟩ := int64Of_range a
  have hpow : (2 : ℤ) ^ 64 ≤ 2 ^ countOf b := pow_le_pow_right₀ (by decide) hlarge
  have hpos : (0 : ℤ) < 2 ^ countOf b := by positivity
  split
  next hnegative =>
    have hbelow : int64Of a / 2 ^ countOf b < 0 :=
      (Int.ediv_lt_iff_lt_mul hpos).mpr (by rwa [zero_mul])
    have habove : -1 ≤ int64Of a / 2 ^ countOf b := (Int.le_ediv_iff_mul_le hpos).mpr (by omega)
    omega
  next hnonneg => exact Int.ediv_eq_zero_of_lt (by omega) (by omega)

theorem shiftRight_eq : shiftRight a b = .ok (ofInt (int64Of a / 2 ^ countOf b)) := by
  rw [shiftRight, toInt64_int64Of, ok_bind, shiftCount_countOf, ok_bind]
  split
  next hlarge =>
    have hone : ofInt (-1) = -1 := by decide +kernel
    have hzero : ofInt 0 = 0 := by decide +kernel
    rw [int64Of_ediv a b (by omega)]
    split
    next => rw [hone]; rfl
    next => rw [hzero]; rfl
  next =>
    rw [shiftRightBy_count]
    rfl

/-- The number that is yielded agrees with the product modulo 2^64, as one in range only does. -/
theorem shiftLeft_yields :
    ∃ r, r ≡ int64Of a * 2 ^ countOf b [ZMOD 2 ^ 64] ∧ Yields (shiftLeft a b) r := by
  refine ⟨wrapInt64 (int64Of a * 2 ^ countOf b), Int.bmod_emod, ?_⟩
  rw [shiftLeft_eq]
  exact yields_ofInt (Int.le_bmod (by decide)) (Int.bmod_lt (by decide))

theorem shiftRight_yields :
    Yields (shiftRight a b) ⌊(int64Of a : ℚ) / 2 ^ countOf b⌋ := by
  obtain ⟨hlower, hupper⟩ := int64Of_range a
  have hfloor : ⌊(int64Of a : ℚ) / 2 ^ countOf b⌋ = int64Of a / 2 ^ countOf b := by
    exact_mod_cast Rat.floor_intCast_div_natCast (int64Of a) (2 ^ countOf b)
  have hpos : (0 : ℤ) < 2 ^ countOf b := by positivity
  rw [hfloor, shiftRight_eq]
  apply yields_ofInt
  · rw [Int.le_ediv_iff_mul_le hpos]
    nlinarith
  · rw [Int.ediv_lt_iff_lt_mul hpos]
    nlinarith

end Shifts

/-- The bit of an integer in two's complement, one of the last 64 of them. -/
def patternBit (n : ℤ) (i : Fin 64) : Bool :=
  n.testBit i

theorem testBit_eq (n : ℤ) (i : ℕ) :
    n.testBit i = ((endingBits n).testBit i ^^ decide (n < 0)) := by
  cases n with
  | ofNat m =>
    have hsign : ¬ Int.ofNat m < 0 := Int.not_lt.mpr (Int.natCast_nonneg m)
    rw [decide_eq_false hsign, Bool.xor_false]
    rfl
  | negSucc m =>
    rw [decide_eq_true (Int.negSucc_lt_zero m), Bool.xor_true]
    rfl

theorem endingBits_lt_iff (n : ℤ) (width : ℕ) :
    endingBits n < 2 ^ width ↔ -2 ^ width ≤ n ∧ n < 2 ^ width := by
  have hpow : ((2 ^ width : ℕ) : ℤ) = 2 ^ width := Nat.cast_pow 2 width
  rw [← hpow]
  cases n with
  | ofNat m =>
    simp only [endingBits, Int.ofNat_eq_natCast]
    omega
  | negSucc m =>
    simp only [endingBits, Int.negSucc_eq]
    omega

theorem testBit_ofEndingBits (negative : Bool) (bits i : ℕ) :
    (ofEndingBits negative bits).testBit i = (bits.testBit i ^^ negative) := by
  cases negative with
  | true => exact (Bool.xor_true _).symm
  | false => exact (Bool.xor_false _).symm

theorem endingBits_ofEndingBits (negative : Bool) (bits : ℕ) :
    endingBits (ofEndingBits negative bits) = bits := by
  cases negative <;> rfl

theorem testBit_combine (bit : Bool → Bool → Bool) (m n : ℤ) (i : ℕ) :
    (combine bit m n).testBit i = bit (m.testBit i) (n.testBit i) := by
  rw [combine, testBit_ofEndingBits, Nat.testBit_bitwise (by simp), ← testBit_eq, ← testBit_eq,
    Bool.xor_assoc, Bool.xor_self, Bool.xor_false]

/-- Integers of some width are combined to one of this width. -/
theorem endingBits_combine_lt (bit : Bool → Bool → Bool) {m n : ℤ} {width : ℕ}
    (hm : endingBits m < 2 ^ width) (hn : endingBits n < 2 ^ width) :
    endingBits (combine bit m n) < 2 ^ width := by
  rw [combine, endingBits_ofEndingBits]
  exact Nat.bitwise_lt_two_pow hm hn

theorem endingBits_complement (n : ℤ) : endingBits (~~~n) = endingBits n := by
  cases n <;> rfl

theorem testBit_complement (n : ℤ) (i : ℕ) : (~~~n).testBit i = !n.testBit i := by
  cases n with
  | ofNat m => rfl
  | negSucc m => exact (Bool.not_not _).symm

theorem endingBits_int64Of (x : Float) : endingBits (int64Of x) < 2 ^ 63 :=
  (endingBits_lt_iff _ _).mpr (int64Of_range x)

theorem yields_of_endingBits {n : ℤ} (h : endingBits n < 2 ^ 63) : Yields (.ok (ofInt n)) n := by
  obtain ⟨hlower, hupper⟩ := (endingBits_lt_iff n 63).mp h
  exact yields_ofInt hlower hupper

theorem complement_yields (x : Float) :
    ∃ r, (∀ i, patternBit r i = !patternBit (int64Of x) i) ∧ Yields (complement x) r := by
  refine ⟨~~~int64Of x, fun i => testBit_complement _ i, ?_⟩
  rw [complement, toInt64_int64Of]
  refine yields_of_endingBits ?_
  rw [endingBits_complement]
  exact endingBits_int64Of x

theorem bitwise_yields (bit : Bool → Bool → Bool) (a b : Float) :
    ∃ r, (∀ i, patternBit r i = bit (patternBit (int64Of a) i) (patternBit (int64Of b) i)) ∧
      Yields (bitwise bit a b) r := by
  refine ⟨combine bit (int64Of a) (int64Of b), fun i => testBit_combine bit _ _ i, ?_⟩
  rw [bitwise, toInt64_int64Of, toInt64_int64Of]
  exact yields_of_endingBits
    (endingBits_combine_lt bit (endingBits_int64Of a) (endingBits_int64Of b))

/-- Whatever doubles the operands are, each operator gives the double nearest to the integer that
two's complement arithmetic on 64 bits asks for. From 64 places on no integer is shifted at all. -/
theorem bitwise_twosComplement (a b : Float) :
    (toInt64 a = .ok (int64Of a) ∧ -2 ^ 63 ≤ int64Of a ∧ int64Of a < 2 ^ 63) ∧
    (∃ r, r ≡ int64Of a * 2 ^ countOf b [ZMOD 2 ^ 64] ∧ Yields (BinaryOp.shiftLeft.apply a b) r) ∧
    Yields (BinaryOp.shiftRight.apply a b) ⌊(int64Of a : ℚ) / 2 ^ countOf b⌋ ∧
    (∀ fault, shiftLeftWith (capped shiftLeftBy fault) a b = BinaryOp.shiftLeft.apply a b ∧
      shiftRightWith (capped shiftRightBy fault) a b = BinaryOp.shiftRight.apply a b) ∧
    (∃ r, (∀ i, patternBit r i = !patternBit (int64Of a) i) ∧
      Yields (UnaryOp.bitwiseNot.apply a) r) ∧
    (∃ r, (∀ i, patternBit r i = (patternBit (int64Of a) i && patternBit (int64Of b) i)) ∧
      Yields (BinaryOp.bitwiseAnd.apply a b) r) ∧
    (∃ r, (∀ i, patternBit r i = (patternBit (int64Of a) i ^^ patternBit (int64Of b) i)) ∧
      Yields (BinaryOp.bitwiseXor.apply a b) r) ∧
    (∃ r, (∀ i, patternBit r i = (patternBit (int64Of a) i || patternBit (int64Of b) i)) ∧
      Yields (BinaryOp.bitwiseOr.apply a b) r) :=
  ⟨⟨toInt64_int64Of a, int64Of_range a⟩, shiftLeft_yields a b, shiftRight_yields a b,
    fun fault => ⟨(shiftLeftWith_capped shiftLeftBy a b fault).trans (shiftLeft_eq_with a b).symm,
      (shiftRightWith_capped shiftRightBy a b fault).trans (shiftRight_eq_with a b).symm⟩,
    complement_yields a, bitwise_yields and a b, bitwise_yields xor a b, bitwise_yields or a b⟩

-- The greatest integer in range has no double of its own: the nearest one is 2^63.
example : (UnaryOp.bitwiseNot.apply (-9223372036854775808)).toOption = some 9223372036854775808 := by
  decide +kernel

end Formula.Double
