import Stackwright.Proofs.Evaluation
import Stackwright.Machine.Arithmetic

/-
  Stackwright.Proofs.Words — numbers in machine words.

  The machine keeps a number in 32 or 64 bits, with or without a sign. What it does to words of
  either width is said once, for any width, and then read as an operation on numbers: addition and
  its like for all numbers, division, shifts to the right and comparison for numbers that fit.
-/

namespace Stackwright

namespace Word

variable {w : Nat} {x y : Int}

/-- Numbers that `w` bits hold with a sign. -/
def Signed (w : Nat) (x : Int) : Prop := -2 ^ (w - 1) ≤ x ∧ x < 2 ^ (w - 1)

/-- Numbers that `w` bits hold without a sign. -/
def Unsigned (w : Nat) (x : Int) : Prop := 0 ≤ x ∧ x < 2 ^ w

theorem toInt_ofInt (hw : 0 < w) (hx : Signed w x) : (BitVec.ofInt w x).toInt = x :=
  BitVec.toInt_ofInt_eq_self hw hx.1 hx.2

theorem toNat_ofInt (hx : Unsigned w x) : ((BitVec.ofInt w x).toNat : Int) = x := by
  have hlt : x < ((2 ^ w : Nat) : Int) := by simpa using hx.2
  rw [BitVec.toNat_ofInt, Int.emod_eq_of_lt hx.1 hlt, Int.toNat_of_nonneg hx.1]

theorem ofInt_sub (w : Nat) (x y : Int) : BitVec.ofInt w (x - y) = BitVec.ofInt w x - BitVec.ofInt w y := by
  rw [Int.sub_eq_add_neg, BitVec.ofInt_add, BitVec.ofInt_neg, BitVec.sub_eq_add_neg]

theorem sdiv_ofInt (hw : 0 < w) (hx : Signed w x) (hy : Signed w y) :
    (BitVec.ofInt w x).sdiv (BitVec.ofInt w y) = BitVec.ofInt w (x.tdiv y) := by
  apply BitVec.eq_of_toInt_eq
  rw [BitVec.toInt_sdiv, BitVec.toInt_ofInt (x.tdiv y), toInt_ofInt hw hx, toInt_ofInt hw hy]

theorem srem_ofInt (hw : 0 < w) (hx : Signed w x) (hy : Signed w y) :
    (BitVec.ofInt w x).srem (BitVec.ofInt w y) = BitVec.ofInt w (x.tmod y) := by
  have h := BitVec.ofInt_toInt (x := (BitVec.ofInt w x).srem (BitVec.ofInt w y))
  rw [BitVec.toInt_srem, toInt_ofInt hw hx, toInt_ofInt hw hy] at h
  exact h.symm

/-- Without signs, words are numbers. -/
theorem ofInt_ofNat (n : Nat) : BitVec.ofInt w n = BitVec.ofNat w n := BitVec.ofInt_natCast ..

theorem udiv_ofInt (hx : Unsigned w x) (hy : Unsigned w y) :
    BitVec.ofInt w x / BitVec.ofInt w y = BitVec.ofInt w (x.tdiv y) := by
  obtain ⟨m, rfl⟩ := Int.eq_ofNat_of_zero_le hx.1
  obtain ⟨n, rfl⟩ := Int.eq_ofNat_of_zero_le hy.1
  have hm : m < 2 ^ w := by exact_mod_cast hx.2
  have hn : n < 2 ^ w := by exact_mod_cast hy.2
  have hq : m / n < 2 ^ w := Nat.lt_of_le_of_lt (Nat.div_le_self ..) hm
  apply BitVec.eq_of_toNat_eq
  rw [← Int.ofNat_tdiv, ofInt_ofNat, ofInt_ofNat, ofInt_ofNat]
  simp [Nat.mod_eq_of_lt hm, Nat.mod_eq_of_lt hn, Nat.mod_eq_of_lt hq]

theorem umod_ofInt (hx : Unsigned w x) (hy : Unsigned w y) :
    BitVec.ofInt w x % BitVec.ofInt w y = BitVec.ofInt w (x.tmod y) := by
  obtain ⟨m, rfl⟩ := Int.eq_ofNat_of_zero_le hx.1
  obtain ⟨n, rfl⟩ := Int.eq_ofNat_of_zero_le hy.1
  have hm : m < 2 ^ w := by exact_mod_cast hx.2
  have hn : n < 2 ^ w := by exact_mod_cast hy.2
  have hr : m % n < 2 ^ w := Nat.lt_of_le_of_lt (Nat.mod_le ..) hm
  apply BitVec.eq_of_toNat_eq
  rw [← Int.ofNat_tmod, ofInt_ofNat, ofInt_ofNat, ofInt_ofNat]
  simp [Nat.mod_eq_of_lt hm, Nat.mod_eq_of_lt hn, Nat.mod_eq_of_lt hr]

theorem shiftLeft_ofInt (k : Nat) : BitVec.ofInt w x <<< k = BitVec.ofInt w (x * 2 ^ k) := by
  have hpow : BitVec.ofInt w (2 ^ k) = BitVec.twoPow w k := by
    have h : (2 : Int) ^ k = ((2 ^ k : Nat) : Int) := by norm_cast
    apply BitVec.eq_of_toNat_eq
    rw [h, ofInt_ofNat, BitVec.toNat_ofNat, BitVec.toNat_twoPow]
  rw [BitVec.shiftLeft_eq_mul_twoPow, BitVec.ofInt_mul, hpow]

theorem sshiftRight_ofInt (hw : 0 < w) (hx : Signed w x) (k : Nat) :
    (BitVec.ofInt w x).sshiftRight k = BitVec.ofInt w (x / 2 ^ k) := by
  have h := BitVec.ofInt_toInt (x := (BitVec.ofInt w x).sshiftRight k)
  rw [BitVec.toInt_sshiftRight, toInt_ofInt hw hx, Int.shiftRight_eq_div_pow] at h
  rw [← h]
  simp

theorem ushiftRight_ofInt (hx : Unsigned w x) (k : Nat) : BitVec.ofInt w x >>> k = BitVec.ofInt w (x / 2 ^ k) := by
  obtain ⟨m, rfl⟩ := Int.eq_ofNat_of_zero_le hx.1
  have hm : m < 2 ^ w := by exact_mod_cast hx.2
  have hq : m / 2 ^ k < 2 ^ w := Nat.lt_of_le_of_lt (Nat.div_le_self ..) hm
  have h : (m : Int) / 2 ^ k = ((m / 2 ^ k : Nat) : Int) := by simp
  apply BitVec.eq_of_toNat_eq
  rw [h, ofInt_ofNat, ofInt_ofNat]
  simp [Nat.mod_eq_of_lt hm, Nat.mod_eq_of_lt hq, Nat.shiftRight_eq_div_pow]

theorem slt_ofInt (hw : 0 < w) (hx : Signed w x) (hy : Signed w y) :
    (BitVec.ofInt w x).slt (BitVec.ofInt w y) = decide (x < y) := by
  rw [BitVec.slt, toInt_ofInt hw hx, toInt_ofInt hw hy]

theorem ult_ofInt (hx : Unsigned w x) (hy : Unsigned w y) :
    (BitVec.ofInt w x).ult (BitVec.ofInt w y) = decide (x < y) := by
  rw [BitVec.ult, decide_eq_decide, ← Int.ofNat_lt, toNat_ofInt hx, toNat_ofInt hy]

theorem ofInt_inj_signed (hw : 0 < w) (hx : Signed w x) (hy : Signed w y) :
    BitVec.ofInt w x = BitVec.ofInt w y ↔ x = y := by
  rw [← BitVec.toInt_inj, toInt_ofInt hw hx, toInt_ofInt hw hy]

theorem ofInt_inj_unsigned (hx : Unsigned w x) (hy : Unsigned w y) : BitVec.ofInt w x = BitVec.ofInt w y ↔ x = y := by
  rw [← BitVec.toNat_inj, ← Int.ofNat_inj, toNat_ofInt hx, toNat_ofInt hy]

/-- Cutting a word keeps the number up to a multiple of two to the width that is left. -/
theorem setWidth_ofInt {v : Nat} (hvw : v ≤ w) : (BitVec.ofInt w x).setWidth v = BitVec.ofInt v x := by
  apply BitVec.eq_of_toInt_eq
  rw [← BitVec.signExtend_eq_setWidth_of_le _ hvw, BitVec.toInt_signExtend, BitVec.toInt_ofInt, BitVec.toInt_ofInt,
    Nat.min_eq_left hvw, Int.bmod_bmod_of_dvd (Nat.pow_dvd_pow 2 hvw)]


/-- Numbers that `w` bits hold. -/
def Fits (unsigned : Bool) (w : Nat) (x : Int) : Prop := if unsigned then Unsigned w x else Signed w x

theorem fits_zero (w : Nat) (unsigned : Bool) : Fits unsigned w 0 := by
  have h : (0 : Int) < 2 ^ (w - 1) := Int.pow_pos (by decide)
  have h' : (0 : Int) < 2 ^ w := Int.pow_pos (by decide)
  cases unsigned
  · exact ⟨by omega, h⟩
  · exact ⟨Int.le_refl 0, h'⟩

theorem ofInt_inj {unsigned : Bool} (hw : 0 < w) (hx : Fits unsigned w x) (hy : Fits unsigned w y) :
    BitVec.ofInt w x = BitVec.ofInt w y ↔ x = y := by
  cases unsigned
  · exact ofInt_inj_signed hw hx hy
  · exact ofInt_inj_unsigned hx hy

/-! ## What the machine does on words of one width -/

open Machine (guardZero Fault)

/-- Shift counts are words, too. -/
def arithmetic? (op : Opcode) (a b : BitVec w) : Option (Except Fault (BitVec w)) :=
  match op with
  | .add => some (.ok (a + b))
  | .sub => some (.ok (a - b))
  | .mul => some (.ok (a * b))
  | .div => some (guardZero (b == 0) (a.sdiv b))
  | .divUn => some (guardZero (b == 0) (a / b))
  | .rem => some (guardZero (b == 0) (a.srem b))
  | .remUn => some (guardZero (b == 0) (a % b))
  | .and => some (.ok (a &&& b))
  | .or => some (.ok (a ||| b))
  | .xor => some (.ok (a ^^^ b))
  | .shl => some (.ok (a <<< b.smod (BitVec.ofNat w w)))
  | .shr => some (.ok (a.sshiftRight' (b.smod (BitVec.ofNat w w))))
  | .shrUn => some (.ok (a >>> (b % BitVec.ofNat w w)))
  | _ => none

theorem map_guardZero {α β : Type} (zero : Bool) (f : α → β) (x : α) :
    (guardZero zero x).map f = guardZero zero (f x) := by
  cases zero <;> rfl

theorem int32_beq_zero (b : BitVec 32) : (Int32.ofBitVec b == 0) = (b == 0) := by
  rw [Bool.eq_iff_iff, beq_iff_eq, beq_iff_eq, ← Int32.toBitVec_inj]
  rfl

theorem int64_beq_zero (b : BitVec 64) : (Int64.ofBitVec b == 0) = (b == 0) := by
  rw [Bool.eq_iff_iff, beq_iff_eq, beq_iff_eq, ← Int64.toBitVec_inj]
  rfl

theorem arithmetic32?_eq (op : Opcode) (a b : BitVec 32) :
    Machine.arithmetic32? op (.ofBitVec a) (.ofBitVec b) = (arithmetic? op a b).map (·.map Int32.ofBitVec) := by
  cases op <;>
    simp only [arithmetic?, Machine.arithmetic32?, Option.map_some, Option.map_none, map_guardZero, int32_beq_zero] <;>
      rfl

theorem arithmetic64?_eq (op : Opcode) (a b : BitVec 64) :
    Machine.arithmetic64? op (.ofBitVec a) (.ofBitVec b) = (arithmetic? op a b).map (·.map Int64.ofBitVec) := by
  cases op <;>
    simp only [arithmetic?, Machine.arithmetic64?, Option.map_some, Option.map_none, map_guardZero, int64_beq_zero] <;>
      rfl

/-- The order comparisons. -/
def ordered? (op : Opcode) (a b : BitVec w) : Option Bool :=
  match op with
  | .cgt => some (b.slt a)
  | .clt => some (a.slt b)
  | .cgtUn => some (b.ult a)
  | .cltUn => some (a.ult b)
  | _ => none

theorem ordered32?_eq (op : Opcode) (a b : BitVec 32) :
    Machine.ordered? op (.i32 (.ofBitVec a)) (.i32 (.ofBitVec b)) = ordered? op a b := by
  cases op
  case cgt => exact congrArg some Bool.decide_eq_true
  case clt => exact congrArg some Bool.decide_eq_true
  all_goals rfl

theorem ordered64?_eq (op : Opcode) (a b : BitVec 64) :
    Machine.ordered? op (.i64 (.ofBitVec a)) (.i64 (.ofBitVec b)) = ordered? op a b := by
  cases op
  case cgt => exact congrArg some Bool.decide_eq_true
  case clt => exact congrArg some Bool.decide_eq_true
  all_goals rfl

/-! ## Its results as numbers -/

variable {unsigned : Bool}

theorem ofInt_beq_zero (hw : 0 < w) (hy : Fits unsigned w y) : (BitVec.ofInt w y == 0) = (y == 0) := by
  rw [Bool.eq_iff_iff, beq_iff_eq, beq_iff_eq]
  exact ofInt_inj hw hy (fits_zero w unsigned)

theorem word_div (hw : 0 < w) (hx : Fits unsigned w x) (hy : Fits unsigned w y) :
    arithmetic? (if unsigned then .divUn else .div) (BitVec.ofInt w x) (BitVec.ofInt w y) =
      some ((guardZero (y == 0) (x.tdiv y)).map (BitVec.ofInt w)) := by
  rw [map_guardZero, ← ofInt_beq_zero hw hy]
  cases unsigned
  · rw [← sdiv_ofInt hw hx hy]
    rfl
  · rw [← udiv_ofInt hx hy]
    rfl

theorem word_rem (hw : 0 < w) (hx : Fits unsigned w x) (hy : Fits unsigned w y) :
    arithmetic? (if unsigned then .remUn else .rem) (BitVec.ofInt w x) (BitVec.ofInt w y) =
      some ((guardZero (y == 0) (x.tmod y)).map (BitVec.ofInt w)) := by
  rw [map_guardZero, ← ofInt_beq_zero hw hy]
  cases unsigned
  · rw [← srem_ofInt hw hx hy]
    rfl
  · rw [← umod_ofInt hx hy]
    rfl

variable {n : Int}

/-- Both ways of reducing a count give the remainder, since 32 and 64 divide the number of words. -/
theorem toNat_smod (hw : w = 32 ∨ w = 64) (hn : Signed w n) :
    ((BitVec.ofInt w n).smod (BitVec.ofNat w w)).toNat = (n % w).toNat := by
  have hpos : 0 < w := by omega
  have hwidth : (BitVec.ofNat w w).toInt = w := by obtain rfl | rfl := hw <;> decide
  have hsmall : (w : Int) < 2 ^ w := by obtain rfl | rfl := hw <;> decide
  have hlt : n % w < w := Int.emod_lt_of_pos n (by omega)
  have hnonneg : 0 ≤ n % w := Int.emod_nonneg n (by omega)
  have h := BitVec.ofInt_toInt (x := (BitVec.ofInt w n).smod (BitVec.ofNat w w))
  rw [BitVec.toInt_smod, toInt_ofInt hpos hn, hwidth, Int.fmod_eq_emod_of_nonneg n (by omega)] at h
  rw [← h]
  have := toNat_ofInt (w := w) ⟨hnonneg, by omega⟩
  omega

theorem toNat_umod (hw : w = 32 ∨ w = 64) : (BitVec.ofInt w n % BitVec.ofNat w w).toNat = (n % w).toNat := by
  have hdvd : (w : Int) ∣ (2 ^ w : Nat) := by obtain rfl | rfl := hw <;> decide
  have hsmall : w % 2 ^ w = w := by obtain rfl | rfl := hw <;> decide
  have hpos : (0 : Int) < (2 ^ w : Nat) := by exact_mod_cast Nat.two_pow_pos w
  have hnonneg : 0 ≤ n % (2 ^ w : Nat) := Int.emod_nonneg n (by omega)
  rw [BitVec.toNat_umod, BitVec.toNat_ofInt, BitVec.toNat_ofNat, hsmall]
  rw [← Int.ofNat_inj, Int.natCast_emod, Int.toNat_of_nonneg hnonneg, Int.emod_emod_of_dvd n hdvd,
    Int.toNat_of_nonneg (Int.emod_nonneg n (by omega))]

theorem word_shl (hw : w = 32 ∨ w = 64) (hn : Signed w n) :
    arithmetic? .shl (BitVec.ofInt w x) (BitVec.ofInt w n) = some (.ok (BitVec.ofInt w (x * 2 ^ (n % w).toNat))) := by
  rw [← shiftLeft_ofInt, ← toNat_smod hw hn]
  rfl

theorem word_shr (hw : w = 32 ∨ w = 64) (hx : Fits unsigned w x) (hn : Signed w n) :
    arithmetic? (if unsigned then .shrUn else .shr) (BitVec.ofInt w x) (BitVec.ofInt w n) =
      some (.ok (BitVec.ofInt w (x / 2 ^ (n % w).toNat))) := by
  cases unsigned
  · rw [← sshiftRight_ofInt (by omega) hx, ← toNat_smod hw hn]
    rfl
  · rw [← ushiftRight_ofInt hx, ← toNat_umod hw]
    rfl

theorem word_lt (hw : 0 < w) (hx : Fits unsigned w x) (hy : Fits unsigned w y) :
    ordered? (if unsigned then .cltUn else .clt) (BitVec.ofInt w x) (BitVec.ofInt w y) = some (decide (x < y)) := by
  cases unsigned
  · exact congrArg some (slt_ofInt hw hx hy)
  · exact congrArg some (ult_ofInt hx hy)

theorem word_gt (hw : 0 < w) (hx : Fits unsigned w x) (hy : Fits unsigned w y) :
    ordered? (if unsigned then .cgtUn else .cgt) (BitVec.ofInt w x) (BitVec.ofInt w y) = some (decide (y < x)) := by
  cases unsigned
  · exact congrArg some (slt_ofInt hw hy hx)
  · exact congrArg some (ult_ofInt hy hx)

end Word

/-! ## Integer types -/

namespace Primitive

/-- How many bits the machine keeps a number of the type in. -/
def carrier (p : Primitive) : Nat := if p.bits = 64 then 64 else 32

variable {p : Primitive} {v : Int}

theorem carrier_eq (p : Primitive) : p.carrier = 32 ∨ p.carrier = 64 := by
  unfold carrier
  split
  · exact .inr rfl
  · exact .inl rfl

theorem carrier_pos (p : Primitive) : 0 < p.carrier := by
  rcases p.carrier_eq with h | h <;> omega

theorem bits_le_carrier (p : Primitive) : p.bits ≤ p.carrier := by
  cases p <;> decide

theorem bits_pos (hp : p.isInteger) : 0 < p.bits := by
  cases p <;> first | contradiction | decide

theorem isUnsigned_eq (hp : p.isInteger = true) : p.isUnsigned = !p.isSigned := by
  cases p <;> first | contradiction | rfl

theorem fits_carrier (hp : p.isInteger) (hv : p.InRange v) : Word.Fits p.isUnsigned p.carrier v := by
  have hbits := p.bits_le_carrier
  have hsigned : (2 : Int) ^ (p.bits - 1) ≤ 2 ^ (p.carrier - 1) := by
    exact_mod_cast Nat.pow_le_pow_right (by decide) (by omega)
  have hunsigned : (2 : Int) ^ p.bits ≤ 2 ^ p.carrier := by
    exact_mod_cast Nat.pow_le_pow_right (by decide) hbits
  unfold InRange at hv
  rw [Word.Fits, isUnsigned_eq hp]
  by_cases h : p.isSigned = true
  · simp only [h, if_true] at hv
    simp only [h, Bool.not_true, Bool.false_eq_true, if_false]
    exact ⟨by omega, by omega⟩
  · simp only [h, Bool.not_false, if_true]
    simp only [h, Bool.false_eq_true, if_false] at hv
    exact ⟨hv.1, by omega⟩

theorem wrap_eq_ofBits (p : Primitive) (v : Int) : p.wrap v = p.ofBits (BitVec.ofInt p.bits v) := by
  unfold wrap ofBits
  split
  · rw [BitVec.toInt_ofInt]
  · have hpos : (0 : Int) < (2 ^ p.bits : Nat) := by exact_mod_cast Nat.two_pow_pos p.bits
    rw [BitVec.toNat_ofInt, Int.toNat_of_nonneg (Int.emod_nonneg v (by omega))]
    simp

theorem ofBits_inRange (b : BitVec p.bits) : p.InRange (p.ofBits b) := by
  unfold InRange ofBits
  split
  · exact ⟨BitVec.le_toInt b, BitVec.toInt_lt⟩
  · exact ⟨Int.natCast_nonneg _, by exact_mod_cast b.isLt⟩

theorem wrap_inRange (p : Primitive) (v : Int) : p.InRange (p.wrap v) := by
  rw [wrap_eq_ofBits]
  exact ofBits_inRange _

theorem wrap_of_inRange (hp : p.isInteger) (hv : p.InRange v) : p.wrap v = v := by
  rw [wrap_eq_ofBits]
  unfold ofBits
  unfold InRange at hv
  by_cases h : p.isSigned = true
  · simp only [h, if_true] at hv ⊢
    exact Word.toInt_ofInt (bits_pos hp) hv
  · simp only [h, Bool.false_eq_true, if_false] at hv ⊢
    exact Word.toNat_ofInt hv

/-- A number that is shifted to the right stays in range. -/
theorem inRange_div (hv : p.InRange v) (k : Nat) : p.InRange (v / 2 ^ k) := by
  have hpos : (0 : Int) < 2 ^ k := Int.pow_pos (by decide)
  have hgrow {m : Int} (hm : 0 ≤ m) : m ≤ m * 2 ^ k := by
    have h := Int.mul_le_mul_of_nonneg_left hpos hm
    omega
  have hsigned : (0 : Int) < 2 ^ (p.bits - 1) := Int.pow_pos (by decide)
  have hunsigned : (0 : Int) < 2 ^ p.bits := Int.pow_pos (by decide)
  unfold InRange at hv ⊢
  by_cases hs : p.isSigned = true
  · rw [if_pos hs] at hv ⊢
    have h := hgrow (Int.le_of_lt hsigned)
    exact ⟨Int.le_ediv_of_mul_le hpos (by rw [Int.neg_mul]; omega), Int.ediv_lt_of_lt_mul hpos (by omega)⟩
  · rw [if_neg hs] at hv ⊢
    have h := hgrow (Int.le_of_lt hunsigned)
    exact ⟨Int.ediv_nonneg hv.1 (Int.le_of_lt hpos), Int.ediv_lt_of_lt_mul hpos (by omega)⟩

/-- Cutting a wider word to the type's bits is wrapping. -/
theorem wrap_toInt {w : Nat} (hw : p.bits ≤ w) (b : BitVec w) : p.wrap b.toInt = p.ofBits (b.setWidth p.bits) := by
  rw [wrap_eq_ofBits, ← Word.setWidth_ofInt hw, BitVec.ofInt_toInt]

end Primitive

end Stackwright
