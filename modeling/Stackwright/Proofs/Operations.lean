import Stackwright.Proofs.Words
import Stackwright.Expr.Lowering

/-
  Stackwright.Proofs.Operations — the code of an operation computes the operation.

  - `BinaryOp.computes`, `UnaryOp.computes`, `Literal.computes`: on operands that fit their types,
    the code of a well-typed operation leaves the value that the operation gives, which fits the
    type of the whole, or stops at a zero divisor.
-/

namespace Stackwright

variable {n z : Int} {c : Bool}
variable {op : Opcode} {a b : Value} {type : TypeRef} {h : Hierarchy} {p : Primitive}
variable {left operand : TypeRef}

/-! ## Straight-line code -/

namespace Opcode

def isUnary : Opcode → Bool
  | .neg | .not => true
  | _ => false

def isArithmetic : Opcode → Bool
  | .add | .sub | .mul | .div | .divUn | .rem | .remUn | .and | .or | .xor | .shl | .shr | .shrUn => true
  | _ => false

def isComparison : Opcode → Bool
  | .ceq | .cgt | .cgtUn | .clt | .cltUn => true
  | _ => false

def isConversion : Opcode → Bool
  | .convI1 | .convI2 | .convI4 | .convI8 | .convU1 | .convU2 | .convU4 | .convU8 | .convR4 | .convR8 => true
  | _ => false

end Opcode

open Machine (Value Fault)

/-- What an instruction without jumps and places does to the stack. -/
inductive Calculates : Instr → List Value → Except Fault (List Value) → Prop
  | i32 {v stack} : Calculates (.loadI32 v) stack (.ok (.i32 v :: stack))
  | i64 {v stack} : Calculates (.loadI64 v) stack (.ok (.i64 v :: stack))
  | string {v stack} : Calculates (.loadString v) stack (.ok (.str v :: stack))
  | null {stack} : Calculates .loadNull stack (.ok (.null :: stack))
  | unary {op v r stack} : op.isUnary → Machine.unary op v = r →
      Calculates (.op op) (v :: stack) (r.map (· :: stack))
  | arithmetic {op a b r stack} : op.isArithmetic → Machine.arithmetic op a b = r →
      Calculates (.op op) (b :: a :: stack) (r.map (· :: stack))
  | compare {op a b r stack} : op.isComparison → Machine.compare op a b = r →
      Calculates (.op op) (b :: a :: stack) (r.map (.ofBool · :: stack))
  | convert {op v r stack} : op.isConversion → Machine.convert op v = r →
      Calculates (.op op) (v :: stack) (r.map (· :: stack))

/-- What such instructions do one after the other. -/
inductive Calc : List Instr → List Value → Except Fault (List Value) → Prop
  | nil {stack} : Calc [] stack (.ok stack)
  | step {i code stack next r} : Calculates i stack (.ok next) → Calc code next r → Calc (i :: code) stack r
  | fault {i code stack e} : Calculates i stack (.error e) → Calc (i :: code) stack (.error e)

/-- The code turns the operands on the stack, the last one on top, into what an operation gives. -/
inductive Computes (code : List Instr) (operands : List Value) (type : TypeRef) : Except Stop Datum → Prop
  | value {d} : d ≠ .void → d.Fits type → (∀ stack, Calc code (operands ++ stack) (.ok (d.value :: stack))) →
      Computes code operands type (.ok d)
  | zero : (∀ stack, Calc code (operands ++ stack) (.error .divideByZero)) →
      Computes code operands type (.error .divideByZero)

/-! ## Integers -/

section Integers

variable {p : Primitive} {x y : Int} {stack : List Value}

theorem value_i32 (hp : p.bits ≠ 64) (v : Int) : (Datum.int p v).value = .i32 (.ofBitVec (BitVec.ofInt 32 v)) :=
  if_neg hp

theorem value_i64 (hp : p.bits = 64) (v : Int) : (Datum.int p v).value = .i64 (.ofBitVec (BitVec.ofInt 64 v)) :=
  if_pos hp

theorem arithmetic_value {r : Except Fault Int}
    (h : Word.arithmetic? op (BitVec.ofInt p.carrier x) (BitVec.ofInt p.carrier y) = some
      (r.map (BitVec.ofInt p.carrier))) :
    Machine.arithmetic op (Datum.int p x).value (Datum.int p y).value = r.map fun z => (Datum.int p z).value := by
  by_cases hp : p.bits = 64
  · have hc : p.carrier = 64 := if_pos hp
    rw [hc] at h
    simp only [value_i64 hp, Machine.arithmetic, Word.arithmetic64?_eq, h]
    cases r <;> rfl
  · have hc : p.carrier = 32 := if_neg hp
    rw [hc] at h
    simp only [value_i32 hp, Machine.arithmetic, Word.arithmetic32?_eq, h]
    cases r <;> rfl

/-- A 64-bit word is shifted by a count that was widened first. -/
theorem shift_value {r : Except Fault Int} (hop : Machine.isShift op) (hn : Primitive.InRange .i32 n)
    (h : Word.arithmetic? op (BitVec.ofInt p.carrier x) (BitVec.ofInt p.carrier n) = some
      (r.map (BitVec.ofInt p.carrier))) :
    Machine.arithmetic op (Datum.int p x).value (Datum.int .i32 n).value = r.map fun z => (Datum.int p z).value := by
  rw [value_i32 (p := .i32) (by decide)]
  by_cases hp : p.bits = 64
  · have hc : p.carrier = 64 := if_pos hp
    rw [hc] at h
    have hwide : (Int32.ofBitVec (BitVec.ofInt 32 n)).toInt64 = .ofBitVec (BitVec.ofInt 64 n) := by
      have hn : Word.Signed 32 n := hn
      show Int64.ofBitVec ((BitVec.ofInt 32 n).signExtend 64) = _
      rw [BitVec.signExtend, Word.toInt_ofInt (by decide) hn]
    simp only [value_i64 hp, Machine.arithmetic, hop, if_true, hwide, Word.arithmetic64?_eq, h]
    cases r <;> rfl
  · have hc : p.carrier = 32 := if_neg hp
    rw [hc] at h
    simp only [value_i32 hp, Machine.arithmetic, Word.arithmetic32?_eq, h]
    cases r <;> rfl

theorem ordered_value {b : Bool} (h : Word.ordered? op (BitVec.ofInt p.carrier x) (BitVec.ofInt p.carrier y) = some b) :
    Machine.compare op (Datum.int p x).value (Datum.int p y).value = .ok b := by
  by_cases hp : p.bits = 64
  · have hc : p.carrier = 64 := if_pos hp
    rw [hc] at h
    simp only [value_i64 hp, Machine.compare, Word.ordered64?_eq, h]
  · have hc : p.carrier = 32 := if_neg hp
    rw [hc] at h
    simp only [value_i32 hp, Machine.compare, Word.ordered32?_eq, h]

/-- Everything can be compared for being the same. -/
theorem compare_ceq (v w : Value) : Machine.compare .ceq v w = .ok (v.same w) := by
  cases v <;> cases w <;> rfl

theorem same_value (hp : p.isInteger) (hx : p.InRange x) (hy : p.InRange y) :
    (Datum.int p x).value.same (Datum.int p y).value = (x == y) := by
  have hinj := Word.ofInt_inj p.carrier_pos (Primitive.fits_carrier hp hx) (Primitive.fits_carrier hp hy)
  rw [Bool.eq_iff_iff, beq_iff_eq, ← hinj]
  by_cases hbits : p.bits = 64
  · have hc : p.carrier = 64 := if_pos hbits
    rw [value_i64 hbits, value_i64 hbits, hc]
    simp [Value.same, ← Int64.toBitVec_inj]
  · have hc : p.carrier = 32 := if_neg hbits
    rw [value_i32 hbits, value_i32 hbits, hc]
    simp [Value.same, ← Int32.toBitVec_inj]

/-- Wrapping does not change what a word of the type's own width holds. -/
theorem ofInt_wrap (v : Int) : BitVec.ofInt p.bits (p.wrap v) = BitVec.ofInt p.bits v := by
  rw [Primitive.wrap_eq_ofBits, Primitive.ofBits]
  split
  · rw [BitVec.ofInt_toInt]
  · rw [Word.ofInt_ofNat, BitVec.ofNat_toNat, BitVec.setWidth_eq]

/-- Widening a word before it is cut makes no difference. -/
theorem setWidth_signExtend {b : Nat} (hb : b ≤ 32) (z : BitVec 32) : (z.signExtend 64).setWidth b = z.setWidth b := by
  rw [BitVec.signExtend, Word.setWidth_ofInt (by omega), ← Word.setWidth_ofInt hb, BitVec.ofInt_toInt]

/-- A word cut to the type's bits and filled up again. -/
def narrowed (p : Primitive) (z : BitVec 32) : BitVec 32 :=
  if p.isSigned then ((z.signExtend 64).signExtend p.bits).signExtend 32
  else ((z.signExtend 64).setWidth p.bits).setWidth 32

theorem narrowed_ofInt (hbits : p.bits ≤ 32) (v : Int) :
    narrowed p (BitVec.ofInt 32 v) = BitVec.ofInt 32 (p.wrap v) := by
  rw [Primitive.wrap_eq_ofBits, narrowed, Primitive.ofBits]
  split
  · rw [BitVec.signExtend_eq_setWidth_of_le (BitVec.signExtend 64 _) (by omega), setWidth_signExtend hbits,
      Word.setWidth_ofInt hbits]
    rfl
  · rw [setWidth_signExtend hbits, Word.setWidth_ofInt hbits, Word.ofInt_ofNat, BitVec.ofNat_toNat]

theorem convert_narrowed (h : narrowing? p = some op) (z : BitVec 32) :
    Machine.convert op (.i32 (.ofBitVec z)) = .ok (.i32 (.ofBitVec (narrowed p z))) := by
  cases p <;> cases h <;> rfl

theorem isConversion_of_narrowing (h : narrowing? p = some op) : op.isConversion ∧ p.bits < 32 := by
  cases p <;> cases h <;> decide

/-- A conversion to a narrower type wraps. -/
theorem convert_narrowing (h : narrowing? p = some op) (v : Int) :
    Machine.convert op (Datum.int p v).value = .ok (Datum.int p (p.wrap v)).value := by
  have hbits := (isConversion_of_narrowing h).2
  rw [value_i32 (by omega), value_i32 (by omega), convert_narrowed h, narrowed_ofInt (by omega)]

/-- A type that needs no conversion fills its words. -/
theorem bits_eq_carrier (hp : p.isInteger) (h : narrowing? p = none) : p.bits = p.carrier := by
  cases p <;> first | contradiction | rfl

theorem value_wrap (hbits : p.bits = p.carrier) (v : Int) : (Datum.int p (p.wrap v)).value = (Datum.int p v).value := by
  have hwrap : BitVec.ofInt p.carrier (p.wrap v) = BitVec.ofInt p.carrier v := hbits ▸ ofInt_wrap v
  by_cases hp : p.bits = 64
  · rw [← hbits, hp] at hwrap
    rw [value_i64 hp, value_i64 hp, hwrap]
  · rw [Primitive.carrier, if_neg hp] at hwrap
    rw [value_i32 hp, value_i32 hp, hwrap]

/-- The code after an operation brings its result into the range of the type. -/
theorem calc_narrow (hp : p.isInteger) (v : Int) :
    Calc (narrowCode (some p)) ((Datum.int p v).value :: stack) (.ok ((Datum.int p (p.wrap v)).value :: stack)) := by
  rw [narrowCode, Option.bind_some]
  cases h : narrowing? p with
  | some op =>
    exact .step (.convert (isConversion_of_narrowing h).1 (convert_narrowing h v)) .nil
  | none =>
    rw [value_wrap (bits_eq_carrier hp h)]
    exact .nil

/-- An operation with an exact result, followed by the code that narrows it. -/
theorem computes_narrowed (hp : p.isInteger) (hop : op.isArithmetic)
    (h : Machine.arithmetic op a b = .ok (Datum.int p z).value) :
    Computes ([.op op] ++ narrowCode (some p)) [b, a] (.primitive p) (.ok (.int p (p.wrap z))) :=
  .value nofun ⟨rfl, hp, p.wrap_inRange z⟩ fun _ => .step (.arithmetic hop h) (calc_narrow hp z)

theorem computes_guarded (hp : p.isInteger) (hop : op.isArithmetic)
    (h : Machine.arithmetic op a b = (Machine.guardZero (y == 0) z).map fun z => (Datum.int p z).value) :
    Computes ([.op op] ++ narrowCode (some p)) [b, a] (.primitive p)
      (if y = 0 then .error .divideByZero else .ok (.int p (p.wrap z))) := by
  by_cases hy : y = 0
  · rw [if_pos hy]
    rw [hy] at h
    exact .zero fun _ => .fault (.arithmetic hop h)
  · rw [if_neg hy]
    rw [beq_false_of_ne hy] at h
    exact computes_narrowed hp hop h

theorem computes_compare (hop : op.isComparison = true) (h : Machine.compare op a b = .ok c) :
    Computes [.op op] [b, a] .bool (.ok (.bool c)) :=
  .value nofun rfl fun _ => .step (.compare hop h) .nil

/-- Comparing the outcome of a comparison with zero negates it. -/
theorem computes_negated (hop : op.isComparison = true) (h : Machine.compare op a b = .ok c) :
    Computes (negated op) [b, a] .bool (.ok (.bool !c)) := by
  have hzero : Machine.compare .ceq (.ofBool c) (.i32 0) = .ok !c := by cases c <;> rfl
  exact .value nofun rfl fun _ => .step (.compare hop h) (.step .i32 (.step (.compare rfl hzero) .nil))

/-- A bitwise operation on the carrier, cut to the type's bits. -/
theorem computes_bitwise (f : ∀ {w : Nat}, BitVec w → BitVec w → BitVec w) (hp : p.isInteger) (hop : op.isArithmetic)
    (hword : ∀ {w : Nat} (a b : BitVec w), Word.arithmetic? op a b = some (.ok (f a b)))
    (hcut : ∀ {w v : Nat} (a b : BitVec w), (f a b).setWidth v = f (a.setWidth v) (b.setWidth v)) :
    Computes ([.op op] ++ narrowCode (some p)) [(Datum.int p y).value, (Datum.int p x).value] (.primitive p)
      (.ok (.int p (p.ofBits (f (BitVec.ofInt p.bits x) (BitVec.ofInt p.bits y))))) := by
  have hbits := p.bits_le_carrier
  let z := f (BitVec.ofInt p.carrier x) (BitVec.ofInt p.carrier y)
  have hz : p.wrap z.toInt = p.ofBits (f (BitVec.ofInt p.bits x) (BitVec.ofInt p.bits y)) := by
    rw [Primitive.wrap_toInt hbits, hcut, Word.setWidth_ofInt hbits, Word.setWidth_ofInt hbits]
  rw [← hz]
  refine computes_narrowed hp hop (arithmetic_value (r := .ok z.toInt) ?_)
  rw [hword, Except.map, BitVec.ofInt_toInt]

end Integers

/-! ## Operations on two values -/

namespace BinaryOp

variable {op : BinaryOp} {p : Primitive} {x y : Int}

theorem not_decide_lt (x y : Int) : (!decide (x < y)) = decide (y ≤ x) := by
  rw [← decide_not, decide_eq_decide]
  exact Int.not_lt

theorem computes_ints (hp : p.isInteger) (hx : p.InRange x) (hy : p.InRange y) (hop : op.isShift = false) :
    Computes (op.code (some p)) [(Datum.int p y).value, (Datum.int p x).value]
      (if op.isComparison then .bool else .primitive p) (op.onInts p x y) := by
  have hfx := Primitive.fits_carrier hp hx
  have hfy := Primitive.fits_carrier hp hy
  have hpos := p.carrier_pos
  have hfloat : p.isFloat = false := by cases p <;> first | contradiction | rfl
  have hlt := ordered_value (Word.word_lt hpos hfx hfy)
  have hgt := ordered_value (Word.word_gt hpos hfx hfy)
  have heq : Machine.compare .ceq (Datum.int p x).value (Datum.int p y).value = .ok (x == y) := by
    rw [compare_ceq, same_value hp hx hy]
  -- Either way of picking an opcode by the sign gives one of the same family.
  have hpick (test : Opcode → Bool) (a b : Opcode) (ha : test a = true) (hb : test b = true) :
      test (if p.isUnsigned then b else a) = true := by
    split <;> assumption
  cases op
  case add =>
    exact computes_narrowed hp rfl (arithmetic_value (r := .ok (x + y)) (by rw [Except.map, BitVec.ofInt_add]; rfl))
  case sub =>
    exact computes_narrowed hp rfl (arithmetic_value (r := .ok (x - y)) (by rw [Except.map, Word.ofInt_sub]; rfl))
  case mul =>
    exact computes_narrowed hp rfl (arithmetic_value (r := .ok (x * y)) (by rw [Except.map, BitVec.ofInt_mul]; rfl))
  case div =>
    exact computes_guarded hp (hpick Opcode.isArithmetic .div .divUn rfl rfl)
      (arithmetic_value (Word.word_div hpos hfx hfy))
  case rem =>
    exact computes_guarded hp (hpick Opcode.isArithmetic .rem .remUn rfl rfl)
      (arithmetic_value (Word.word_rem hpos hfx hfy))
  case bitAnd => exact computes_bitwise (fun a b => a &&& b) hp rfl (fun _ _ => rfl) (fun _ _ => BitVec.setWidth_and)
  case bitOr => exact computes_bitwise (fun a b => a ||| b) hp rfl (fun _ _ => rfl) (fun _ _ => BitVec.setWidth_or)
  case bitXor => exact computes_bitwise (fun a b => a ^^^ b) hp rfl (fun _ _ => rfl) (fun _ _ => BitVec.setWidth_xor)
  case eq => exact computes_compare rfl heq
  case ne => exact computes_negated rfl heq
  case lt => exact computes_compare (hpick Opcode.isComparison .clt .cltUn rfl rfl) hlt
  case gt => exact computes_compare (hpick Opcode.isComparison .cgt .cgtUn rfl rfl) hgt
  case le =>
    have h := computes_negated (hpick Opcode.isComparison .cgt .cgtUn rfl rfl) hgt
    rw [not_decide_lt] at h
    simpa [code, binaryCode, onInts, isComparison, hfloat] using h
  case ge =>
    have h := computes_negated (hpick Opcode.isComparison .clt .cltUn rfl rfl) hlt
    rw [not_decide_lt] at h
    simpa [code, binaryCode, onInts, isComparison, hfloat] using h
  case shl | shr => contradiction

theorem computes_shift (hp : p.isInteger) (hx : p.InRange x) (hn : Primitive.InRange .i32 n) (hop : op.isShift) :
    Computes (op.code (some p)) [(Datum.int .i32 n).value, (Datum.int p x).value] (.primitive p) (op.shift p x n) := by
  have hcount : (n % p.carrier).toNat = p.shiftCount n := by
    rw [Primitive.shiftCount, Primitive.carrier]
    split <;> rfl
  have hsigned : Word.Signed p.carrier n := by
    have h32 : Word.Signed 32 n := hn
    unfold Word.Signed at h32 ⊢
    rcases p.carrier_eq with hc | hc <;> rw [hc] <;> omega
  cases op
  case shl =>
    have hword := Word.word_shl (x := x) p.carrier_eq hsigned
    rw [hcount] at hword
    exact computes_narrowed hp rfl (shift_value (r := .ok _) rfl hn hword)
  case shr =>
    have hword := Word.word_shr p.carrier_eq (Primitive.fits_carrier hp hx) hsigned
    rw [hcount] at hword
    have hshift : Machine.isShift (if p.isUnsigned then .shrUn else .shr) = true := by split <;> rfl
    have harith : Opcode.isArithmetic (if p.isUnsigned then .shrUn else .shr) = true := by split <;> rfl
    have h := computes_narrowed hp harith (shift_value (r := .ok _) hshift hn hword)
    rw [Primitive.wrap_of_inRange hp (Primitive.inRange_div hx _)] at h
    exact h
  all_goals contradiction

theorem computes_bools {a b : Bool} (ht : Expr.binaryType? h op .bool .bool = some type) :
    Computes (op.code (some .bool)) [(Datum.bool b).value, (Datum.bool a).value] type (op.onBools a b) := by
  -- Zero and one are closed under the bitwise operations.
  have hbits {o : Opcode} {c : Bool} (ho : o.isArithmetic = true)
      (hc : Machine.arithmetic o (Datum.bool a).value (Datum.bool b).value = .ok (Datum.bool c).value) :
      Computes [.op o] [(Datum.bool b).value, (Datum.bool a).value] .bool (.ok (.bool c)) :=
    .value nofun rfl fun _ => .step (.arithmetic ho hc) .nil
  have heq : Machine.compare .ceq (Datum.bool a).value (Datum.bool b).value = .ok (a == b) := by
    cases a <;> cases b <;> rfl
  cases op <;> cases ht
  case bitAnd => exact hbits rfl (by cases a <;> cases b <;> rfl)
  case bitOr => exact hbits rfl (by cases a <;> cases b <;> rfl)
  case bitXor => exact hbits rfl (by cases a <;> cases b <;> rfl)
  case eq => exact computes_compare rfl heq
  case ne => exact computes_negated rfl heq

theorem computes_floats {x y : Float} (hp : p.isFloat) (ht : Expr.binaryType? h op (.primitive p)
      (.primitive p) = some type) :
    Computes (op.code (some p)) [(Datum.float y).value, (Datum.float x).value] type (op.onFloats x y) := by
  have harith {o : Opcode} {z : Float} (ho : o.isArithmetic)
      (hz : Machine.arithmeticFloat? o x y = some z) :
      Computes [.op o] [(Datum.float y).value, (Datum.float x).value] (.primitive p) (.ok (.float z)) := by
    have hz' : Machine.arithmetic o (Datum.float x).value (Datum.float y).value = .ok (Datum.float z).value := by
      simp only [Machine.arithmetic, Datum.value, hz]
    exact .value nofun hp fun _ => .step (.arithmetic ho hz') .nil
  have heq : Machine.compare .ceq (Datum.float x).value (Datum.float y).value = .ok (x == y) := compare_ceq ..
  have hle : Computes (negated .cgtUn) [(Datum.float y).value, (Datum.float x).value] .bool
      (.ok (.bool (!(x.isNaN || y.isNaN) && !decide (x > y)))) := by
    rw [← Bool.not_or]
    exact computes_negated rfl rfl
  have hge : Computes (negated .cltUn) [(Datum.float y).value, (Datum.float x).value] .bool
      (.ok (.bool (!(x.isNaN || y.isNaN) && !decide (x < y)))) := by
    rw [← Bool.not_or]
    exact computes_negated rfl rfl
  cases p <;> first | contradiction | (cases op <;> cases ht)
  case f32.add | f64.add => exact harith rfl rfl
  case f32.sub | f64.sub => exact harith rfl rfl
  case f32.mul | f64.mul => exact harith rfl rfl
  case f32.div | f64.div => exact harith rfl rfl
  case f32.rem | f64.rem => exact harith rfl rfl
  case f32.eq | f64.eq => exact computes_compare rfl heq
  case f32.ne | f64.ne => exact computes_negated rfl heq
  case f32.lt | f64.lt => exact computes_compare rfl rfl
  case f32.gt | f64.gt => exact computes_compare rfl rfl
  case f32.le | f64.le => exact hle
  case f32.ge | f64.ge => exact hge

theorem computes_refs {v w : Value} (hv : (Datum.ref v).Fits left) (ht : Expr.binaryType? h op left left = some type) :
    Computes (op.code left.primitive?) [w, v] type (op.apply (.ref v) (.ref w)) := by
  -- What references have in common leaves only the comparisons for being the same.
  have hnumeric : left.isPrimitiveWith Primitive.isNumeric = false := by
    cases left with
    | primitive p => cases p <;> first | rfl | contradiction
    | _ => rfl
  have hinteger : left.isPrimitiveWith Primitive.isInteger = false := by
    cases left with
    | primitive p => cases p <;> first | rfl | contradiction
    | _ => rfl
  have hbool : left.isBool = false := by
    cases left with
    | primitive p => cases p <;> first | rfl | contradiction
    | _ => rfl
  cases op <;> simp [Expr.binaryType?, hnumeric, hinteger, hbool] at ht
  case eq =>
    obtain ⟨-, rfl⟩ := ht
    exact computes_compare rfl (compare_ceq v w)
  case ne =>
    obtain ⟨-, rfl⟩ := ht
    exact computes_negated rfl (compare_ceq v w)

end BinaryOp

theorem TypeRef.eq_primitive {t : TypeRef} {test : Primitive → Bool} (h : t.isPrimitiveWith test = true) :
    ∃ p, t = .primitive p ∧ test p := by
  cases t with
  | primitive p => exact ⟨p, rfl, h⟩
  | _ => contradiction

namespace Datum.Fits

variable {d : Datum}

theorem eq_bool (h : d.Fits .bool) : ∃ b, d = .bool b := by
  cases d with
  | bool b => exact ⟨b, rfl⟩
  | int p v =>
    obtain ⟨hp, hint, -⟩ := h
    cases hp
    contradiction
  | void => cases h
  | float _ | ref _ => contradiction

theorem eq_int (hp : p.isInteger) (h : d.Fits (.primitive p)) : ∃ v, d = .int p v ∧ p.InRange v := by
  cases d with
  | int q v =>
    obtain ⟨hq, -, hv⟩ := h
    cases hq
    exact ⟨v, rfl, hv⟩
  | void | bool _ =>
    cases h
    contradiction
  | float _ | ref _ => cases p <;> contradiction

theorem eq_float (hp : p.isFloat) (h : d.Fits (.primitive p)) : ∃ v, d = .float v := by
  cases d with
  | float v => exact ⟨v, rfl⟩
  | int q v =>
    obtain ⟨hq, hint, -⟩ := h
    cases hq
    cases p <;> contradiction
  | void | bool _ =>
    cases h
    contradiction
  | ref _ => cases p <;> contradiction

/-- What fits the type of a reference is a reference, if it is anything. -/
theorem eq_ref {v : Value} (hv : (Datum.ref v).Fits type) (h : d.Fits type) : ∃ w, d = .ref w := by
  cases d with
  | ref w => exact ⟨w, rfl⟩
  | int q _ =>
    obtain ⟨rfl, hint, -⟩ := h
    cases q <;> contradiction
  | void | bool _ =>
    cases h
    contradiction
  | float _ =>
    cases type with
    | primitive p => cases p <;> contradiction
    | _ => contradiction

end Datum.Fits

namespace Expr

variable {h : Hierarchy} {op : BinaryOp} {left right type : TypeRef}

/-- Both operands of anything but a shift have one type. -/
theorem binaryType?_same (hop : op.isShift = false) (ht : binaryType? h op left right = some type) :
    right = left ∧ type = if op.isComparison then .bool else left := by
  cases op <;> simp only [binaryType?, Option.ite_none_right_eq_some, Bool.and_eq_true, beq_iff_eq] at ht
  case shl | shr => contradiction
  all_goals exact ⟨ht.1.1.symm, (Option.some.inj ht.2).symm⟩

theorem binaryType?_shift (hop : op.isShift) (ht : binaryType? h op left right = some type) :
    left.isPrimitiveWith Primitive.isInteger ∧ right = .i32 ∧ type = left := by
  cases op <;> simp only [binaryType?, Option.ite_none_right_eq_some, Bool.and_eq_true, beq_iff_eq] at ht
  case shl | shr => exact ⟨ht.1.1, ht.1.2, (Option.some.inj ht.2).symm⟩
  all_goals contradiction

/-- Nothing can be done with what is of type void. -/
theorem binaryType?_void : binaryType? h op .void right = none := by
  cases op <;> simp [binaryType?, TypeRef.isPrimitiveWith, TypeRef.primitive?, TypeRef.isBool, TypeRef.isVoid,
    Hierarchy.isReference, Primitive.isNumeric, Primitive.isInteger, Primitive.isSigned, Primitive.isUnsigned,
    Primitive.isFloat]

end Expr

/-- The code of a well-typed operation computes it. -/
theorem BinaryOp.computes {h : Hierarchy} {op : BinaryOp} {a b : Datum} {right type : TypeRef} (ha : a.Fits left)
    (hb : b.Fits right) (ht : Expr.binaryType? h op left right = some type) :
    Computes (op.code left.primitive?) [b.value, a.value] type (op.apply a b) := by
  cases hop : op.isShift with
  | true =>
    obtain ⟨hint, rfl, rfl⟩ := Expr.binaryType?_shift hop ht
    obtain ⟨p, rfl, hp⟩ := TypeRef.eq_primitive hint
    obtain ⟨x, rfl, hx⟩ := ha.eq_int hp
    obtain ⟨n, rfl, hn⟩ := hb.eq_int rfl
    simp only [apply, hop, if_true]
    exact computes_shift hp hx hn hop
  | false =>
    obtain ⟨rfl, htype⟩ := Expr.binaryType?_same hop ht
    cases a with
    | void =>
      cases ha
      rw [Expr.binaryType?_void] at ht
      cases ht
    | bool x =>
      cases ha
      obtain ⟨y, rfl⟩ := hb.eq_bool
      exact computes_bools ht
    | int p x =>
      obtain ⟨rfl, hp, hx⟩ := ha
      obtain ⟨y, rfl, hy⟩ := hb.eq_int hp
      simp only [apply, hop, Bool.false_eq_true, if_false, if_true, htype]
      exact computes_ints hp hx hy hop
    | float x =>
      obtain ⟨p, rfl, hp⟩ := TypeRef.eq_primitive ha
      obtain ⟨y, rfl⟩ := hb.eq_float hp
      exact computes_floats hp ht
    | ref v =>
      obtain ⟨w, rfl⟩ := Datum.Fits.eq_ref ha hb
      exact computes_refs ha ht

/-! ## Operations on one value, and literals -/

namespace UnaryOp

variable {p : Primitive} {x : Int}

theorem unary_not_value : Machine.unary .not (Datum.int p x).value =
    .ok (Datum.int p (~~~BitVec.ofInt p.carrier x).toInt).value := by
  by_cases hp : p.bits = 64
  · have hc : p.carrier = 64 := if_pos hp
    rw [value_i64 hp, value_i64 hp, hc, BitVec.ofInt_toInt]
    rfl
  · have hc : p.carrier = 32 := if_neg hp
    rw [value_i32 hp, value_i32 hp, hc, BitVec.ofInt_toInt]
    rfl

theorem unary_neg_value : Machine.unary .neg (Datum.int p x).value = .ok (Datum.int p (-x)).value := by
  by_cases hp : p.bits = 64
  · rw [value_i64 hp, value_i64 hp, BitVec.ofInt_neg]
    rfl
  · rw [value_i32 hp, value_i32 hp, BitVec.ofInt_neg]
    rfl

theorem computes_narrowed (hp : p.isInteger) (hop : op.isUnary) (h : Machine.unary op a = .ok (Datum.int p z).value) :
    Computes (.op op :: narrowCode (some p)) [a] (.primitive p) (.ok (.int p (p.wrap z))) :=
  .value nofun ⟨rfl, hp, p.wrap_inRange z⟩ fun _ => .step (.unary hop h) (calc_narrow hp z)

theorem computes_not {a : Datum} (ha : a.Fits operand) (ht : Expr.unaryType? .not operand = some type) :
    Computes (UnaryOp.not.code operand.primitive?) [a.value] type (UnaryOp.not.apply a) := by
  simp only [Expr.unaryType?, Option.ite_none_right_eq_some, Option.some.injEq] at ht
  obtain ⟨htest, rfl⟩ := ht
  obtain ⟨p, rfl, hp⟩ := TypeRef.eq_primitive htest
  by_cases hbool : p = .bool
  · subst hbool
    obtain ⟨b, rfl⟩ := ha.eq_bool
    have hzero : Machine.compare .ceq (.ofBool b) (.i32 0) = .ok !b := by cases b <;> rfl
    exact .value nofun rfl fun _ => .step .i32 (.step (.compare rfl hzero) .nil)
  · have hint : p.isInteger = true := by simpa [hbool] using hp
    obtain ⟨x, rfl, hx⟩ := ha.eq_int hint
    have hz : p.wrap (~~~BitVec.ofInt p.carrier x).toInt = p.ofBits (~~~BitVec.ofInt p.bits x) := by
      have hbits := p.bits_le_carrier
      rw [Primitive.wrap_toInt hbits, BitVec.setWidth_not hbits, Word.setWidth_ofInt hbits]
    have h := computes_narrowed hint rfl (unary_not_value (x := x))
    rw [hz] at h
    simpa [code, apply, TypeRef.primitive?, hbool] using h

theorem computes_negate {a : Datum} (ha : a.Fits operand) (ht : Expr.unaryType? .negate operand = some type) :
    Computes (UnaryOp.negate.code operand.primitive?) [a.value] type (UnaryOp.negate.apply a) := by
  simp only [Expr.unaryType?, Option.ite_none_right_eq_some, Option.some.injEq] at ht
  obtain ⟨htest, rfl⟩ := ht
  obtain ⟨p, rfl, hp⟩ := TypeRef.eq_primitive htest
  by_cases hfloat : p.isFloat = true
  · obtain ⟨x, rfl⟩ := ha.eq_float hfloat
    have hcode : UnaryOp.negate.code (some p) = [.op .neg] := by cases p <;> first | rfl | contradiction
    rw [TypeRef.primitive?, hcode]
    exact .value nofun hfloat fun _ => .step (.unary rfl rfl) .nil
  · have hint : p.isInteger := by
      cases p <;> first | rfl | contradiction
    obtain ⟨x, rfl, hx⟩ := ha.eq_int hint
    exact computes_narrowed hint rfl unary_neg_value

end UnaryOp

/-- What is known of the primitive types is true of them. -/
def Hierarchy.KnowsPrimitives (h : Hierarchy) : Prop :=
  ∀ p : Primitive, h.catalog.isValueType (.primitive p) = p.isValueType

theorem Hierarchy.fits_null (hknows : h.KnowsPrimitives) (ht : h.isReference type) (v : Value) :
    (Datum.ref v).Fits type := by
  cases type with
  | primitive p =>
    change (_ && !h.catalog.isValueType (.primitive p)) = true at ht
    rw [hknows p] at ht
    cases p <;> first | rfl | contradiction
  | _ => rfl

namespace Literal

/-- An integer literal is pushed as it is. -/
theorem computes_int {i : Instr} {v : Int} (hp : p.isInteger) (hv : p.InRange v)
    (hi : ∀ stack, Calculates i stack (.ok ((Datum.int p v).value :: stack))) :
    Computes [i] [] (.primitive p) (.ok (.int p v)) :=
  .value nofun ⟨rfl, hp, hv⟩ fun stack => .step (hi stack) .nil

theorem ofInt_natCast {w n : Nat} (b : BitVec w) (h : b.toNat = n) : BitVec.ofInt w n = b := by
  rw [Word.ofInt_ofNat, ← h, BitVec.ofNat_toNat, BitVec.setWidth_eq]

theorem computes {v : Literal} {d : Datum} {env : TypeEnv} {type : TypeRef} (hknows : env.hierarchy.KnowsPrimitives)
    (hv : v.datum? = some d) (ht : (Expr.literal v).typeOf env = .ok type) : Computes v.code [] type (.ok d) := by
  have hpushed {z : BitVec 32} {v : Int} {p : Primitive} (hp : p.bits ≠ 64) (h : BitVec.ofInt 32 v = z)
      (stack : List Value) : Calculates (.loadI32 (.ofBitVec z)) stack (.ok ((Datum.int p v).value :: stack)) := by
    rw [value_i32 hp, h]
    exact .i32
  have hpushed64 {z : BitVec 64} {v : Int} {p : Primitive} (hp : p.bits = 64) (h : BitVec.ofInt 64 v = z)
      (stack : List Value) : Calculates (.loadI64 (.ofBitVec z)) stack (.ok ((Datum.int p v).value :: stack)) := by
    rw [value_i64 hp, h]
    exact .i64
  cases v <;> cases hv
  case null t =>
    rw [Expr.typeOf] at ht
    split at ht
    · rename_i href
      cases ht
      exact .value nofun (Hierarchy.fits_null hknows href .null) fun _ => .step .null .nil
    · cases ht
  all_goals cases ht
  case bool b => exact .value nofun rfl fun _ => .step .i32 .nil
  case string t => exact .value nofun rfl fun _ => .step .string .nil
  case i8 v => exact computes_int rfl ⟨v.le_toInt, v.toInt_lt⟩ (hpushed (by decide) rfl)
  case i16 v => exact computes_int rfl ⟨v.le_toInt, v.toInt_lt⟩ (hpushed (by decide) rfl)
  case i32 v => exact computes_int rfl ⟨v.le_toInt, v.toInt_lt⟩ (hpushed (by decide) BitVec.ofInt_toInt)
  case i64 v => exact computes_int rfl ⟨v.le_toInt, v.toInt_lt⟩ (hpushed64 rfl BitVec.ofInt_toInt)
  case u8 v =>
    exact computes_int rfl ⟨Int.natCast_nonneg _, by exact_mod_cast v.toNat_lt⟩
      (hpushed (by decide) (Word.ofInt_ofNat _))
  case u16 v =>
    exact computes_int rfl ⟨Int.natCast_nonneg _, by exact_mod_cast v.toNat_lt⟩
      (hpushed (by decide) (Word.ofInt_ofNat _))
  case u32 v =>
    exact computes_int rfl ⟨Int.natCast_nonneg _, by exact_mod_cast v.toNat_lt⟩
      (hpushed (by decide) (ofInt_natCast v.toBitVec rfl))
  case u64 v =>
    exact computes_int rfl ⟨Int.natCast_nonneg _, by exact_mod_cast v.toNat_lt⟩
      (hpushed64 rfl (ofInt_natCast v.toBitVec rfl))

end Literal

end Stackwright
