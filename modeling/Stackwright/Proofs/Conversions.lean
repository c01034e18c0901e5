import Stackwright.Proofs.Execution
import Stackwright.Proofs.Meaning

/-
  Stackwright.Proofs.Conversions — what a conversion does to a number.

  The machine reads the operand as a word of 64 bits, and the opcode for the target type cuts it. Numbers of both
  types come through as they are. The exception is the upper half of `u32` on the way to `i64`: a word of 32 bits is
  read with its sign, since it does not show that its type has none.

  - `UnaryOp.computes`, `Literal.computes_result`: the code of an operation or a literal computes what it means.
-/

namespace Stackwright

open Machine (Value Frame Program)

variable {x : Int}

variable {source target : Primitive} {a : Datum} {op : Opcode}

/-- What is left of a word for a type, as the machine holds it. -/
def Primitive.cut (p : Primitive) (z : BitVec 64) : Value :=
  if p.bits = 64 then .i64 (.ofBitVec z)
  else .i32 (.ofBitVec (if p.isSigned then (z.signExtend p.bits).signExtend 32 else (z.setWidth p.bits).setWidth 32))

theorem Primitive.value_cut (p : Primitive) (z : BitVec 64) :
    (Datum.int p (p.ofBits (z.setWidth p.bits))).value = p.cut z := by
  have hcut : z.signExtend p.bits = z.setWidth p.bits := BitVec.signExtend_eq_setWidth_of_le z (by cases p <;> decide)
  have hnat {n w : Nat} (b : BitVec n) : BitVec.ofInt w b.toNat = b.setWidth w := by
    rw [Word.ofInt_ofNat, BitVec.ofNat_toNat]
  unfold cut ofBits
  by_cases hp : p.bits = 64
  · have hfull : (z.setWidth p.bits).setWidth 64 = z := by
      rw [BitVec.setWidth_setWidth_of_le _ (by omega), BitVec.setWidth_eq]
    rw [value_i64 hp, if_pos hp]
    split
    · rw [← BitVec.signExtend, BitVec.signExtend_eq_setWidth_of_le _ (by omega), hfull]
    · rw [hnat, hfull]
  · rw [value_i32 hp, if_neg hp]
    split
    · rw [hcut]
      rfl
    · rw [hnat]

/-- A conversion cuts a 64-bit word. -/
theorem convert_i64 (htarget : target.isInteger) (hop : conversion? target = some op) (z : BitVec 64) :
    Machine.convert op (.i64 (.ofBitVec z)) = .ok (target.cut z) := by
  cases target <;> cases hop <;> first | contradiction | rfl | skip
  all_goals
    show Except.ok (Value.i32 (.ofBitVec (z.signExtend 32))) = .ok (.i32 (.ofBitVec _))
    simp [BitVec.signExtend_eq_setWidth_of_le, Primitive.isSigned, Primitive.bits]

/-- The machine reads a number as its word before it converts it. -/
theorem convert_value (hsource : source.isNumeric) (ha : a.Fits (.primitive source)) (htarget : target.isInteger)
    (hop : conversion? target = some op) :
    Machine.convert op a.value = .ok (Datum.int target (target.ofBits
      ((a.word target).setWidth target.bits))).value := by
  rw [target.value_cut, ← convert_i64 htarget hop]
  by_cases hfloat : source.isFloat = true
  · obtain ⟨x, rfl⟩ := ha.eq_float hfloat
    cases target <;> cases hop <;> first | contradiction | rfl
  · obtain ⟨x, rfl, -⟩ := ha.eq_int (by cases source <;> first | rfl | contradiction)
    by_cases hbits : source.bits = 64
    · rw [value_i64 hbits, Datum.word, if_pos hbits]
    · rw [value_i32 hbits, Datum.word, if_neg hbits]
      cases target <;> cases hop <;> first | contradiction | rfl

/-- Numbers of both types stay the same, except that the machine takes the upper half of `u32` for negative numbers
    when it widens them to `i64`. -/
theorem ofBits_word (hsource : source.isInteger) (htarget : target.isInteger) (hx : source.InRange x)
    (hx' : target.InRange x) (hhalf : source = .u32 → target = .i64 → x < 2 ^ 31) :
    target.ofBits (((Datum.int source x).word target).setWidth target.bits) = x := by
  suffices hword : ((Datum.int source x).word target).setWidth target.bits = BitVec.ofInt target.bits x by
    rw [hword, ← Primitive.wrap_eq_ofBits, Primitive.wrap_of_inRange htarget hx']
  rw [Datum.word]
  split
  · exact Word.setWidth_ofInt (by cases target <;> decide)
  · rename_i hbits
    have hrange (hwide : target.bits = 64) : if target = .u64 then Word.Unsigned 32 x else Word.Signed 32 x := by
      cases target <;> cases source <;> simp_all [Word.Signed, Word.Unsigned, Primitive.InRange, Primitive.isSigned,
        Primitive.bits] <;> omega
    cases target <;> try contradiction
    case i64 =>
      refine (BitVec.setWidth_eq _).trans ?_
      rw [if_neg (by decide), BitVec.signExtend, Word.toInt_ofInt (by decide) (hrange rfl)]
      rfl
    case u64 =>
      refine (BitVec.setWidth_eq _).trans ?_
      rw [if_pos rfl, ← BitVec.ofNat_toNat, ← Word.ofInt_ofNat, Word.toNat_ofInt (hrange rfl)]
      rfl
    all_goals exact (setWidth_signExtend (by decide) _).trans (Word.setWidth_ofInt (by decide))

/-- The code of a well-typed operation computes it. -/
theorem UnaryOp.computes {op : UnaryOp} {operand type : TypeRef} (hop : op.isPlain) (ha : a.Fits operand)
    (ht : Expr.unaryType? op operand = some type) :
    Computes (op.code operand.primitive?) [a.value] type (op.result a) := by
  cases op with
  | not => exact computes_not ha ht
  | negate => exact computes_negate ha ht
  | convert target =>
    simp only [Expr.unaryType?, Option.ite_none_right_eq_some, Option.some.injEq, Bool.and_eq_true] at ht
    obtain ⟨⟨-, htest⟩, rfl⟩ := ht
    obtain ⟨source, rfl, hsource⟩ := TypeRef.eq_primitive htest
    refine .value (by rintro ⟨⟩) ⟨rfl, hop, Primitive.ofBits_inRange _⟩ fun stack => ?_
    by_cases hsame : source = target
    · subst hsame
      obtain ⟨x, rfl, hx⟩ := ha.eq_int hop
      rw [ofBits_word hop hop hx hx (by rintro rfl ⟨⟩)]
      simpa [code, TypeRef.primitive?] using Calc.nil
    · obtain ⟨opcode, hopcode⟩ : ∃ opcode, conversion? target = some opcode := by
        cases target <;> first | exact ⟨_, rfl⟩ | contradiction
      have hconversion : opcode.isConversion := by cases target <;> cases hopcode <;> rfl
      simp only [code, TypeRef.primitive?, beq_iff_eq, Option.some.injEq, hsame, if_false, hopcode]
      exact .step (.convert hconversion (convert_value hsource ha hop hopcode)) .nil

/-- A literal is pushed as its value. -/
theorem Literal.computes_result {v : Literal} {d : Datum} {env : TypeEnv} {type : TypeRef}
    (hknows : env.hierarchy.KnowsPrimitives) (hv : v.result? = some d) (ht : (Expr.literal v).typeOf env = .ok type) :
    Computes v.code [] type (.ok d) := by
  cases v with
  | char c =>
    simp only [result?, Option.ite_none_right_eq_some, Option.some.injEq] at hv
    obtain ⟨hfits, rfl⟩ := hv
    cases ht
    exact computes_int rfl ⟨Int.natCast_nonneg _, by exact_mod_cast hfits⟩ fun stack => .i32
  | _ => exact computes hknows hv ht

/-! ## Lowered conversions -/

theorem ofBits_word_half (hx : 2 ^ 31 ≤ x) (hx' : x < 2 ^ 32) :
    Primitive.ofBits .i64 (((Datum.int .u32 x).word .i64).setWidth (Primitive.bits .i64)) = x - 2 ^ 32 := by
  have hword : (Datum.int .u32 x).word .i64 = (Datum.int .i32 (x - 2 ^ 32)).word .i64 := by
    show (BitVec.ofInt 32 x).signExtend 64 = (BitVec.ofInt 32 (x - 2 ^ 32)).signExtend 64
    rw [Word.ofInt_sub]
    simp
  rw [hword]
  have hrange : -2 ^ 31 ≤ x - 2 ^ 32 ∧ x - 2 ^ 32 < 2 ^ 31 := by omega
  have hrange' : -2 ^ 63 ≤ x - 2 ^ 32 ∧ x - 2 ^ 32 < 2 ^ 63 := by omega
  exact ofBits_word rfl rfl hrange hrange' (by rintro ⟨⟩)

/-- The conversion runs to the word's part for the target type. -/
theorem UnaryOp.runs_convert (p : Program) (stack : List Value) {L : Layout} {f : Frame} {pc : Nat} {x : Int}
    (hsource : source.isInteger) (htarget : target.isInteger) (hx : source.InRange x) (hcode : f.code = L.code)
    (hholds : L.Holds pc ((UnaryOp.convert target).code (some source))) :
    Runs p (f.moved pc ((Datum.int source x).value :: stack))
      (f.moved (pc + extent ((UnaryOp.convert target).code (some source)))
      ((Datum.int target (target.ofBits (((Datum.int source x).word target).setWidth target.bits))).value ::
        stack)) := by
  have htype : Expr.unaryType? (.convert target) (.primitive source) = some (.primitive target) := by
    cases target <;> cases source <;> first | rfl | contradiction
  have hfits : (Datum.int source x).Fits (.primitive source) := ⟨rfl, hsource, hx⟩
  cases @UnaryOp.computes _ (.convert target) _ _ htarget hfits htype with
  | value _ _ hcalc => exact Layout.runs_calc hcode hholds (hcalc stack)

namespace Expr

variable {operand : Expr} {options : BuildOptions} {scope : Scope} {tail : Bool} {s t : Supply} {b : Block}

/-- A lowered conversion between integer types is the lowered operand and code that turns a number of both types into
    itself; but from the upper half of `u32` it makes negative numbers of `i64`. -/
theorem conversions_keep_numbers (h : ((Expr.unary (.convert target) operand).lower options scope tail).exec s =
      (.ok b, t))
    (hoperand : operand.typeOf scope.types = .ok (.primitive source)) (hsource : source.isInteger = true)
    (htarget : target.isInteger = true) :
    ∃ v code, (operand.lower options scope false).exec s = (.ok v, t) ∧ b = v ++ .ofCode (code ++ retIf tail) ∧
      ∀ x, source.InRange x → target.InRange x → ∀ (L : Layout) (p : Program) (f : Frame) (pc : Nat)
        (stack : List Value),
        f.code = L.code → L.Holds pc code → Runs p (f.moved pc ((Datum.int source x).value :: stack))
          (f.moved (pc + extent code) ((Datum.int target
            (if source = .u32 ∧ target = .i64 ∧ 2 ^ 31 ≤ x then x - 2 ^ 32 else x)).value :: stack)) := by
  rw [lower] at h
  obtain ⟨type, htype, h⟩ := Effect.exec_lift_bind_ok.mp h
  obtain ⟨v, s₁, hv, h⟩ := Effect.exec_bind_ok.mp h
  cases htype.symm.trans hoperand
  cases h
  refine ⟨v, _, hv, rfl, fun x hx hx' L p f pc stack hcode hholds => ?_⟩
  have hrun := UnaryOp.runs_convert p stack hsource htarget hx hcode hholds
  split
  · rename_i hhalf
    obtain ⟨rfl, rfl, hhalf⟩ := hhalf
    rwa [ofBits_word_half hhalf hx.2] at hrun
  · rename_i hhalf
    rwa [ofBits_word hsource htarget hx hx' fun hs ht => Int.not_le.mp fun hx => hhalf ⟨hs, ht, hx⟩] at hrun

/-- A `u32` that becomes an `i64`. -/
def widening : Expr := .unary (.convert .i64) (.var (.named "x"))

/-- The scope of a method with one `u32` as its parameter. -/
def widened : Scope := Scope.bind { types := { hierarchy := { table := ∅, catalog := ∅ } } } (.named "x")
    (.argument 0 (.primitive .u32))

/-- The largest number of the lower half is kept. -/
theorem widening_keeps_lower_half : ∃ code, (widening.lower {} widened false).exec {} =
    (.ok (.ofCode (.loadArg 0 :: code)), {}) ∧
    ∀ (L : Layout) (p : Program) (f : Frame) (pc : Nat) (stack : List Value), f.code = L.code → L.Holds pc code →
      Runs p (f.moved pc (.i32 2147483647 :: stack)) (f.moved (pc + extent code) (.i64 2147483647 :: stack)) := by
  have hlower : (widening.lower {} widened false).exec {} = (.ok (.ofCode [.loadArg 0, .op .convI8]), {}) := rfl
  have htype : (Expr.var (.named "x")).typeOf widened.types = .ok (.primitive .u32) := rfl
  obtain ⟨v, code, hv, hb, hruns⟩ := conversions_keep_numbers hlower htype rfl rfl
  cases hv
  obtain rfl : [.op .convI8] = code := (List.cons.inj (congrArg Block.code hb)).2.trans (List.append_nil code)
  exact ⟨_, hlower, hruns 2147483647 ⟨by decide, by decide⟩ ⟨by decide, by decide⟩⟩

/-- The largest number of the upper half becomes a negative one, although `i64` has it. -/
theorem widening_loses_u32 : ∃ code, (widening.lower {} widened false).exec {} =
    (.ok (.ofCode (.loadArg 0 :: code)), {}) ∧ Primitive.InRange .u32 4294967295 ∧ Primitive.InRange .i64 4294967295 ∧
      (Datum.int .i64 4294967295).value ≠ .i64 (-1) ∧
    ∀ (L : Layout) (p : Program) (f : Frame) (pc : Nat) (stack : List Value), f.code = L.code → L.Holds pc code →
      Runs p (f.moved pc ((Datum.int .u32 4294967295).value :: stack))
        (f.moved (pc + extent code) (.i64 (-1) :: stack)) :=
  ⟨_, rfl, ⟨by decide, by decide⟩, ⟨by decide, by decide⟩, by rintro ⟨⟩, fun _ p _ _ stack hcode hholds =>
    @UnaryOp.runs_convert .u32 .i64 p stack _ _ _ _ rfl rfl ⟨by decide, by decide⟩ hcode hholds⟩

end Expr

end Stackwright
