import Stackwright.Proofs.Compiled

/-
  Stackwright.Proofs.Canonical — one form for every value.

  Numbers of less than 32 bits travel in 32, so a word can stand for a number and yet not be it. Comparisons look at
  the whole word. What a plain body returns is always the number itself. Characters beyond 16 bits are not plain: they
  are pushed whole.
-/

namespace Stackwright

open Machine

/-- The form in which the machine holds the values of a type. -/
def Machine.Value.Canonical (p : Primitive) : Value → Prop
  | .i32 w =>
    match p with
    | .bool => w = 0 ∨ w = 1
    | .i32 | .u32 => True
    | .i8 | .i16 | .u8 | .u16 | .char => p.InRange w.toInt
    | _ => False
  | .i64 _ => p = .i64 ∨ p = .u64
  | _ => False

/-- The number of a type that a word stands for. -/
def Primitive.number (p : Primitive) : Value → Int
  | .i32 w => if p = .bool then (if w = 0 then 0 else 1) else p.ofBits (w.toBitVec.setWidth p.bits)
  | .i64 w => p.ofBits (w.toBitVec.setWidth p.bits)
  | _ => 0

variable {p : Primitive} {d : Datum} {v w : Value}

theorem Datum.Fits.canonical (hp : p = .bool ∨ p.isInteger) (h : d.Fits (.primitive p)) : d.value.Canonical p := by
  rcases hp with rfl | hp
  · obtain ⟨b, rfl⟩ := h.eq_bool
    cases b
    · exact .inl rfl
    · exact .inr rfl
  · obtain ⟨x, rfl, hx⟩ := h.eq_int hp
    by_cases hbits : p.bits = 64
    · rw [value_i64 hbits]
      cases p <;> first | exact .inl rfl | exact .inr rfl | contradiction
    · have hword : p.bits < 32 → (Int32.ofBitVec (BitVec.ofInt 32 x)).toInt = x := fun hnarrow =>
        Word.toInt_ofInt (by decide) (by cases p <;> simp_all [Word.Signed, Primitive.InRange, Primitive.isSigned,
          Primitive.bits] <;> omega)
      rw [value_i32 hbits]
      cases p <;> first | trivial | contradiction | (show Primitive.InRange _ _; rwa [hword (by decide)])

/-- Words in the form of a type below 32 bits are the numbers that they stand for. -/
theorem Primitive.number_of_inRange {w : Int32} (hp : p.isInteger) (hbits : p.bits ≤ 32) (hw : p.InRange w.toInt) :
    p.number (.i32 w) = w.toInt := by
  have hcut : w.toBitVec.setWidth p.bits = BitVec.ofInt p.bits w.toInt := by
    rw [← Word.setWidth_ofInt hbits]
    exact congrArg _ (BitVec.ofInt_toInt).symm
  rw [number, if_neg (by rintro rfl; cases hp), hcut, ← wrap_eq_ofBits, wrap_of_inRange hp hw]

theorem Primitive.ofBits_inj {n : Nat} {a b : BitVec n} (hn : p.bits = n)
    (h : p.ofBits (a.setWidth p.bits) = p.ofBits (b.setWidth p.bits)) : a = b := by
  subst hn
  simp only [BitVec.setWidth_eq, ofBits] at h
  split at h
  · exact BitVec.eq_of_toInt_eq h
  · exact BitVec.eq_of_toNat_eq (Int.ofNat.inj h)

theorem Primitive.number_inj (hv : v.Canonical p) (hw : w.Canonical p) (h : p.number v = p.number w) : v = w := by
  cases v <;> try contradiction
  case i32 a =>
    cases w <;> try contradiction
    case i32 b =>
      refine congrArg _ ?_
      cases p <;> try contradiction
      case bool => rcases hv with rfl | rfl <;> rcases hw with rfl | rfl <;> first | rfl | contradiction
      case i32 => exact Int32.toBitVec_inj.mp (@ofBits_inj .i32 _ _ _ rfl h)
      case u32 => exact Int32.toBitVec_inj.mp (@ofBits_inj .u32 _ _ _ rfl h)
      all_goals
        rw [number_of_inRange rfl (by decide) hv, number_of_inRange rfl (by decide) hw] at h
        exact Int32.toInt_inj.mp h
    case i64 b => rcases hw with rfl | rfl <;> contradiction
  case i64 a =>
    cases w <;> try contradiction
    case i32 b => rcases hv with rfl | rfl <;> contradiction
    case i64 b =>
      refine congrArg _ ?_
      rcases hv with rfl | rfl
      all_goals exact Int64.toBitVec_inj.mp (ofBits_inj rfl h)

/-- Equality of words in the form of a type is equality of numbers. -/
theorem BinaryOp.calc_eq (hv : v.Canonical p) (hw : w.Canonical p) (stack : List Value) :
    Calc (BinaryOp.eq.code (some p)) (w :: v :: stack) (.ok (.ofBool (p.number v == p.number w) :: stack)) := by
  have hsame : v.same w = (p.number v == p.number w) := by
    rw [Bool.eq_iff_iff, beq_iff_eq]
    refine ⟨fun h => ?_, fun h => ?_⟩
    · cases v <;> cases w <;> simp_all [Value.same, Value.Canonical]
    · rw [Primitive.number_inj hv hw h]
      cases w <;> first | contradiction | simp [Value.same]
  rw [← hsame]
  exact .step (.compare rfl (compare_ceq v w)) .nil

/-- A plain body of an integer type or `bool` can be installed in any static method that waits for it, and a call of
    the method divides by zero or returns a value in the form of the type. In that form equal values compare equal. -/
theorem Body.values_stay_canonical {params : List Param} {e : Expr} {h : Hierarchy} {options : BuildOptions}
    {s t : Supply}
    {block : Block} (hknows : h.KnowsPrimitives) (hplain : e.isPlain = true) (hp : p = .bool ∨ p.isInteger = true)
    (hcompile : (Body.compileMethod { params, body := e } h options (.primitive p)).exec s = (.ok block, t))
    {ws : Workspace machine} {id : MethodId} (hmethod : ws.program.Awaits id params (.primitive p))
    (hkeys : ∀ k ∈ block.keys, ws.slots.isWritten k = true) :
    (∃ ws', (TypeDefinition.writeBody machine block (machine.methodBody id)).exec ws = (.ok (), ws') ∧
      ∀ args, List.Forall₂ Param.Admits params args →
        ∃ result, (result = .error .divideByZero ∨ ∃ v, result = .ok v ∧ v.Canonical p) ∧
          ∀ natives, ∃ n, ∀ fuel ≥ n, ∀ w,
            Loaded.call ⟨ws'.program, natives⟩ fuel id (args.map Datum.value) w = (some result, w)) ∧
    ∀ v w : Value, v.Canonical p → w.Canonical p → ∀ stack,
      Calc (BinaryOp.eq.code (some p)) (w :: v :: stack) (.ok (.ofBool (p.number v == p.number w) :: stack)) := by
  refine ⟨?_, fun v w hv hw stack => BinaryOp.calc_eq hv hw stack⟩
  have hvoid : (TypeRef.primitive p).isVoid = false := by
    rcases hp with rfl | hp
    · rfl
    · cases p <;> first | rfl | contradiction
  have hreach : bounded.Suits options.maxSwitchCases := fun _ _ _ =>
    ⟨fun hin => hin, fun hout hin => absurd hin (by simp [hout])⟩
  obtain ⟨ws', hws', hcalls⟩ := compileMethod_calls hknows hplain hreach hcompile hmethod hkeys
  refine ⟨ws', hws', fun args hargs => ?_⟩
  obtain ⟨hfits, result, hresult, hcall⟩ := hcalls args hargs
  refine ⟨result, ?_, hcall⟩
  cases hmeaning : e.meaning bounded (paramEnv params args) with
  | error stop =>
    rw [hmeaning] at hresult
    cases stop with
    | divideByZero => exact .inl (Option.some.inj hresult).symm
    | stuck => cases hresult
  | ok r =>
    rw [hmeaning, callResult, hvoid] at hresult
    exact .inr ⟨r.1.value, (Option.some.inj hresult).symm, (hfits _ _ hmeaning hvoid).canonical hp⟩

/-- Cuts its first argument to 8 bits. -/
def truncation : Body where
  params := [⟨.generated 0 none, .i32⟩, ⟨.generated 1 none, .primitive .u8⟩]
  body := .unary (.convert .u8) (.var (.generated 0 none))

theorem Body.truncation_stays_canonical : ∃ block t,
    (truncation.compileMethod { table := ∅, catalog := ∅ } {} (.primitive .u8)).exec { next := 2 } = (.ok block, t) ∧
    ∃ ws', (TypeDefinition.writeBody machine block (machine.methodBody ⟨0, "f"⟩)).exec ⟨bodilessProgram, ∅⟩ =
      (.ok (), ws') ∧ ∃ result, (result = .error .divideByZero ∨ ∃ v : Value, result = .ok v ∧ v.Canonical .u8) ∧
        ∀ natives, ∃ n, ∀ fuel ≥ n, ∀ w, Loaded.call ⟨ws'.program, natives⟩ fuel ⟨0, "f"⟩ [.i32 300, .i32 0] w =
          (some result, w) := by
  obtain ⟨block, t, hcompile, hkeys⟩ : ∃ block t,
      (truncation.compileMethod { table := ∅, catalog := ∅ } {} (.primitive .u8)).exec { next := 2 } = (.ok block, t) ∧
        block.keys.isEmpty = true := ⟨_, _, rfl, rfl⟩
  let ws : Workspace machine := ⟨bodilessProgram, ∅⟩
  have hmethod : ws.program.Awaits ⟨0, "f"⟩ truncation.params (.primitive .u8) := ⟨by decide, rfl, rfl, rfl, rfl⟩
  have hwritten : ∀ k ∈ block.keys, ws.slots.isWritten k = true :=
    fun k hk => absurd hk (Std.TreeSet.not_mem_of_isEmpty hkeys)
  have hplain : truncation.body.isPlain = true := rfl
  obtain ⟨⟨ws', hws', hcalls⟩, -⟩ := values_stay_canonical (fun _ => rfl) hplain (.inr rfl) hcompile hmethod hwritten
  exact ⟨block, t, hcompile, ws', hws', hcalls [.int .i32 300, .int .u8 0]
    (.cons ⟨by rintro ⟨⟩, rfl, rfl, by decide, by decide⟩ (.cons ⟨by rintro ⟨⟩, rfl, rfl, by decide, by decide⟩ .nil))⟩

/-- A body that is one character of 17 bits. -/
def wideCharacter : Body := { truncation with body := .literal (.char '😀') }

/-- The character is returned whole, and differs from the number of its type that it stands for. -/
theorem Body.wide_character_overflows : ∃ block t,
    (wideCharacter.compileMethod { table := ∅, catalog := ∅ } {} (.primitive .char)).exec { next := 2 } =
    (.ok block, t) ∧
    ∃ ws', (TypeDefinition.writeBody machine block (machine.methodBody ⟨0, "f"⟩)).exec ⟨bodilessProgram, ∅⟩ =
      (.ok (), ws') ∧
      (∀ natives w, Loaded.call ⟨ws'.program, natives⟩ 3 ⟨0, "f"⟩ [.i32 0, .i32 0] w = (some (.ok (.i32 128512)), w)) ∧
      ¬ (Value.i32 128512).Canonical .char ∧ Primitive.number .char (.i32 128512) = Primitive.number .char
        (.i32 62976) :=
  ⟨_, _, rfl, _, rfl, fun _ _ => rfl, fun h => absurd h.2 (by decide), rfl⟩

end Stackwright
