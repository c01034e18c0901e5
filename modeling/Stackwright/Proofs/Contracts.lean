import Stackwright.Proofs.Steps
import Stackwright.Machine.Target

/-
  Stackwright.Proofs.Contracts — steps keep to the keys they name.

  Following a reference reads the slots of the keys that it mentions and no others (`Uses`), and
  so does writing a block. A step does its work on slots it only reads (`Confined`), and at the
  end it writes the slot of the one key it makes, or none.

  - `Step.keepsContract_of_confined`: steps that only read and keep to their inputs.
-/

namespace Stackwright

variable {b : Block}
variable {α σ : Type} {key : ItemKey}

/-! ## Work that misses no slot -/

namespace Effect

variable {σ τ α β : Type}

/-- Work that never fails because a slot is empty. -/
def MissesNone (x : Effect σ α) : Prop := ∀ s key, (x.exec s).1 ≠ .error (.uninitialized key)

namespace MissesNone

theorem pure (a : α) : MissesNone (pure a : Effect σ α) := by
  intro s key h
  cases h

theorem fail {e : BuildError} (he : ∀ key, e ≠ .uninitialized key) : MissesNone (throw e : Effect σ α) := by
  intro s key h
  cases h
  exact he key rfl

theorem lift {x : Except BuildError α} (hx : ∀ key, x ≠ .error (.uninitialized key)) :
    MissesNone (liftM x : Effect σ α) :=
  fun _ key => hx key

theorem bind {x : Effect σ α} {f : α → Effect σ β} (hx : x.MissesNone) (hf : ∀ a, (f a).MissesNone) :
    (x >>= f).MissesNone := by
  intro s key h
  rcases hb : (x >>= f).exec s with ⟨r, u⟩
  rw [hb] at h
  obtain rfl : r = .error (.uninitialized key) := h
  rcases exec_bind_error.mp hb with hx' | ⟨a, t, -, hf'⟩
  · exact hx s key (by rw [hx'])
  · exact hf a t key (by rw [hf'])

theorem zoom {view : σ → τ} {put : τ → σ → σ} {x : Effect τ α} (hx : x.MissesNone) : (zoom view put x).MissesNone :=
  fun s key => hx (view s) key

theorem get : MissesNone (get : Effect σ σ) := by
  intro s key h
  cases h

theorem set (t : σ) : MissesNone (set t : Effect σ PUnit) := by
  intro s key h
  cases h

theorem modify (f : σ → σ) : MissesNone (modify f : Effect σ PUnit) := by
  intro s key h
  cases h

theorem ite {c : Prop} [Decidable c] {x y : Effect σ α} (hx : x.MissesNone) (hy : y.MissesNone) :
    MissesNone (if c then x else y) := by
  split <;> assumption

end MissesNone

end Effect

/-- A target that never blames an empty slot: slots are not its business. -/
structure Target.MissesNone (T : Target) : Prop where
  primitiveType : ∀ p, (T.primitiveType p).MissesNone
  namedType : ∀ name, (T.namedType name).MissesNone
  cellType : ∀ content, (T.cellType content).MissesNone
  delegateType : ∀ params ret, (T.delegateType params ret).MissesNone
  existingMethod : ∀ owner name params ret isInstance, (T.existingMethod owner name params ret isInstance).MissesNone
  existingConstructor : ∀ owner params, (T.existingConstructor owner params).MissesNone
  existingField : ∀ owner name type isInstance, (T.existingField owner name type isInstance).MissesNone
  defineType : ∀ name attributes base interfaces, (T.defineType name attributes base interfaces).MissesNone
  finalizeType : ∀ type, (T.finalizeType type).MissesNone
  defineField : ∀ owner signature, (T.defineField owner signature).MissesNone
  defineMethod : ∀ owner signature, (T.defineMethod owner signature).MissesNone
  defineConstructor : ∀ owner signature, (T.defineConstructor owner signature).MissesNone
  defineProperty : ∀ owner signature, (T.defineProperty owner signature).MissesNone
  defineLabel : T.defineLabel.MissesNone
  markLabel : ∀ label, (T.markLabel label).MissesNone
  declareLocal : ∀ type, (T.declareLocal type).MissesNone
  beginTry : T.beginTry.MissesNone
  beginCatch : ∀ type, (T.beginCatch type).MissesNone
  beginFinally : T.beginFinally.MissesNone
  endTry : T.endTry.MissesNone
  emit : ∀ op, (T.emit op).MissesNone
  methodBody : ∀ method draft, (T.methodBody method draft).MissesNone
  constructorBody : ∀ ctor draft, (T.constructorBody ctor draft).MissesNone

theorem Effect.Succeeds.missesNone {x : Effect σ α} (hx : x.Succeeds) : x.MissesNone := by
  intro s key h
  obtain ⟨a, t, ha⟩ := hx s
  rw [ha] at h
  cases h

theorem recorder_missesNone : recorder.MissesNone where
  primitiveType p := (recorder_reliable.primitiveType p).missesNone
  namedType name := .ite (.fail (by simp)) (.pure name)
  cellType content := (recorder_reliable.cellType content).missesNone
  delegateType params ret := (recorder_reliable.delegateType params ret).missesNone
  existingMethod _ _ _ _ _ := (recorder_reliable.existingMethod _ _ _ _ _).missesNone
  existingConstructor _ _ := (recorder_reliable.existingConstructor _ _).missesNone
  existingField _ _ _ _ := (recorder_reliable.existingField _ _ _ _).missesNone
  defineType _ _ _ _ := (recorder_reliable.defineType _ _ _ _).missesNone
  finalizeType _ := (recorder_reliable.finalizeType _).missesNone
  defineField _ _ := (recorder_reliable.defineField _ _).missesNone
  defineMethod _ _ := (recorder_reliable.defineMethod _ _).missesNone
  defineConstructor _ _ := (recorder_reliable.defineConstructor _ _).missesNone
  defineProperty _ _ := (recorder_reliable.defineProperty _ _).missesNone
  defineLabel := recorder_reliable.defineLabel.missesNone
  markLabel _ := (recorder_reliable.markLabel _).missesNone
  declareLocal _ := (recorder_reliable.declareLocal _).missesNone
  beginTry := by
    intro s key h
    cases h
  beginCatch _ := .modify _
  beginFinally := .modify _
  endTry := .modify _
  emit _ := (recorder_reliable.emit _).missesNone
  methodBody _ _ := (recorder_reliable.methodBody _ _).missesNone
  constructorBody _ _ := (recorder_reliable.constructorBody _ _).missesNone

namespace Machine

open Effect

theorem Program.refuse_missesNone (fault : BackendFault) : (Program.refuse (α := α) fault).MissesNone :=
  .fail (by simp)

theorem Draft.refuse_missesNone (fault : BackendFault) : (Draft.refuse (σ := σ) (α := α) fault).MissesNone :=
  .fail (by simp)

theorem Program.addMethod_missesNone (record : MethodRecord) : (Program.addMethod record).MissesNone := by
  refine .bind .get fun p => .bind (.set _) fun _ => ?_
  dsimp only
  cases record.owner with
  | defined owner => exact .bind (.modify _) fun _ => .pure _
  | _ => exact .pure _

theorem Program.nativeMethod_missesNone (record : MethodRecord) : (Program.nativeMethod record).MissesNone := by
  refine .bind .get fun p => ?_
  dsimp only
  split
  · exact .pure _
  · exact Program.addMethod_missesNone record

theorem Program.openType_missesNone (type : Ty) (action : String) : (Program.openType type action).MissesNone := by
  unfold Program.openType
  split
  · exact .bind .get fun p => .ite (Program.refuse_missesNone _) (.pure _)
  · exact Program.refuse_missesNone _

theorem Program.inheritedLayout_missesNone (p : Program) (id : TypeId) (key : ItemKey) :
    p.inheritedLayout id ≠ .error (.uninitialized key) := by
  unfold Program.inheritedLayout
  split
  · split <;> simp
  · simp

theorem Program.finalizeType_missesNone (type : Ty) : (Program.finalizeType type).MissesNone := by
  unfold Program.finalizeType
  split
  · refine .bind .get fun p => .bind (.lift (p.inheritedLayout_missesNone _)) fun inherited => ?_
    split
    · exact Program.refuse_missesNone _
    · exact .bind (.set _) fun _ => .bind (.modify _) fun _ => .pure _
  · exact Program.refuse_missesNone _

theorem Draft.placed_missesNone (key : ItemKey) : ∀ (labels : List (Option Nat)) (index : Nat),
    Draft.placed index labels ≠ .error (.uninitialized key)
  | [], _ | none :: _, _ => by simp [Draft.placed]
  | some pc :: rest, index => by
    intro h
    rcases except_bind_error.mp h with h | ⟨_, -, h⟩
    · exact Draft.placed_missesNone key rest (index + 1) h
    · cases h

theorem Draft.finish_missesNone (draft : Draft) (key : ItemKey) : draft.finish ≠ .error (.uninitialized key) := by
  unfold Draft.finish
  split
  · intro h
    rcases except_bind_error.mp h with h | ⟨_, -, h⟩
    · exact Draft.placed_missesNone key _ _ h
    · cases h
  · simp

theorem Program.setBody_missesNone (id : MethodId) (draft : Draft) : (Program.setBody id draft).MissesNone := by
  refine .bind (.lift draft.finish_missesNone) fun code => .bind .get fun p => ?_
  split
  · exact .set _
  · exact Program.refuse_missesNone _

theorem Draft.leaveBlock_missesNone : Draft.leaveBlock.MissesNone := by
  refine .bind .get fun d => ?_
  split
  · exact Draft.refuse_missesNone _
  · exact .set _

theorem Draft.beginHandler_missesNone (kind : HandlerKind) : (Draft.beginHandler kind).MissesNone :=
  Draft.leaveBlock_missesNone.bind fun _ => .modify _

end Machine

open Machine in
theorem machine_missesNone : machine.MissesNone where
  primitiveType _ := .pure _
  namedType name := by
    refine .bind .get fun p => ?_
    split <;> exact .pure _
  cellType _ := .pure _
  delegateType _ _ := .pure _
  existingMethod owner name params ret isInstance := by
    show (Program.existingMethod owner name params ret isInstance).MissesNone
    unfold Program.existingMethod
    split
    · refine .bind .get fun p => ?_
      split
      · exact .pure _
      · exact Program.refuse_missesNone _
    · exact Program.nativeMethod_missesNone _
  existingConstructor owner params := by
    show (Program.existingConstructor owner params).MissesNone
    unfold Program.existingConstructor
    split
    · refine .bind .get fun p => ?_
      split
      · exact .pure _
      · exact Program.refuse_missesNone _
    · exact Program.nativeMethod_missesNone _
  existingField owner name type isInstance := by
    show (Program.existingField owner name type isInstance).MissesNone
    unfold Program.existingField
    split
    · refine .bind .get fun p => ?_
      split
      · exact .pure _
      · exact Program.refuse_missesNone _
    · exact Program.refuse_missesNone _
  defineType name attributes base interfaces :=
    .bind .get fun p => .ite (Program.refuse_missesNone _) (.bind (.set _) fun _ => .pure _)
  finalizeType type := Program.finalizeType_missesNone type
  defineField owner signature :=
    (Program.openType_missesNone owner _).bind fun _ => .bind .get fun _ => .bind (.set _) fun _ =>
      .bind (.modify _) fun _ => .pure _
  defineMethod owner signature :=
    (Program.openType_missesNone owner _).bind fun _ => .bind .get fun _ => Program.addMethod_missesNone _
  defineConstructor owner signature :=
    (Program.openType_missesNone owner _).bind fun _ => Program.addMethod_missesNone _
  defineProperty owner signature :=
    (Program.openType_missesNone owner _).bind fun _ => .bind .get fun _ => .bind (.set _) fun _ =>
      .bind (.modify _) fun _ => .pure _
  defineLabel := .bind .get fun _ => .bind (.set _) fun _ => .pure _
  markLabel label := by
    refine .bind .get fun d => ?_
    split
    · exact .set _
    · exact Draft.refuse_missesNone _
    · exact Draft.refuse_missesNone _
  declareLocal _ := .bind .get fun _ => .bind (.set _) fun _ => .pure _
  beginTry := .bind (.bind .get fun _ => .bind (.set _) fun _ => .pure _) fun _ => .bind (.modify _) fun _ => .pure _
  beginCatch type := Draft.beginHandler_missesNone (.catching type)
  beginFinally := Draft.beginHandler_missesNone .finally
  endTry := by
    refine .bind .get fun d => ?_
    split
    · exact Draft.refuse_missesNone _
    · exact .ite (Draft.refuse_missesNone _) (Draft.leaveBlock_missesNone.bind fun _ => .modify _)
  emit op := by
    refine .bind .get fun d => ?_
    split
    · exact Draft.refuse_missesNone _
    · exact .set _
  methodBody method draft := Program.setBody_missesNone method draft
  constructorBody ctor draft := Program.setBody_missesNone ctor draft

/-! ## What following a reference reads -/

/-- Work that depends on the slots of some keys only, and that misses none when these are written. -/
structure Uses {T : Target} (K : ItemKey → Prop) {σ α : Type} (f : Slots T.toHandles → Effect σ α) : Prop where
  congr : ∀ slots slots', (∀ key, K key → slots.read key = slots'.read key) → f slots = f slots'
  missesNone : T.MissesNone → ∀ slots, (∀ key, K key → slots.isWritten key) → (f slots).MissesNone

namespace Uses

variable {T : Target} {K : ItemKey → Prop} {σ τ α β : Type}

theorem const {x : Effect σ α} (hx : T.MissesNone → x.MissesNone) : Uses K fun _ : Slots T.toHandles => x :=
  ⟨fun _ _ _ => rfl, fun hT _ _ => hx hT⟩

theorem read (hkey : K key) :
    Uses K fun slots : Slots T.toHandles => (liftM (slots.read key) : Effect σ (T.At key)) where
  congr slots slots' h := by rw [h key hkey]
  missesNone _ slots h := by
    obtain ⟨v, hv⟩ := Slots.read_of_isWritten (h key hkey)
    exact (Effect.Succeeds.lift hv).missesNone

theorem bind {x : Slots T.toHandles → Effect σ α} {f : Slots T.toHandles → α → Effect σ β} (hx : Uses K x)
    (hf : ∀ a, Uses K fun slots => f slots a) : Uses K fun slots => x slots >>= f slots where
  congr slots slots' h := by
    rw [hx.congr slots slots' h, funext fun a => (hf a).congr slots slots' h]
  missesNone hT slots h := (hx.missesNone hT slots h).bind fun a => (hf a).missesNone hT slots h

theorem zoom {view : σ → τ} {put : τ → σ → σ} {x : Slots T.toHandles → Effect τ α} (hx : Uses K x) :
    Uses K fun slots => Effect.zoom view put (x slots) where
  congr slots slots' h := by rw [hx.congr slots slots' h]
  missesNone hT slots h := (hx.missesNone hT slots h).zoom

end Uses

section References

variable {T : Target} {K : ItemKey → Prop}

mutual
theorem TypeRef.uses : ∀ t : TypeRef, (∀ k ∈ t.mentions.map ItemKey.type, K k) → Uses (T := T) K fun slots =>
    t.resolve T slots
  | .deferred key, hK => .read (hK (.type key) (by simp [TypeRef.mentions]))
  | .primitive p, _ => .const fun hT => hT.primitiveType p
  | .named name, _ => .const fun hT => hT.namedType name
  | .cell content, hK => (content.uses hK).bind fun c => .const fun hT => hT.cellType c
  | .delegate params ret, hK => by
    simp only [TypeRef.mentions, List.map_append, List.forall_mem_append] at hK
    exact (TypeRef.usesAll params hK.1).bind fun params => (ret.uses hK.2).bind fun ret =>
      .const fun hT => hT.delegateType params ret

theorem TypeRef.usesAll : ∀ ts : List TypeRef, (∀ k ∈ (TypeRef.mentionsAll ts).map ItemKey.type, K k) →
    Uses (T := T) K fun slots => TypeRef.resolveAll T slots ts
  | [], _ => .const fun _ => .pure []
  | t :: ts, hK => by
    simp only [TypeRef.mentionsAll, List.map_append, List.forall_mem_append] at hK
    exact (t.uses hK.1).bind fun _ => (TypeRef.usesAll ts hK.2).bind fun _ => .const fun _ => .pure _
end

theorem MethodRef.uses {m : MethodRef} (hK : ∀ k ∈ m.keys, K k) : Uses (T := T) K fun slots => m.resolve T slots := by
  cases m with
  | deferred key => exact .read (hK (.method key) (KeySet.mem_insert.mpr (.inl rfl)))
  | existing m =>
    simp only [keys, addKeys, TypeRef.mem_addKeys, TypeRef.mem_addAllKeys] at hK
    exact (m.owner.uses fun k hk => hK k (.inr (.inr (.inl hk)))).bind fun _ =>
      (TypeRef.usesAll m.params fun k hk => hK k (.inr (.inl hk))).bind fun _ =>
      (m.returnType.uses fun k hk => hK k (.inl hk)).bind fun _ => .const fun hT => hT.existingMethod _ _ _ _ _

theorem ConstructorRef.uses {c : ConstructorRef} (hK : ∀ k ∈ c.keys, K k) :
    Uses (T := T) K fun slots => c.resolve T slots := by
  cases c with
  | deferred key => exact .read (hK (.constructor key) (KeySet.mem_insert.mpr (.inl rfl)))
  | existing c =>
    simp only [keys, addKeys, TypeRef.mem_addKeys, TypeRef.mem_addAllKeys] at hK
    exact (c.owner.uses fun k hk => hK k (.inr (.inl hk))).bind fun _ =>
      (TypeRef.usesAll c.params fun k hk => hK k (.inl hk)).bind fun _ => .const fun hT => hT.existingConstructor _ _

theorem FieldRef.uses {f : FieldRef} (hK : ∀ k ∈ f.keys, K k) : Uses (T := T) K fun slots => f.resolve T slots := by
  cases f with
  | deferred key => exact .read (hK (.field key) (KeySet.mem_insert.mpr (.inl rfl)))
  | existing f =>
    simp only [keys, addKeys, TypeRef.mem_addKeys] at hK
    exact (f.owner.uses fun k hk => hK k (.inr (.inl hk))).bind fun _ =>
      (f.fieldType.uses fun k hk => hK k (.inl hk)).bind fun _ => .const fun hT => hT.existingField _ _ _ _

end References

namespace Emission

open Effect

variable {T : Target} {K : ItemKey → Prop}

theorem label_missesNone (name : Symbol) : (label (T := T) name).MissesNone := by
  refine .bind .get fun e => ?_
  split
  · exact .pure _
  · exact .fail (by simp)

theorem localOf_missesNone (name : Symbol) : (localOf (T := T) name).MissesNone := by
  refine .bind .get fun e => ?_
  split
  · exact .pure _
  · exact .fail (by simp)

theorem labelsOf_missesNone : ∀ names : List Symbol, (labelsOf (T := T) names).MissesNone
  | [] => .pure []
  | name :: names => (label_missesNone name).bind fun _ => (labelsOf_missesNone names).bind fun _ => .pure _

theorem uses_ofProgram {x : Slots T.toHandles → Effect T.State α} (hx : Uses K x) :
    Uses K fun slots => ofProgram (x slots) :=
  hx.zoom

theorem uses_type {t : TypeRef} (hK : ∀ k ∈ t.mentions.map ItemKey.type, K k) :
    Uses (T := T) K fun slots => type slots t :=
  uses_ofProgram (t.uses hK)

theorem uses_instr {i : Instr} (hK : ∀ k ∈ i.addKeys ∅, K k) : Uses (T := T) K fun slots => instr slots i := by
  have hput (op : Op T.toHandles) : Uses (T := T) K fun _ => put op := .const fun hT => (hT.emit op).zoom
  have hdraft {α : Type} {x : Effect T.Draft α} (hx : T.MissesNone → x.MissesNone) :
      Uses (T := T) K fun _ => ofDraft x :=
    .const fun hT => (hx hT).zoom
  have htype {t : TypeRef} (hK : ∀ k ∈ t.addKeys ∅, K k) : Uses (T := T) K fun slots => type slots t :=
    uses_type fun k hk => hK k (t.mem_addKeys.mpr (.inl hk))
  cases i with
  | label name => exact Uses.bind (.const fun _ => label_missesNone name) fun l => hdraft fun hT => hT.markLabel l
  | beginTry name => exact (hdraft fun hT => hT.beginTry).bind fun l => .const fun _ => .modify _
  | beginCatch t => exact (htype hK).bind fun ty => hdraft fun hT => hT.beginCatch ty
  | beginFinally => exact hdraft fun hT => hT.beginFinally
  | endTry name => exact hdraft fun hT => hT.endTry
  | loadLocal name | storeLocal name => exact Uses.bind (.const fun _ => localOf_missesNone name) fun _ => hput _
  | branch kind name | leave name => exact Uses.bind (.const fun _ => label_missesNone name) fun _ => hput _
  | «switch» names => exact Uses.bind (.const fun _ => labelsOf_missesNone names) fun _ => hput _
  | loadField f | storeField f | loadStatic f | storeStatic f => exact (uses_ofProgram (f.uses hK)).bind fun _ => hput _
  | newObject c | callConstructor c => exact (uses_ofProgram (c.uses hK)).bind fun _ => hput _
  | call m tail | callVirtual m tail => exact (uses_ofProgram (m.uses hK)).bind fun _ => hput _
  | typeOp kind t | invokeDelegate t tail => exact (htype hK).bind fun _ => hput _
  | newDelegate t m =>
    simp only [Instr.addKeys, MethodRef.mem_addKeys] at hK
    exact (htype fun k hk => hK k (.inr hk)).bind fun _ =>
      (uses_ofProgram (m.uses fun k hk => hK k (.inl hk))).bind fun _ => hput _
  | _ => exact hput _

theorem uses_instrs : ∀ {code : List Instr}, (∀ i ∈ code, ∀ k ∈ i.addKeys ∅, K k) → Uses (T := T) K fun slots =>
    instrs slots code
  | [], _ => .const fun _ => .pure ()
  | i :: code, hK => by
    rw [List.forall_mem_cons] at hK
    exact (uses_instr hK.1).bind fun _ => uses_instrs hK.2

theorem uses_declareLocals : ∀ {ls : List LocalDecl}, (∀ l ∈ ls, ∀ k ∈ l.type.mentions.map ItemKey.type, K k) →
    Uses (T := T) K fun slots => declareLocals slots ls
  | [], _ => .const fun _ => .pure ()
  | l :: ls, hK => by
    rw [List.forall_mem_cons] at hK
    exact (uses_type hK.1).bind fun ty => Uses.bind (.const fun hT => (hT.declareLocal ty).zoom) fun _ =>
      Uses.bind (.const fun _ => .modify _) fun _ => uses_declareLocals hK.2

theorem defineLabels_missesNone (hT : T.MissesNone) : ∀ code : List Instr, (defineLabels (T := T) code).MissesNone
  | [] => .pure ()
  | i :: code => by
    have hrest := defineLabels_missesNone hT code
    cases i with
    | label name => exact hT.defineLabel.zoom.bind fun _ => .bind (.modify _) fun _ => hrest
    | _ => exact hrest

end Emission

theorem Block.validate_missesNone (b : Block) (key : ItemKey) : b.validate ≠ .error (.uninitialized key) := by
  intro h
  rcases except_bind_error.mp h with h | ⟨_, -, h⟩
  · unfold checkLabels at h
    split at h
    · cases h
    · split at h <;> cases h
  · unfold checkLocals at h
    dsimp only at h
    split at h
    · cases h
    · split at h <;> cases h

/-- Writing a block reads the slots of the keys that it mentions. -/
theorem Emission.uses_block {T : Target} {K : ItemKey → Prop} (hK : ∀ k ∈ b.keys, K k) :
    Uses (T := T) K fun slots => block slots b := by
  simp only [Block.mem_keys] at hK
  have hlocals : Uses (T := T) K fun slots => declareLocals slots b.locals :=
    uses_declareLocals fun l hl k hk => hK k (.inr ⟨l, hl, hk⟩)
  have hcode : Uses (T := T) K fun slots => instrs slots b.code :=
    uses_instrs fun i hi k hk => hK k (.inl ⟨i, hi, hk⟩)
  exact Uses.bind (.const fun _ => .lift b.validate_missesNone) fun _ => hlocals.bind fun _ =>
    Uses.bind (.const fun hT => defineLabels_missesNone hT b.code) fun _ => hcode

/-! ## Work on a workspace that only reads the slots -/

namespace Workspace

open Effect

variable {T : Target} {K : ItemKey → Prop} {α β : Type}

/-- Work that misses no slot when those of some keys are written. -/
def Finds (K : ItemKey → Prop) (x : Effect (Workspace T) α) : Prop :=
  T.MissesNone → ∀ w, (∀ key, K key → w.slots.isWritten key) → ∀ key, (x.exec w).1 ≠ .error (.uninitialized key)

/-- Work that leaves the slots alone and reads the slots of some keys only. -/
structure Confined (K : ItemKey → Prop) (x : Effect (Workspace T) α) : Prop where
  alike : ∀ program slots slots', (∀ key, K key → slots.read key = slots'.read key) → ∃ r program',
    x.exec { program, slots } = (r, { program := program', slots }) ∧
      x.exec { program, slots := slots' } = (r, { program := program', slots := slots' })
  finds : Finds K x

namespace Confined

theorem pure (a : α) : Confined (T := T) K (pure a) where
  alike program _ _ _ := ⟨.ok a, program, rfl, rfl⟩
  finds _ w _ := MissesNone.pure a w

theorem finds_bind {x : Effect (Workspace T) α} {f : α → Effect (Workspace T) β} (hx : Confined K x)
    (hf : ∀ a, Finds K (f a)) : Finds K (x >>= f) := by
  intro hT w hw key
  obtain ⟨r, program', hexec, -⟩ := hx.alike w.program w.slots w.slots fun _ _ => rfl
  have hfirst := hx.finds hT w hw key
  rw [exec_bind, hexec]
  rw [hexec] at hfirst
  cases r with
  | ok a => exact hf a hT { program := program', slots := w.slots } hw key
  | error e => simpa using hfirst

theorem bind {x : Effect (Workspace T) α} {f : α → Effect (Workspace T) β} (hx : Confined K x)
    (hf : ∀ a, Confined K (f a)) : Confined K (x >>= f) where
  alike program slots slots' h := by
    obtain ⟨r, program₁, hexec, hexec'⟩ := hx.alike program slots slots' h
    rw [exec_bind, exec_bind, hexec, hexec']
    cases r with
    | ok a => exact (hf a).alike program₁ slots slots' h
    | error e => exact ⟨.error e, program₁, rfl, rfl⟩
  finds := hx.finds_bind fun a => (hf a).finds

theorem following {x : Slots T.toHandles → Effect T.State α} (hx : Uses K x) :
    Confined K (TypeDefinition.following T x) where
  alike program slots slots' h := by
    refine ⟨((x slots).exec program).1, ((x slots).exec program).2, rfl, ?_⟩
    rw [hx.congr slots slots' h]
    rfl
  finds hT w hw := hx.missesNone hT w.slots hw w.program

theorem ofProgram {x : Effect T.State α} (hx : T.MissesNone → x.MissesNone) : Confined K (ofProgram x) :=
  following (.const hx)

theorem read (hkey : K key) : Confined K (read (T := T) key) where
  alike program slots slots' h := by
    refine ⟨slots.read key, program, rfl, ?_⟩
    rw [h key hkey]
    rfl
  finds _ w hw := by
    obtain ⟨v, hv⟩ := Slots.read_of_isWritten (hw key hkey)
    intro k h
    have : (Workspace.read (T := T) key).exec w = (.ok v, w) := by simp [Workspace.read, exec_bind, hv]
    rw [this] at h
    cases h

end Confined

/-- Confined work that ends by writing the key. -/
structure Fills (K : ItemKey → Prop) (key : ItemKey) (x : Effect (Workspace T) Unit) : Prop where
  alike : ∀ program slots slots', (∀ k, K k → slots.read k = slots'.read k) →
    (∃ e program', x.exec { program, slots } = (.error e, { program := program', slots }) ∧
      x.exec { program, slots := slots' } = (.error e, { program := program', slots := slots' })) ∨
    ∃ v program', x.exec { program, slots } = (write key v).exec { program := program', slots } ∧
      x.exec { program, slots := slots' } = (write key v).exec { program := program', slots := slots' }
  finds : Finds K x

namespace Fills

variable {key : ItemKey}

theorem bind {x : Effect (Workspace T) α} {f : α → Effect (Workspace T) Unit} (hx : Confined K x)
    (hf : ∀ a, Fills K key (f a)) : Fills K key (x >>= f) where
  alike program slots slots' h := by
    obtain ⟨r, program₁, hexec, hexec'⟩ := hx.alike program slots slots' h
    rw [exec_bind, exec_bind, hexec, hexec']
    cases r with
    | ok a => exact (hf a).alike program₁ slots slots' h
    | error e => exact .inl ⟨e, program₁, rfl, rfl⟩
  finds := hx.finds_bind fun a => (hf a).finds

theorem write (v : T.At key) : Fills K key (write key v) where
  alike program _ _ _ := .inr ⟨v, program, rfl, rfl⟩
  finds _ w _ := by
    refine MissesNone.bind .get (fun w => .bind (.lift fun k => ?_) fun _ => .set _) w
    unfold Slots.write
    split
    · simp
    · rename_i slot _
      unfold Slot.write
      cases slot.content <;> simp [Bind.bind, Except.bind]

end Fills

end Workspace

/-! ## Steps -/

/-- A step that works from its inputs only, and writes its outputs only. -/
structure Step.KeepsContract {T : Target} (step : Step T) : Prop where
  /-- Two tables that agree on the inputs and whose outputs are to be written give the same result
  and the same program. When the step succeeds, both have the same new outputs and are otherwise
  as they were. -/
  alike : ∀ program slots slots', (∀ key ∈ step.inputs, slots.read key = slots'.read key) →
    (∀ key ∈ step.outputs, slots.state? key = some false ∧ slots'.state? key = some false) →
    ∃ r program' after after', step.action.exec { program, slots } = (r, { program := program', slots := after }) ∧
      step.action.exec { program, slots := slots' } = (r, { program := program', slots := after' }) ∧
      (r = .ok () →
        (∀ key ∈ step.outputs, after.isWritten key ∧ after'.isWritten key ∧ after.read key = after'.read key) ∧
        ∀ key, key ∉ step.outputs → after.get? key = slots.get? key ∧ after'.get? key = slots'.get? key)
  /-- A step whose inputs are written misses none. -/
  finds : T.MissesNone → ∀ w, (∀ key ∈ step.inputs, w.slots.isWritten key) →
    ∀ key, (step.action.exec w).1 ≠ .error (.uninitialized key)

/-- Writing an empty slot changes that slot only. -/
theorem Slots.write_unwritten {H : Handles} {s : Slots H} (h : s.state? key = some false) (v : H.At key) :
    ∃ s', s.write key v = .ok s' ∧ s'.isWritten key ∧ s'.read key = .ok v ∧ ∀ k, k ≠ key → s'.get? k = s.get? k := by
  obtain ⟨slot, hslot, hempty⟩ := Option.map_eq_some_iff.mp h
  obtain ⟨name, content⟩ := slot
  cases content with
  | some v => cases hempty
  | none =>
    refine ⟨s.insert key { key := name, content := some v }, ?_, ?_, ?_, fun k hk => ?_⟩
    · unfold write
      rw [hslot]
      rfl
    · simp [isWritten, Slot.isWritten]
    · simp [read, Slot.read]
    · rw [Std.DTreeMap.get?_insert, dif_neg]
      exact fun hcompare => hk (Std.LawfulEqCmp.eq_of_compare hcompare).symm

namespace Step

open Effect Workspace

variable {T : Target} {step : Step T}

theorem keepsContract_of_fills (houtputs : step.outputs = .single key) (h : Fills (· ∈ step.inputs) key step.action)
    : step.KeepsContract where
  finds := h.finds
  alike program slots slots' hinputs hempty := by
    simp only [houtputs, KeySet.mem_single, forall_eq] at hempty ⊢
    rcases h.alike program slots slots' hinputs with ⟨e, program', hexec, hexec'⟩ | ⟨v, program', hexec, hexec'⟩
    · exact ⟨.error e, program', slots, slots', hexec, hexec', fun hok => by cases hok⟩
    · obtain ⟨after, hwrite, hwritten, hread, hsame⟩ := Slots.write_unwritten hempty.1 v
      obtain ⟨after', hwrite', hwritten', hread', hsame'⟩ := Slots.write_unwritten hempty.2 v
      refine ⟨.ok (), program', after, after', ?_, ?_, fun _ => ?_⟩
      · rw [hexec]
        simp [Workspace.write, exec_bind, hwrite]
      · rw [hexec']
        simp [Workspace.write, exec_bind, hwrite']
      · exact ⟨⟨hwritten, hwritten', hread.trans hread'.symm⟩, fun k hk => ⟨hsame k hk, hsame' k hk⟩⟩

theorem keepsContract_of_confined (houtputs : step.outputs = ∅) (h : Confined (· ∈ step.inputs) step.action) :
    step.KeepsContract where
  finds := h.finds
  alike program slots slots' hinputs _ := by
    obtain ⟨r, program', hexec, hexec'⟩ := h.alike program slots slots' hinputs
    refine ⟨r, program', slots, slots', hexec, hexec', fun _ => ⟨?_, fun _ _ => ⟨rfl, rfl⟩⟩⟩
    simp [houtputs]

end Step

namespace TypeDefinition

open Step Workspace

variable {T : Target} {d : TypeDefinition} {h : Hierarchy} {options : BuildOptions} {s t : Supply} {K : ItemKey → Prop}

theorem confined_resolve {t : TypeRef} (hK : ∀ k ∈ t.mentions.map ItemKey.type, K k) : Confined K (resolve T t) :=
  .following (t.uses hK)

theorem confined_resolveAll {ts : List TypeRef} (hK : ∀ k ∈ (TypeRef.mentionsAll ts).map ItemKey.type, K k) :
    Confined K (resolveAll T ts) :=
  .following (TypeRef.usesAll ts hK)

theorem confined_resolveMethod? {m : Option MethodRef} (hK : ∀ r ∈ m, ∀ k ∈ r.keys, K k) :
    Confined K (resolveMethod? T m) := by
  cases m with
  | none => exact .pure none
  | some r => exact (Confined.following (r.uses (hK r rfl))).bind fun _ => .pure _

theorem typeStep_keepsContract : (d.typeStep T).KeepsContract := by
  refine keepsContract_of_fills rfl ?_
  have hkeys : ∀ k ∈ d.supertypeKeys, k ∈ (d.typeStep T).inputs := fun _ hk => hk
  simp only [supertypeKeys, TypeRef.mem_addAllKeys, mentionsAll_append, List.map_append, List.mem_append] at hkeys
  have hinterfaces : Confined (· ∈ (d.typeStep T).inputs) (resolveAll T d.interfaces) :=
    confined_resolveAll fun k hk => hkeys k (.inl (.inr hk))
  have hdefine (base : Option T.Ty) (interfaces : List T.Ty) : Confined (· ∈ (d.typeStep T).inputs)
      (ofProgram (T.defineType d.key.name d.attributes base interfaces)) :=
    .ofProgram fun hT => hT.defineType _ _ _ _
  simp only [typeStep]
  cases hb : d.base with
  | none => exact .bind (.pure none) fun base => .bind hinterfaces fun _ => .bind (hdefine base _) fun _ => .write _
  | some base =>
    have hresolve : Confined (· ∈ (d.typeStep T).inputs) (resolve T base) := confined_resolve fun k hk =>
      hkeys k (.inl (.inl (by simpa [hb, TypeRef.mentionsAll] using hk)))
    exact .bind (hresolve.bind fun _ => .pure _) fun base => .bind hinterfaces fun _ => .bind (hdefine base _) fun _ =>
      .write _

/-- Members start by asking for their owner. -/
theorem memberStep_keepsContract {step : Step T} (houtputs : step.outputs = .single key)
    (hinputs : .type d.key ∈ step.inputs)
    {rest : T.Ty → Effect (Workspace T) Unit} (haction : step.action = ownerType T d >>= rest)
    (h : ∀ owner, Fills (· ∈ step.inputs) key (rest owner)) :
    step.KeepsContract := by
  refine keepsContract_of_fills houtputs ?_
  rw [haction]
  exact .bind (.read hinputs) h

theorem fieldStep_keepsContract {f : FieldDefinition} : (d.fieldStep T f).KeepsContract := by
  refine memberStep_keepsContract rfl (mem_memberInputs.mpr (.inr rfl)) rfl fun owner => ?_
  have htype : Confined (· ∈ (d.fieldStep T f).inputs) (resolve T f.fieldType) := confined_resolve fun k hk =>
    mem_memberInputs.mpr (.inl (by simpa [TypeRef.mentionsAll] using hk))
  exact .bind htype fun _ => .bind (.ofProgram fun hT => hT.defineField _ _) fun _ => .write _

theorem methodStep_keepsContract {key : MethodKey} {m : MethodDefinition} : (d.methodStep T key m).KeepsContract := by
  refine memberStep_keepsContract rfl (mem_memberInputs.mpr (.inr rfl)) rfl fun owner => ?_
  have hkeys : ∀ k ∈ d.memberInputs (key.params ++ [m.returnType]), k ∈ (d.methodStep T key m).inputs := fun _ hk => hk
  simp only [mem_memberInputs, mentionsAll_append, List.map_append, List.mem_append] at hkeys
  have hparams : Confined (· ∈ (d.methodStep T key m).inputs) (resolveAll T key.params) :=
    confined_resolveAll fun k hk => hkeys k (.inl (.inl hk))
  have hret : Confined (· ∈ (d.methodStep T key m).inputs) (resolve T m.returnType) := confined_resolve fun k hk =>
    hkeys k (.inl (.inr (by simpa [TypeRef.mentionsAll] using hk)))
  exact .bind hparams fun _ => .bind hret fun _ => .bind (.ofProgram fun hT => hT.defineMethod _ _) fun _ => .write _

theorem constructorStep_keepsContract {key : ConstructorKey} {c : ConstructorDefinition} :
    (d.constructorStep T key c).KeepsContract := by
  refine memberStep_keepsContract rfl (mem_memberInputs.mpr (.inr rfl)) rfl fun owner => ?_
  have hparams : Confined (· ∈ (d.constructorStep T key c).inputs) (resolveAll T key.params) :=
    confined_resolveAll fun k hk => mem_memberInputs.mpr (.inl hk)
  exact .bind hparams fun _ => .bind (.ofProgram fun hT => hT.defineConstructor _ _) fun _ => .write _

theorem propertyStep_keepsContract {p : PropertyDefinition} : (d.propertyStep T p).KeepsContract := by
  have hkeys : ∀ k, _ → k ∈ (d.propertyStep T p).inputs := fun _ hk => mem_propertyInputs.mpr hk
  simp only [mem_memberInputs] at hkeys
  refine memberStep_keepsContract rfl (hkeys _ (.inr (.inr rfl))) rfl fun owner => ?_
  have htype : Confined (· ∈ (d.propertyStep T p).inputs) (resolve T p.propertyType) := confined_resolve fun k hk =>
    hkeys k (.inr (.inl (by simpa [TypeRef.mentionsAll] using hk)))
  have hgetter : Confined (· ∈ (d.propertyStep T p).inputs) (resolveMethod? T p.getter) :=
      confined_resolveMethod? fun m hm k hk =>
    hkeys k (.inl ⟨m, List.mem_append_left _ (Option.mem_toList.mpr hm), hk⟩)
  have hsetter : Confined (· ∈ (d.propertyStep T p).inputs) (resolveMethod? T p.setter) :=
      confined_resolveMethod? fun m hm k hk =>
    hkeys k (.inl ⟨m, List.mem_append_right _ (Option.mem_toList.mpr hm), hk⟩)
  exact .bind htype fun _ => .bind hgetter fun _ => .bind hsetter fun _ =>
    .bind (.ofProgram fun hT => hT.defineProperty _ _) fun _ => .write _

theorem finalizeStep_keepsContract : (d.finalizeStep T).KeepsContract :=
  memberStep_keepsContract rfl type_mem_finalizeInputs rfl fun _ =>
    .bind (.ofProgram fun hT => hT.finalizeType _) fun _ => .write _

theorem confined_writeBody (hK : ∀ k ∈ b.keys, K k) {accept : T.Draft → Effect T.State Unit}
    (haccept : T.MissesNone → ∀ draft, (accept draft).MissesNone) : Confined K (writeBody T b accept) := by
  have hblock := Emission.uses_block (T := T) hK
  refine Confined.following (x := fun slots => do
    let written := (Emission.block slots b).exec { program := (← get), draft := T.emptyDraft }
    set written.2.program
    written.1
    accept written.2.draft) ⟨fun slots slots' h => ?_, fun hT slots h => ?_⟩
  · rw [hblock.congr slots slots' h]
  · refine .bind .get fun p => .bind (.set _) fun _ => .bind (.lift fun key => ?_) fun _ => haccept hT _
    exact hblock.missesNone hT slots h _ key

theorem methodBodyStep_keepsContract {key : MethodKey} : (methodBodyStep T key b).KeepsContract :=
  keepsContract_of_confined rfl (.bind (.read (KeySet.mem_insert.mpr (.inl rfl))) fun method =>
    confined_writeBody (fun _ hk => KeySet.mem_insert.mpr (.inr hk)) fun hT => hT.methodBody method)

theorem constructorBodyStep_keepsContract {key : ConstructorKey} : (constructorBodyStep T key b).KeepsContract :=
  keepsContract_of_confined rfl (.bind (.read (KeySet.mem_insert.mpr (.inl rfl))) fun ctor =>
    confined_writeBody (fun _ hk => KeySet.mem_insert.mpr (.inr hk)) fun hT => hT.constructorBody ctor)

theorem MemberSteps.keepContract {m : Member} {defined bodies : List (Step T)}
    (hs : MemberSteps T d h options m s defined bodies t) : ∀ step ∈ defined ++ bodies, step.KeepsContract := by
  cases hs with
  | field => simpa using fieldStep_keepsContract
  | property => simpa using propertyStep_keepsContract
  | abstract => simpa using methodStep_keepsContract
  | code | expr => simpa using ⟨methodStep_keepsContract, methodBodyStep_keepsContract⟩
  | constructorCode | constructorExpr => simpa using ⟨constructorStep_keepsContract, constructorBodyStep_keepsContract⟩

theorem MembersSteps.keepContract {ms : List Member} {defined bodies : List (Step T)}
    (hs : MembersSteps T d h options ms s defined bodies t) : ∀ step ∈ defined ++ bodies, step.KeepsContract := by
  induction hs with
  | nil => simp
  | cons hfirst _ ih =>
    have hown := hfirst.keepContract
    simp only [List.forall_mem_append] at hown ih ⊢
    exact ⟨⟨hown.1, ih.1⟩, hown.2, ih.2⟩

/-- Every step of a definition keeps its contract. -/
theorem keepsContract_of_mem_steps {steps : List (Step T)} (hs : (d.steps T h options).exec s = (.ok steps, t)) :
    ∀ step ∈ steps, step.KeepsContract := by
  obtain ⟨defined, bodies, hmembers, rfl⟩ := of_steps hs
  have hkeep := hmembers.keepContract
  simp only [List.cons_append, List.forall_mem_cons, List.forall_mem_append] at hkeep ⊢
  exact ⟨typeStep_keepsContract, hkeep, finalizeStep_keepsContract, by simp⟩

/-- On any target, the steps of a definition depend on the slots of their inputs only and write
those of their outputs only. Unless the target itself blames an empty slot, which neither the
recorder nor the machine does, a step whose inputs are written misses none. -/
theorem steps_keep_contract (T : Target) (d : TypeDefinition) (h : Hierarchy) (options : BuildOptions) (s : Supply)
    {steps : List (Step T)} {t : Supply} (hs : (d.steps T h options).exec s = (.ok steps, t)) :
    (∀ step ∈ steps, step.KeepsContract) ∧ recorder.MissesNone ∧ machine.MissesNone :=
  ⟨keepsContract_of_mem_steps hs, recorder_missesNone, machine_missesNone⟩

/-- A class with a field of its own type. -/
def counter : TypeDefinition where
  key := ⟨"Counter"⟩
  members := [
    .field { name := "next", attributes := { isPrivate := true }, fieldType := .deferred ⟨"Counter"⟩ },
    .method {
      name := "twice", attributes := { isPublic := true, isStatic := true }, returnType := .i32
      body := .expr { params := [⟨.named "x", .i32⟩], body := .binary .add (.var (.named "x")) (.var (.named "x")) } }]

theorem counter_steps_keep_contract : ∃ steps t,
    (counter.steps recorder { table := ∅, catalog := ∅ } {}).exec {} = (.ok steps, t) ∧
      steps.map (·.description) = ["define type Counter", "define field Counter::next",
        "define method static Counter::twice(i32)",
        "emit body of static Counter::twice(i32)", "finalize type Counter"] ∧
      ∀ step ∈ steps, step.KeepsContract := by
  have htexts : ((counter.steps recorder { table := ∅, catalog := ∅ } {}).exec {}).1.toOption.map
      (fun steps => steps.map (·.description)) = some ["define type Counter", "define field Counter::next",
        "define method static Counter::twice(i32)", "emit body of static Counter::twice(i32)",
          "finalize type Counter"] := by
    decide +kernel
  rcases hs : (counter.steps recorder { table := ∅, catalog := ∅ } {}).exec {} with ⟨r, t⟩
  rw [hs] at htexts
  cases r with
  | error e => cases htexts
  | ok steps => exact ⟨steps, t, rfl, Option.some.inj htexts, (steps_keep_contract _ _ _ _ _ hs).1⟩

end TypeDefinition

end Stackwright
