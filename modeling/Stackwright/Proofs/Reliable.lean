import Stackwright.Proofs.Names
import Stackwright.Target.Emission
import Stackwright.Target.Recorder

/-
  Stackwright.Proofs.Reliable — targets that refuse nothing.

  A target is reliable for the names that pass a test when it answers for every class of such a
  name and carries out everything else that it is asked to do. On such a target every reference
  whose keys have been written can be followed, and every block that stands on its own can be
  written down.

  - `recorder_reliable`: the recorder refuses the empty name only.
-/

namespace Stackwright

variable {x : Symbol}

/-- Everything that building asks of a target succeeds, with classes as far as `P` goes. -/
structure Target.Reliable (T : Target) (P : String → Prop) : Prop extends T.ResolvesTypes P where
  existingMethod : ∀ owner name params ret isInstance, (T.existingMethod owner name params ret isInstance).Succeeds
  existingConstructor : ∀ owner params, (T.existingConstructor owner params).Succeeds
  existingField : ∀ owner name type isInstance, (T.existingField owner name type isInstance).Succeeds
  defineType : ∀ name attributes base interfaces, (T.defineType name attributes base interfaces).Succeeds
  finalizeType : ∀ type, (T.finalizeType type).Succeeds
  defineField : ∀ owner signature, (T.defineField owner signature).Succeeds
  defineMethod : ∀ owner signature, (T.defineMethod owner signature).Succeeds
  defineConstructor : ∀ owner signature, (T.defineConstructor owner signature).Succeeds
  defineProperty : ∀ owner signature, (T.defineProperty owner signature).Succeeds
  defineLabel : T.defineLabel.Succeeds
  markLabel : ∀ label, (T.markLabel label).Succeeds
  declareLocal : ∀ type, (T.declareLocal type).Succeeds
  emit : ∀ op, (T.emit op).Succeeds
  methodBody : ∀ method draft, (T.methodBody method draft).Succeeds
  constructorBody : ∀ ctor draft, (T.constructorBody ctor draft).Succeeds

theorem recorder_reliable : recorder.Reliable (· ≠ "") where
  primitiveType _ _ := ⟨_, _, rfl⟩
  namedType name hname s := by
    refine ⟨name, s, ?_⟩
    show (Recorder.namedType name).exec s = _
    rw [Recorder.namedType, if_neg (by simpa using hname)]
    rfl
  cellType _ _ := ⟨_, _, rfl⟩
  delegateType _ _ _ := ⟨_, _, rfl⟩
  existingMethod _ _ _ _ _ _ := ⟨_, _, rfl⟩
  existingConstructor _ _ _ := ⟨_, _, rfl⟩
  existingField _ _ _ _ _ := ⟨_, _, rfl⟩
  defineType _ _ _ _ _ := ⟨_, _, rfl⟩
  finalizeType _ _ := ⟨_, _, rfl⟩
  defineField _ _ _ := ⟨_, _, rfl⟩
  defineMethod _ _ _ := ⟨_, _, rfl⟩
  defineConstructor _ _ _ := ⟨_, _, rfl⟩
  defineProperty _ _ _ := ⟨_, _, rfl⟩
  defineLabel _ := ⟨_, _, rfl⟩
  markLabel _ _ := ⟨_, _, rfl⟩
  declareLocal _ _ := ⟨_, _, rfl⟩
  emit _ _ := ⟨_, _, rfl⟩
  methodBody _ _ _ := ⟨_, _, rfl⟩
  constructorBody _ _ _ := ⟨_, _, rfl⟩

/-! ## References -/

section

variable {T : Target} {P : String → Prop} {slots : Slots T.toHandles}

namespace Target.Reliable

theorem type (hT : T.Reliable P) {t : TypeRef} (ht : t.Names P)
    (hkeys : ∀ k ∈ t.mentions.map ItemKey.type, slots.isWritten k) : (t.resolve T slots).Succeeds :=
  t.resolve_succeeds hT.toResolvesTypes ht fun _ hk => hkeys _ (List.mem_map_of_mem hk)

theorem types (hT : T.Reliable P) {ts : List TypeRef} (hts : TypeRef.NamesAll P ts)
    (hkeys : ∀ k ∈ (TypeRef.mentionsAll ts).map ItemKey.type, slots.isWritten k) :
    (TypeRef.resolveAll T slots ts).Succeeds :=
  TypeRef.resolveAll_succeeds hT.toResolvesTypes ts hts fun _ hk => hkeys _ (List.mem_map_of_mem hk)

end Target.Reliable

theorem MethodRef.resolve_succeeds (hT : T.Reliable P) {m : MethodRef} (hm : m.Names P)
    (hkeys : ∀ k ∈ m.keys, slots.isWritten k) : (m.resolve T slots).Succeeds := by
  cases m with
  | deferred key =>
    obtain ⟨v, hv⟩ := Slots.read_of_isWritten (hkeys (.method key) (KeySet.mem_insert.mpr (.inl rfl)))
    exact .lift hv
  | existing m =>
    simp only [keys, addKeys, TypeRef.mem_addKeys, TypeRef.mem_addAllKeys] at hkeys
    exact (hT.type hm.1 fun k hk => hkeys k (.inr (.inr (.inl hk)))).bind fun _ =>
      (hT.types hm.2.1 fun k hk => hkeys k (.inr (.inl hk))).bind fun _ =>
      (hT.type hm.2.2 fun k hk => hkeys k (.inl hk)).bind fun _ => hT.existingMethod _ _ _ _ _

theorem ConstructorRef.resolve_succeeds (hT : T.Reliable P) {c : ConstructorRef} (hc : c.Names P)
    (hkeys : ∀ k ∈ c.keys, slots.isWritten k) : (c.resolve T slots).Succeeds := by
  cases c with
  | deferred key =>
    obtain ⟨v, hv⟩ := Slots.read_of_isWritten (hkeys (.constructor key) (KeySet.mem_insert.mpr (.inl rfl)))
    exact .lift hv
  | existing c =>
    simp only [keys, addKeys, TypeRef.mem_addKeys, TypeRef.mem_addAllKeys] at hkeys
    exact (hT.type hc.1 fun k hk => hkeys k (.inr (.inl hk))).bind fun _ =>
      (hT.types hc.2 fun k hk => hkeys k (.inl hk)).bind fun _ => hT.existingConstructor _ _

theorem FieldRef.resolve_succeeds (hT : T.Reliable P) {f : FieldRef} (hf : f.Names P)
    (hkeys : ∀ k ∈ f.keys, slots.isWritten k) : (f.resolve T slots).Succeeds := by
  cases f with
  | deferred key =>
    obtain ⟨v, hv⟩ := Slots.read_of_isWritten (hkeys (.field key) (KeySet.mem_insert.mpr (.inl rfl)))
    exact .lift hv
  | existing f =>
    simp only [keys, addKeys, TypeRef.mem_addKeys] at hkeys
    exact (hT.type hf.1 fun k hk => hkeys k (.inr (.inl hk))).bind fun _ =>
      (hT.type hf.2 fun k hk => hkeys k (.inl hk)).bind fun _ => hT.existingField _ _ _ _

end

/-! ## Work that keeps something -/

namespace Effect

variable {σ τ α β : Type} {I : σ → Prop}

/-- Work that succeeds where `I` holds, and keeps it. -/
def Passes (I : σ → Prop) (x : Effect σ α) : Prop := ∀ s, I s → ∃ a t, x.exec s = (.ok a, t) ∧ I t

namespace Passes

theorem pure (a : α) : Passes I (pure a : Effect σ α) := fun s hs => ⟨a, s, rfl, hs⟩

theorem bind {x : Effect σ α} {f : α → Effect σ β} (hx : Passes I x) (hf : ∀ a, Passes I (f a)) :
    Passes I (x >>= f) := by
  intro s hs
  obtain ⟨a, t, ha, ht⟩ := hx s hs
  obtain ⟨b, u, hb, hu⟩ := hf a t ht
  exact ⟨b, u, exec_bind_ok.mpr ⟨a, t, ha, hb⟩, hu⟩

theorem zoom {view : σ → τ} {put : τ → σ → σ} {x : Effect τ α} (hx : x.Succeeds) (hput : ∀ s t, I s → I (put t s)) :
    Passes I (zoom view put x) := by
  intro s hs
  obtain ⟨a, t, ha⟩ := hx (view s)
  exact ⟨a, put t s, by rw [exec_zoom, ha], hput s t hs⟩

end Passes

end Effect

/-! ## Writing a block -/

namespace Emission

open Effect

variable {T : Target} {P : String → Prop} {slots : Slots T.toHandles}

theorem isSome_find?_cons {α : Type} (entries : List (Symbol × α)) (name : Symbol) (v : α) (x : Symbol) :
    (find? ((name, v) :: entries) x).isSome = (name == x || (find? entries x).isSome) := by
  unfold find?
  cases h : name == x <;> simp [h]

/-- The labels and locals that are known stay the same. -/
def Knows (labels : List (Symbol × T.Label)) (locals : List (Symbol × T.Local)) (e : Emission T) : Prop :=
  e.labels = labels ∧ e.locals = locals

variable {labels : List (Symbol × T.Label)} {locals : List (Symbol × T.Local)}

theorem passes_ofProgram {α : Type} {x : Effect T.State α} (hx : x.Succeeds) :
    Passes (Knows labels locals) (ofProgram x) :=
  .zoom hx fun _ _ h => h

theorem passes_ofDraft {α : Type} {x : Effect T.Draft α} (hx : x.Succeeds) : Passes (Knows labels locals) (ofDraft x) :=
  .zoom hx fun _ _ h => h

theorem passes_label (hx : (find? labels x).isSome) : Passes (Knows labels locals) (label (T := T) x) := by
  rintro e ⟨rfl, rfl⟩
  obtain ⟨l, hl⟩ := Option.isSome_iff_exists.mp hx
  exact ⟨l, e, by simp [label, exec_bind, hl], rfl, rfl⟩

theorem passes_localOf (hx : (find? locals x).isSome) : Passes (Knows labels locals) (localOf (T := T) x) := by
  rintro e ⟨rfl, rfl⟩
  obtain ⟨l, hl⟩ := Option.isSome_iff_exists.mp hx
  exact ⟨l, e, by simp [localOf, exec_bind, hl], rfl, rfl⟩

theorem passes_labelsOf : ∀ {xs : List Symbol}, (∀ x ∈ xs, (find? labels x).isSome) →
    Passes (Knows labels locals) (labelsOf (T := T) xs)
  | [], _ => .pure _
  | x :: xs, h => by
    obtain ⟨hx, hxs⟩ := List.forall_mem_cons.mp h
    exact (passes_label hx).bind fun _ => (passes_labelsOf hxs).bind fun _ => .pure _

theorem passes_instr (hT : T.Reliable P) {i : Instr} (hflat : i.isFlat) (hi : i.Names P)
    (hkeys : ∀ k ∈ i.addKeys ∅, slots.isWritten k) (hdefined : ∀ x, i.definedLabel? = some x → (find? labels x).isSome)
    (hused : ∀ x ∈ i.usedLabels, (find? labels x).isSome) (hlocal : ∀ x, i.local? = some x → (find? locals x).isSome) :
    Passes (Knows labels locals) (instr slots i) := by
  have hput (op : Op T.toHandles) : Passes (Knows labels locals) (put op) := passes_ofDraft (hT.emit op)
  have htype {t : TypeRef} (ht : t.Names P) (hkeys : ∀ k ∈ t.addKeys ∅, slots.isWritten k) :
      Passes (Knows labels locals) (type slots t) :=
    passes_ofProgram (hT.type ht fun k hk => hkeys k (t.mem_addKeys.mpr (.inl hk)))
  cases i with
  | leave | beginTry | beginCatch | beginFinally | endTry => cases hflat
  | label x => exact (passes_label (hdefined x rfl)).bind fun l => passes_ofDraft (hT.markLabel l)
  | loadLocal x | storeLocal x => exact (passes_localOf (hlocal x rfl)).bind fun _ => hput _
  | branch kind x => exact (passes_label (hused x (List.mem_singleton_self x))).bind fun _ => hput _
  | «switch» xs => exact (passes_labelsOf hused).bind fun _ => hput _
  | loadField f | storeField f | loadStatic f | storeStatic f =>
    exact (passes_ofProgram (f.resolve_succeeds hT hi hkeys)).bind fun _ => hput _
  | newObject c | callConstructor c => exact (passes_ofProgram (c.resolve_succeeds hT hi hkeys)).bind fun _ => hput _
  | call m tail | callVirtual m tail => exact (passes_ofProgram (m.resolve_succeeds hT hi hkeys)).bind fun _ => hput _
  | typeOp kind t | invokeDelegate t tail => exact (htype hi hkeys).bind fun _ => hput _
  | newDelegate t m =>
    simp only [Instr.addKeys, MethodRef.mem_addKeys] at hkeys
    exact (htype hi.1 fun k hk => hkeys k (.inr hk)).bind fun _ =>
      (passes_ofProgram (m.resolve_succeeds hT hi.2 fun k hk => hkeys k (.inl hk))).bind fun _ => hput _
  | _ => exact hput _

theorem passes_instrs (hT : T.Reliable P) : ∀ {code : List Instr}, (∀ i ∈ code, i.isFlat) → (∀ i ∈ code, i.Names P) →
    (∀ i ∈ code, ∀ k ∈ i.addKeys ∅, slots.isWritten k) →
    (∀ i ∈ code, ∀ x, i.definedLabel? = some x → (find? labels x).isSome) →
    (∀ i ∈ code, ∀ x ∈ i.usedLabels, (find? labels x).isSome) →
    (∀ i ∈ code, ∀ x, i.local? = some x → (find? locals x).isSome) → Passes (Knows labels locals) (instrs slots code)
  | [], _, _, _, _, _, _ => .pure _
  | i :: code, hflat, hnames, hkeys, hdefined, hused, hlocal => by
    rw [List.forall_mem_cons] at hflat hnames hkeys hdefined hused hlocal
    exact (passes_instr hT hflat.1 hnames.1 hkeys.1 hdefined.1 hused.1 hlocal.1).bind fun _ =>
      passes_instrs hT hflat.2 hnames.2 hkeys.2 hdefined.2 hused.2 hlocal.2

/-- Declaring locals makes each of them known. -/
theorem exec_declareLocals (hT : T.Reliable P) : ∀ {ls : List LocalDecl} (e : Emission T), (∀ l ∈ ls, l.type.Names P) →
    (∀ l ∈ ls, ∀ k ∈ l.type.mentions.map ItemKey.type, slots.isWritten k) →
    ∃ e', (declareLocals slots ls).exec e = (.ok (), e') ∧ e'.labels = e.labels ∧
      ∀ x, (find? e.locals x).isSome ∨ x ∈ ls.map (·.name) → (find? e'.locals x).isSome = true
  | [], e, _, _ => ⟨e, rfl, rfl, by simp⟩
  | l :: ls, e, hnames, hkeys => by
    rw [List.forall_mem_cons] at hnames hkeys
    have htype : Passes (Knows e.labels e.locals) (type slots l.type) := passes_ofProgram (hT.type hnames.1 hkeys.1)
    obtain ⟨ty, e₁, hty, h₁⟩ := htype e ⟨rfl, rfl⟩
    have hslot : Passes (Knows e.labels e.locals) (ofDraft (T.declareLocal ty)) := passes_ofDraft (hT.declareLocal ty)
    obtain ⟨slot, e₂, hslot, h₂⟩ := hslot e₁ h₁
    obtain ⟨e₃, hrest, hlabels, hlocals⟩ := exec_declareLocals hT { e₂ with locals := (l.name, slot) :: e₂.locals }
      hnames.2 hkeys.2
    refine ⟨e₃, ?_, hlabels.trans h₂.1, fun x hx => hlocals x ?_⟩
    · rw [declareLocals, exec_bind_ok]
      exact ⟨ty, e₁, hty, exec_bind_ok.mpr ⟨slot, e₂, hslot, exec_bind_ok.mpr ⟨(), _, rfl, hrest⟩⟩⟩
    · rw [isSome_find?_cons, h₂.2, Bool.or_eq_true]
      rcases hx with hx | hx
      · exact .inl (.inr hx)
      · rcases List.mem_cons.mp hx with rfl | hx
        · exact .inl (.inl BEq.rfl)
        · exact .inr hx

/-- Defining labels makes each of them known. -/
theorem exec_defineLabels (hT : T.Reliable P) : ∀ {code : List Instr} (e : Emission T), (∀ i ∈ code, i.isFlat) →
    ∃ e', (defineLabels code).exec e = (.ok (), e') ∧ e'.locals = e.locals ∧
      ∀ x, (find? e.labels x).isSome ∨ x ∈ code.filterMap Instr.definedLabel? → (find? e'.labels x).isSome = true
  | [], e, _ => ⟨e, rfl, rfl, by simp⟩
  | i :: code, e, hflat => by
    rw [List.forall_mem_cons] at hflat
    have hskip := exec_defineLabels hT e hflat.2
    cases i with
    | endTry => cases hflat.1
    | label name =>
      have hlabel : Passes (Knows e.labels e.locals) (ofDraft T.defineLabel) := passes_ofDraft hT.defineLabel
      obtain ⟨l, e₁, hl, h₁⟩ := hlabel e ⟨rfl, rfl⟩
      obtain ⟨e₂, hrest, hlocals, hlabels⟩ := exec_defineLabels hT { e₁ with labels := (name, l) :: e₁.labels } hflat.2
      refine ⟨e₂, ?_, hlocals.trans h₁.2, fun x hx => hlabels x ?_⟩
      · rw [defineLabels, exec_bind_ok]
        exact ⟨l, e₁, hl, exec_bind_ok.mpr ⟨(), _, rfl, hrest⟩⟩
      · rw [isSome_find?_cons, h₁.1, Bool.or_eq_true]
        rcases hx with hx | hx
        · exact .inl (.inr hx)
        · rcases List.mem_cons.mp hx with rfl | hx
          · exact .inl (.inl BEq.rfl)
          · exact .inr hx
    | _ => exact hskip

/-- A block that stands on its own can be written when all its keys have been. -/
theorem block_succeeds (hT : T.Reliable P) {b : Block} {s t : Supply} (hb : Made s [] [] b t) (hnames : b.Names P)
    (hkeys : ∀ k ∈ b.keys, slots.isWritten k) : (block slots b).Succeeds := by
  intro e
  simp only [Block.mem_keys] at hkeys
  obtain ⟨e₁, hdeclare, -, hlocals⟩ := exec_declareLocals hT e hnames.locals fun l hl k hk => hkeys k (.inr ⟨l, hl, hk⟩)
  obtain ⟨e₂, hdefine, hlocals₂, hlabels⟩ := exec_defineLabels hT e₁ hb.clean.flat
  have hdefined : ∀ i ∈ b.code, ∀ x, i.definedLabel? = some x → (find? e₂.labels x).isSome :=
    fun i hi x hx => hlabels x (.inr (List.mem_filterMap.mpr ⟨i, hi, hx⟩))
  have hused : ∀ i ∈ b.code, ∀ x ∈ i.usedLabels, (find? e₂.labels x).isSome := by
    intro i hi x hx
    have := (hb.clean.goes x (List.mem_flatMap.mpr ⟨i, hi, hx⟩)).resolve_right List.not_mem_nil
    exact hlabels x (.inr this)
  have hlocal : ∀ i ∈ b.code, ∀ x, i.local? = some x → (find? e₂.locals x).isSome := by
    intro i hi x hx
    have := (hb.clean.reads x (List.mem_filterMap.mpr ⟨i, hi, hx⟩)).resolve_right List.not_mem_nil
    rw [hlocals₂]
    exact hlocals x (.inr this)
  obtain ⟨_, e₃, hinstrs, -⟩ := passes_instrs hT hb.clean.flat hnames.code (fun i hi k hk => hkeys k (.inl ⟨i, hi, hk⟩))
    hdefined hused hlocal e₂ ⟨rfl, rfl⟩
  refine ⟨(), e₃, ?_⟩
  rw [block, Block.validate_of_made hb]
  exact exec_bind_ok.mpr ⟨(), e, rfl, exec_bind_ok.mpr ⟨(), e₁, hdeclare, exec_bind_ok.mpr ⟨(), e₂, hdefine, hinstrs⟩⟩⟩

end Emission

end Stackwright
