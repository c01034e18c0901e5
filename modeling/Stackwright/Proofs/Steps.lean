import Stackwright.Proofs.Reliable
import Stackwright.Proofs.Schedule
import Stackwright.Module.Build

/-
  Stackwright.Proofs.Steps — carrying out steps on a reliable target.

  A step delivers when it succeeds once its inputs are written and its outputs are not, and then
  has written its outputs and nothing else.

  - `TypeDefinition.steps_deliver`: the steps of a definition deliver.
-/

namespace Stackwright

variable {k key : ItemKey} {p : PropertyDefinition} {m : Member} {b : Block} {c : ConstructorDefinition}
  {ms : List Member}

/-! ## Slots -/

namespace Slots

variable {H : Handles}

/-- Whether the key has a slot, and whether it is written. -/
def state? (s : Slots H) (key : ItemKey) : Option Bool := (s.get? key).map Slot.isWritten

theorem isWritten_iff {s : Slots H} : s.isWritten key ↔ s.state? key = some true := by
  unfold isWritten state?
  cases s.get? key <;> simp

theorem state?_empty (key : ItemKey) : (∅ : Slots H).state? key = none := by
  simp [state?]

theorem state?_insert (s : Slots H) (key k : ItemKey) (slot : Slot (H.At key)) :
    state? (s.insert key slot) k = if key = k then some slot.isWritten else s.state? k := by
  unfold state?
  rw [Std.DTreeMap.get?_insert]
  by_cases hk : key = k
  · subst hk
    simp
  · rw [if_neg hk, dif_neg]
    exact fun h => hk (Std.LawfulEqCmp.eq_of_compare h)

theorem state?_create (s : Slots H) (key k : ItemKey) :
    (s.create key).state? k = if key = k then (s.state? k).or (some false) else s.state? k := by
  unfold state? create
  rw [Std.DTreeMap.get?_insertIfNew]
  by_cases hk : key = k
  · subst hk
    rw [if_pos rfl]
    by_cases hmem : key ∈ s
    · rw [dif_neg fun h => h.2 hmem]
      obtain ⟨slot, hslot⟩ := Option.isSome_iff_exists.mp (Std.DTreeMap.mem_iff_isSome_get?.mp hmem)
      rw [hslot]
      rfl
    · rw [dif_pos ⟨Std.ReflCmp.compare_self, hmem⟩, Std.DTreeMap.get?_eq_none hmem]
      rfl
  · rw [if_neg hk, dif_neg]
    exact fun h => hk (Std.LawfulEqCmp.eq_of_compare h.1)

/-- An empty slot can be written, which leaves the others alone. -/
theorem write_of_empty {s : Slots H} (h : s.state? key = some false) (v : H.At key) :
    ∃ s', s.write key v = .ok s' ∧ ∀ k, s'.state? k = if key = k then some true else s.state? k := by
  obtain ⟨slot, hslot, hempty⟩ := Option.map_eq_some_iff.mp h
  obtain ⟨name, content⟩ := slot
  cases content with
  | some v => cases hempty
  | none =>
    refine ⟨s.insert key { key := name, content := some v }, ?_, fun k => s.state?_insert key k _⟩
    unfold write
    rw [hslot]
    rfl

end Slots

/-! ## Work on a workspace -/

namespace Workspace

open Effect

variable {T : Target} {α : Type} {slots : Slots T.toHandles}

/-- Work that succeeds and leaves the slots alone. -/
abbrev Looks (slots : Slots T.toHandles) (x : Effect (Workspace T) α) : Prop := Passes (fun w => w.slots = slots) x

theorem looks_ofProgram {x : Effect T.State α} (hx : x.Succeeds) : Looks slots (ofProgram x) := .zoom hx fun _ _ h => h

theorem looks_read (h : slots.isWritten key) : Looks slots (read (T := T) key) := by
  rintro w rfl
  obtain ⟨v, hv⟩ := Slots.read_of_isWritten h
  exact ⟨v, w, by simp [read, exec_bind, hv], rfl⟩

theorem looks_following {x : Slots T.toHandles → Effect T.State α} (hx : (x slots).Succeeds) :
    Looks slots (TypeDefinition.following T x) := by
  rintro w rfl
  exact looks_ofProgram hx w rfl

/-- Work that ends by writing the key, and leaves the slots alone before. -/
def Writes (slots : Slots T.toHandles) (key : ItemKey) (x : Effect (Workspace T) Unit) : Prop :=
  ∀ w, w.slots = slots → ∃ v w', w'.slots = slots ∧ x.exec w = (write key v).exec w'

theorem Writes.bind {x : Effect (Workspace T) α} {f : α → Effect (Workspace T) Unit} (hx : Looks slots x)
    (hf : ∀ a, Writes slots key (f a)) : Writes slots key (x >>= f) := by
  intro w hw
  obtain ⟨a, w₁, ha, hw₁⟩ := hx w hw
  obtain ⟨v, w', hw', h⟩ := hf a w₁ hw₁
  refine ⟨v, w', hw', ?_⟩
  rw [exec_bind, ha]
  exact h

theorem Writes.write (v : T.At key) : Writes slots key (write key v) := fun w hw => ⟨v, w, hw, rfl⟩

end Workspace

/-! ## Single steps -/

/-- A step that keeps its word when its inputs are written and its outputs are not. -/
def Step.Delivers {T : Target} (step : Step T) : Prop :=
  ∀ w : Workspace T, (∀ key ∈ step.inputs, w.slots.isWritten key) →
    (∀ key ∈ step.outputs, w.slots.state? key = some false) →
    ∃ w', step.action.exec w = (.ok (), w') ∧ (∀ key ∈ step.outputs, w'.slots.state? key = some true) ∧
      ∀ key, key ∉ step.outputs → w'.slots.state? key = w.slots.state? key

theorem KeySet.mem_single : k ∈ KeySet.single key ↔ k = key := by
  rw [single, mem_insert]
  simp

namespace Step

open Effect Workspace

variable {T : Target} {step : Step T}

/-- A step that writes the one key it promises. -/
theorem delivers_of_writes (houtputs : step.outputs = .single key)
    (h : ∀ slots, (∀ k ∈ step.inputs, slots.isWritten k) → Writes slots key step.action) : step.Delivers := by
  intro w hinputs hempty
  simp only [houtputs, KeySet.mem_single, forall_eq] at hempty ⊢
  obtain ⟨v, w₁, hw₁, hexec⟩ := h w.slots hinputs w rfl
  obtain ⟨slots, hwrite, hstate⟩ := Slots.write_of_empty hempty v
  refine ⟨{ w₁ with slots }, ?_, ?_, fun k hk => ?_⟩
  · rw [hexec]
    simp [Workspace.write, exec_bind, hw₁, hwrite]
  · simp [hstate]
  · rw [hstate, if_neg (Ne.symm hk)]

/-- A step that promises nothing and leaves the slots alone. -/
theorem delivers_of_looks (houtputs : step.outputs = ∅)
    (h : ∀ slots, (∀ k ∈ step.inputs, slots.isWritten k) → Looks slots step.action) : step.Delivers := by
  intro w hinputs _
  obtain ⟨_, w', hexec, hslots⟩ := h w.slots hinputs w rfl
  refine ⟨w', hexec, ?_, fun k _ => by rw [hslots]⟩
  simp [houtputs]

end Step

namespace TypeDefinition

open Step Workspace

variable {T : Target} {P : String → Prop} {d : TypeDefinition} {slots : Slots T.toHandles}

theorem looks_resolve (hT : T.Reliable P) {t : TypeRef} (ht : t.Names P)
    (hkeys : ∀ k ∈ t.mentions.map ItemKey.type, slots.isWritten k) : Looks slots (resolve T t) :=
  looks_following (hT.type ht hkeys)

theorem looks_resolveAll (hT : T.Reliable P) {ts : List TypeRef} (hts : TypeRef.NamesAll P ts)
    (hkeys : ∀ k ∈ (TypeRef.mentionsAll ts).map ItemKey.type, slots.isWritten k) : Looks slots (resolveAll T ts) :=
  looks_following (hT.types hts hkeys)

theorem mem_memberInputs {types : List TypeRef} :
    k ∈ d.memberInputs types ↔ k ∈ (TypeRef.mentionsAll types).map ItemKey.type ∨ k = .type d.key := by
  rw [memberInputs, TypeRef.mem_addAllKeys, KeySet.mem_single]

theorem mentionsAll_append (ts us : List TypeRef) :
    TypeRef.mentionsAll (ts ++ us) = TypeRef.mentionsAll ts ++ TypeRef.mentionsAll us := by
  induction ts with
  | nil => rfl
  | cons t ts ih => simp [TypeRef.mentionsAll, ih]

theorem typeStep_delivers (hT : T.Reliable P) (hd : d.Names P) : (d.typeStep T).Delivers := by
  refine delivers_of_writes rfl fun slots hinputs => ?_
  have hkeys : ∀ k ∈ d.supertypeKeys, slots.isWritten k := hinputs
  simp only [supertypeKeys, TypeRef.mem_addAllKeys, mentionsAll_append, List.map_append, List.mem_append] at hkeys
  have hinterfaces : Looks slots (resolveAll T d.interfaces) :=
    looks_resolveAll hT (TypeRef.namesAll_iff.mpr hd.interfaces) fun k hk => hkeys k (.inl (.inr hk))
  have hbase := hd.base
  simp only [typeStep]
  cases hb : d.base with
  | none =>
    exact .bind (.pure none) fun base => .bind hinterfaces fun interfaces =>
      .bind (looks_ofProgram (hT.defineType _ _ _ _)) fun _ => .write _
  | some base =>
    have hresolve : Looks slots (resolve T base) := looks_resolve hT (hbase base hb) fun k hk =>
      hkeys k (.inl (.inl (by simpa [hb, TypeRef.mentionsAll] using hk)))
    exact .bind (hresolve.bind fun _ => .pure _) fun base => .bind hinterfaces fun interfaces =>
      .bind (looks_ofProgram (hT.defineType _ _ _ _)) fun _ => .write _

/-- Members start by asking for their owner, and may mention the types that they need. -/
theorem memberStep_delivers {step : Step T} (houtputs : step.outputs = .single key)
    (hinputs : .type d.key ∈ step.inputs)
    {rest : T.Ty → Effect (Workspace T) Unit} (haction : step.action = ownerType T d >>= rest)
    (h : ∀ slots owner, (∀ k ∈ step.inputs, slots.isWritten k) → Writes slots key (rest owner)) : step.Delivers := by
  refine delivers_of_writes houtputs fun slots hkeys => ?_
  rw [haction]
  exact .bind (looks_read (hkeys _ hinputs)) fun owner => h slots owner hkeys

theorem fieldStep_delivers (hT : T.Reliable P) {f : FieldDefinition} (hf : f.fieldType.Names P) :
    (d.fieldStep T f).Delivers := by
  refine memberStep_delivers rfl (mem_memberInputs.mpr (.inr rfl)) rfl fun slots owner hkeys => ?_
  have htype : Looks slots (resolve T f.fieldType) := looks_resolve hT hf fun k hk =>
    hkeys k (mem_memberInputs.mpr (.inl (by simpa [TypeRef.mentionsAll] using hk)))
  exact .bind htype fun _ => .bind (looks_ofProgram (hT.defineField _ _)) fun _ => .write _

theorem methodStep_delivers (hT : T.Reliable P) {key : MethodKey} {m : MethodDefinition}
    (hparams : TypeRef.NamesAll P key.params) (hret : m.returnType.Names P) : (d.methodStep T key m).Delivers := by
  refine memberStep_delivers rfl (mem_memberInputs.mpr (.inr rfl)) rfl fun slots owner hkeys => ?_
  replace hkeys := fun k (hk : k ∈ d.memberInputs (key.params ++ [m.returnType])) => hkeys k hk
  simp only [mem_memberInputs, mentionsAll_append, List.map_append, List.mem_append] at hkeys
  have hparams : Looks slots (resolveAll T key.params) := looks_resolveAll hT hparams fun k hk =>
    hkeys k (.inl (.inl hk))
  have hret : Looks slots (resolve T m.returnType) := looks_resolve hT hret fun k hk =>
    hkeys k (.inl (.inr (by simpa [TypeRef.mentionsAll] using hk)))
  exact .bind hparams fun _ => .bind hret fun _ => .bind (looks_ofProgram (hT.defineMethod _ _)) fun _ => .write _

theorem constructorStep_delivers (hT : T.Reliable P) {key : ConstructorKey} {c : ConstructorDefinition}
    (hparams : TypeRef.NamesAll P key.params) : (d.constructorStep T key c).Delivers := by
  refine memberStep_delivers rfl (mem_memberInputs.mpr (.inr rfl)) rfl fun slots owner hkeys => ?_
  have hparams : Looks slots (resolveAll T key.params) := looks_resolveAll hT hparams fun k hk =>
    hkeys k (mem_memberInputs.mpr (.inl hk))
  exact .bind hparams fun _ => .bind (looks_ofProgram (hT.defineConstructor _ _)) fun _ => .write _

theorem mem_propertyInputs : k ∈ (d.propertyStep T p).inputs ↔
    (∃ m ∈ p.getter.toList ++ p.setter.toList, k ∈ m.keys) ∨ k ∈ d.memberInputs [p.propertyType] :=
  @KeySet.mem_foldl MethodRef (fun s m => m.addKeys s) (fun m k => k ∈ m.keys) k (fun _ _ => MethodRef.mem_addKeys) _ _

theorem looks_resolveMethod? (hT : T.Reliable P) {m : Option MethodRef} (hm : ∀ r ∈ m, r.Names P)
    (hkeys : ∀ r ∈ m, ∀ k ∈ r.keys, slots.isWritten k) : Looks slots (resolveMethod? T m) := by
  cases m with
  | none => exact .pure none
  | some r => exact (looks_following (r.resolve_succeeds hT (hm r rfl) (hkeys r rfl))).bind fun _ => .pure _

theorem propertyStep_delivers (hT : T.Reliable P) (hp : (Member.property p).Names P) :
    (d.propertyStep T p).Delivers := by
  refine memberStep_delivers rfl ?_ rfl fun slots owner hkeys => ?_
  · exact mem_propertyInputs.mpr (.inr (mem_memberInputs.mpr (.inr rfl)))
  · simp only [mem_propertyInputs, mem_memberInputs] at hkeys
    have htype : Looks slots (resolve T p.propertyType) := looks_resolve hT hp.1 fun k hk =>
      hkeys k (.inr (.inl (by simpa [TypeRef.mentionsAll] using hk)))
    have hgetter : Looks slots (resolveMethod? T p.getter) := looks_resolveMethod? hT hp.2.1 fun m hm k hk =>
      hkeys k (.inl ⟨m, List.mem_append_left _ (Option.mem_toList.mpr hm), hk⟩)
    have hsetter : Looks slots (resolveMethod? T p.setter) := looks_resolveMethod? hT hp.2.2 fun m hm k hk =>
      hkeys k (.inl ⟨m, List.mem_append_right _ (Option.mem_toList.mpr hm), hk⟩)
    exact .bind htype fun _ => .bind hgetter fun _ => .bind hsetter fun _ =>
      .bind (looks_ofProgram (hT.defineProperty _ _)) fun _ => .write _

theorem type_mem_finalizeInputs : .type d.key ∈ d.finalizeInputs := by
  unfold finalizeInputs
  generalize d.supertypeKeys.toList = keys
  have hstart : .type d.key ∈ KeySet.single (.type d.key) := KeySet.mem_single.mpr rfl
  generalize KeySet.single (.type d.key) = s at hstart ⊢
  induction keys generalizing s with
  | nil => exact hstart
  | cons key keys ih =>
    refine ih _ ?_
    cases key with
    | type supertype => exact KeySet.mem_insert.mpr (.inr hstart)
    | _ => exact hstart

theorem finalizeStep_delivers (hT : T.Reliable P) : (d.finalizeStep T).Delivers :=
  memberStep_delivers rfl type_mem_finalizeInputs rfl fun _ _ _ =>
    .bind (looks_ofProgram (hT.finalizeType _)) fun _ => .write _

theorem looks_writeBody (hT : T.Reliable P) {s t : Supply} (hb : Made s [] [] b t) (hnames : b.Names P)
    (hkeys : ∀ k ∈ b.keys, slots.isWritten k) {accept : T.Draft → Effect T.State Unit}
    (haccept : ∀ draft, (accept draft).Succeeds) : Looks slots (writeBody T b accept) := by
  rintro w rfl
  obtain ⟨_, e, he⟩ := Emission.block_succeeds hT hb hnames hkeys { program := w.program, draft := T.emptyDraft }
  obtain ⟨_, p, hp⟩ := haccept e.draft e.program
  refine ⟨(), { w with program := p }, ?_, rfl⟩
  simp [writeBody, Workspace.ofProgram, Effect.exec_bind, he, hp]

theorem methodBodyStep_delivers (hT : T.Reliable P) {key : MethodKey} {s t : Supply} (hb : Made s [] [] b t)
    (hnames : b.Names P) : (methodBodyStep T key b).Delivers := by
  refine delivers_of_looks rfl fun slots hkeys => ?_
  exact (looks_read (hkeys _ (KeySet.mem_insert.mpr (.inl rfl)))).bind fun method =>
    looks_writeBody hT hb hnames (fun k hk => hkeys k (KeySet.mem_insert.mpr (.inr hk))) (hT.methodBody method)

theorem constructorBodyStep_delivers (hT : T.Reliable P) {key : ConstructorKey} {s t : Supply}
    (hb : Made s [] [] b t) (hnames : b.Names P) : (constructorBodyStep T key b).Delivers := by
  refine delivers_of_looks rfl fun slots hkeys => ?_
  exact (looks_read (hkeys _ (KeySet.mem_insert.mpr (.inl rfl)))).bind fun ctor =>
    looks_writeBody hT hb hnames (fun k hk => hkeys k (KeySet.mem_insert.mpr (.inr hk))) (hT.constructorBody ctor)

end TypeDefinition

/-! ## The steps of a definition -/

/-- Code that goes to its own labels and reads its own locals. -/
def Block.Stands (b : Block) : Prop := ∃ s t, Made s [] [] b t

/-- A member whose raw code stands on its own. -/
def Member.Stands : Member → Prop
  | .method { body := .code _ block, .. } => block.Stands
  | .constructor { body := .code _ block, .. } => block.Stands
  | _ => True

/-- The keys that steps make, in order. -/
def Step.makes {T : Target} (steps : List (Step T)) : List ItemKey := steps.flatMap fun step => step.outputs.toList

theorem Step.makes_append {T : Target} (a b : List (Step T)) :
    makes (a ++ b) = makes a ++ makes b := List.flatMap_append

theorem Body.paramsAfterReceiver_names {P : String → Prop} {b : Body} {owner : TypeKey} {what : String}
    {params : List TypeRef} (hb : b.Names P) (h : b.paramsAfterReceiver owner what = .ok params) :
    TypeRef.NamesAll P params := by
  have hparams := hb.params
  unfold paramsAfterReceiver at h
  cases hp : b.params with
  | nil => simp [hp] at h
  | cons this rest =>
    simp only [hp] at h hparams
    split at h <;> cases h
    rw [TypeRef.namesAll_iff, List.forall_mem_map]
    exact (List.forall_mem_cons.mp hparams).2

namespace TypeDefinition

variable {T : Target} {P : String → Prop} {d : TypeDefinition} {h : Hierarchy} {options : BuildOptions} {s t : Supply}

theorem methodKey_names {m : MethodDefinition} {key : MethodKey} (hm : m.body.Names P)
    (hkey : d.methodKey m = .ok key) :
    TypeRef.NamesAll P key.params := by
  unfold methodKey at hkey
  cases hbody : m.body with
  | code params block =>
    rw [hbody] at hm hkey
    cases hkey
    exact hm.1
  | abstract params =>
    rw [hbody] at hm hkey
    cases hkey
    exact hm
  | expr body =>
    rw [hbody] at hm
    simp only [hbody] at hkey
    split at hkey
    · obtain ⟨params, hparams, hkey⟩ := except_bind_ok.mp hkey
      cases hkey
      exact Body.paramsAfterReceiver_names hm hparams
    · cases hkey
      rw [MethodBody.Names] at hm
      simpa [TypeKey.method, TypeRef.namesAll_iff] using hm.params

theorem constructorKey_names {key : ConstructorKey} (hc : c.body.Names P)
    (hkey : d.constructorKey c = .ok key) : TypeRef.NamesAll P key.params := by
  unfold constructorKey at hkey
  cases hbody : c.body with
  | code params block =>
    rw [hbody] at hc hkey
    cases hkey
    exact hc.1
  | expr body base =>
    rw [hbody] at hc hkey
    obtain ⟨params, hparams, hkey⟩ := except_bind_ok.mp hkey
    cases hkey
    exact Body.paramsAfterReceiver_names hc.1 hparams

theorem defaultBaseCall_names (hd : d.Names P) : d.defaultBaseCall.Names P := by
  have hbase := hd.base
  refine ⟨?_, trivial⟩
  unfold defaultBaseCall
  split
  · exact ⟨trivial, trivial⟩
  · trivial
  · rename_i base hb
    exact ⟨hbase _ hb, trivial⟩

/-- The steps of a member, by what it is: those that define it and those that write its body. -/
inductive MemberSteps (T : Target) (d : TypeDefinition) (h : Hierarchy) (options : BuildOptions) :
    Member → Supply → List (Step T) → List (Step T) → Supply → Prop
  | field {f : FieldDefinition} {s : Supply} : MemberSteps T d h options (.field f) s [d.fieldStep T f] [] s
  | property {p : PropertyDefinition} {s : Supply} : MemberSteps T d h options (.property p) s [d.propertyStep T p] [] s
  | abstract {m : MethodDefinition} {params : List TypeRef} {key : MethodKey} {s : Supply} :
    m.body = .abstract params → d.methodKey m = .ok key →
      MemberSteps T d h options (.method m) s [d.methodStep T key m] [] s
  | code {m : MethodDefinition} {params : List TypeRef} {block : Block} {key : MethodKey} {s : Supply} :
      m.body = .code params block → d.methodKey m = .ok key →
      MemberSteps T d h options (.method m) s [d.methodStep T key m] [methodBodyStep T key block] s
  | expr {m : MethodDefinition} {body : Body} {block : Block} {key : MethodKey} {s t : Supply} :
      m.body = .expr body → d.methodKey m = .ok key →
      (body.compileMethod h options m.returnType).exec s = (.ok block, t) →
      MemberSteps T d h options (.method m) s [d.methodStep T key m] [methodBodyStep T key block] t
  | constructorCode {c : ConstructorDefinition} {params : List TypeRef} {block : Block} {key : ConstructorKey}
    {s : Supply} :
      c.body = .code params block → d.constructorKey c = .ok key →
      MemberSteps T d h options (.constructor c) s [d.constructorStep T key c] [constructorBodyStep T key block] s
  | constructorExpr {c : ConstructorDefinition} {body : Body} {base : Option BaseCall} {block : Block}
    {key : ConstructorKey}
      {s t : Supply} : c.body = .expr body base → d.constructorKey c = .ok key →
      (body.compileConstructor h options (base.getD d.defaultBaseCall)).exec s = (.ok block, t) →
      MemberSteps T d h options (.constructor c) s [d.constructorStep T key c] [constructorBodyStep T key block] t

/-- The steps of several members, one after another. -/
inductive MembersSteps (T : Target) (d : TypeDefinition) (h : Hierarchy) (options : BuildOptions) :
    List Member → Supply → List (Step T) → List (Step T) → Supply → Prop
  | nil {s : Supply} : MembersSteps T d h options [] s [] [] s
  | cons {m : Member} {ms : List Member} {s s₁ t : Supply} {defined bodies moreDefined moreBodies : List (Step T)} :
      MemberSteps T d h options m s defined bodies s₁ →
      MembersSteps T d h options ms s₁ moreDefined moreBodies t →
      MembersSteps T d h options (m :: ms) s (defined ++ moreDefined) (bodies ++ moreBodies) t

theorem of_memberSteps {defined bodies : List (Step T)}
    (hs : (d.memberSteps T h options m).exec s = (.ok (defined, bodies), t)) :
    MemberSteps T d h options m s defined bodies t := by
  cases m with
  | field f =>
    cases hs
    exact .field
  | property p =>
    cases hs
    exact .property
  | method m =>
    obtain ⟨key, hkey, hs⟩ := Effect.exec_lift_bind_ok.mp hs
    obtain ⟨name, attributes, returnType, body⟩ := m
    cases body with
    | abstract params =>
      cases hs
      exact .abstract rfl hkey
    | code params block =>
      cases hs
      exact .code rfl hkey
    | expr body =>
      obtain ⟨block, t', hblock, hs⟩ := Effect.exec_bind_ok.mp hs
      cases hs
      exact .expr rfl hkey hblock
  | constructor c =>
    obtain ⟨key, hkey, hs⟩ := Effect.exec_lift_bind_ok.mp hs
    obtain ⟨attributes, body⟩ := c
    cases body with
    | code params block =>
      cases hs
      exact .constructorCode rfl hkey
    | expr body base =>
      obtain ⟨block, t', hblock, hs⟩ := Effect.exec_bind_ok.mp hs
      cases hs
      exact .constructorExpr rfl hkey hblock

theorem of_allMemberSteps : ∀ {ms : List Member} {s t : Supply} {defined bodies : List (Step T)},
    (d.allMemberSteps T h options ms).exec s = (.ok (defined, bodies), t) →
    MembersSteps T d h options ms s defined bodies t
  | [], _, _, _, _, hs => by
    cases hs
    exact .nil
  | m :: ms, _, _, _, _, hs => by
    obtain ⟨⟨defined, bodies⟩, s₁, hfirst, hs⟩ := Effect.exec_bind_ok.mp hs
    obtain ⟨⟨moreDefined, moreBodies⟩, s₂, hrest, hs⟩ := Effect.exec_bind_ok.mp hs
    cases hs
    exact .cons (of_memberSteps hfirst) (of_allMemberSteps hrest)

/-- The steps of a definition: its type, its members, their bodies and its completion. -/
theorem of_steps {steps : List (Step T)} (hs : (d.steps T h options).exec s = (.ok steps, t)) :
    ∃ defined bodies, MembersSteps T d h options d.members s defined bodies t ∧
      steps = d.typeStep T :: defined ++ bodies ++ [d.finalizeStep T] := by
  obtain ⟨⟨defined, bodies⟩, s₁, hmembers, hs⟩ := Effect.exec_bind_ok.mp hs
  cases hs
  exact ⟨defined, bodies, of_allMemberSteps hmembers, rfl⟩

theorem memberEntry_method {m : MethodDefinition} {key : MethodKey} (hkey : d.methodKey m = .ok key) :
    d.memberEntry (.method m) = .ok (.method key, .method ⟨m.attributes, m.returnType⟩) := by
  simp only [memberEntry, hkey]
  rfl

theorem memberEntry_constructor {key : ConstructorKey} (hkey : d.constructorKey c = .ok key) :
    d.memberEntry (.constructor c) = .ok (.constructor key, .constructor ⟨c.attributes⟩) := by
  simp only [memberEntry, hkey]
  rfl

/-- A member is defined by one step that makes its key, and its body makes nothing. -/
theorem MemberSteps.makes {defined bodies : List (Step T)} (hs : MemberSteps T d h options m s defined bodies t) :
    ∃ entry, d.memberEntry m = .ok entry ∧ Step.makes defined = [entry.1] ∧ Step.makes bodies = [] := by
  cases hs with
  | field | property => exact ⟨_, rfl, rfl, rfl⟩
  | abstract _ hkey | code _ hkey | expr _ hkey _ => exact ⟨_, memberEntry_method hkey, rfl, rfl⟩
  | constructorCode _ hkey | constructorExpr _ hkey _ => exact ⟨_, memberEntry_constructor hkey, rfl, rfl⟩

theorem MembersSteps.makes {defined bodies : List (Step T)} (hs : MembersSteps T d h options ms s defined bodies t) :
    ∃ entries, List.Forall₂ (fun m entry => d.memberEntry m = .ok entry) ms entries ∧
      Step.makes defined = entries.map (·.1) ∧ Step.makes bodies = [] := by
  induction hs with
  | nil => exact ⟨[], .nil, rfl, rfl⟩
  | cons hfirst _ ih =>
    obtain ⟨entry, hentry, hmakes, hnone⟩ := hfirst.makes
    obtain ⟨entries, hentries, hmoreMakes, hmoreNone⟩ := ih
    refine ⟨entry :: entries, .cons hentry hentries, ?_, ?_⟩
    · rw [Step.makes_append, hmakes, hmoreMakes]
      rfl
    · rw [Step.makes_append, hnone, hmoreNone]
      rfl

/-- The steps of a definition make the keys it enters and its completed form. -/
theorem steps_make {steps : List (Step T)} (hs : (d.steps T h options).exec s = (.ok steps, t)) :
    ∃ entries, d.HasEntries entries ∧ Step.makes steps = entries.map (·.1) ++ [.completed d.key] := by
  obtain ⟨defined, bodies, hmembers, rfl⟩ := of_steps hs
  obtain ⟨entries, hentries, hmakes, hnone⟩ := hmembers.makes
  refine ⟨_, .intro hentries, ?_⟩
  have htype : Step.makes [d.typeStep T] = [.type d.key] := rfl
  have hcomplete : Step.makes [d.finalizeStep T] = [.completed d.key] := rfl
  rw [← List.singleton_append, Step.makes_append, Step.makes_append, Step.makes_append, htype, hmakes, hnone, hcomplete,
    List.append_nil]
  rfl

theorem MemberSteps.deliver (hT : T.Reliable P) (hd : d.Names P) (htable : h.table.Names P) (hm : m.Names P)
    (hstands : m.Stands) {defined bodies : List (Step T)} (hs : MemberSteps T d h options m s defined bodies t) :
    ∀ step ∈ defined ++ bodies, step.Delivers := by
  have hmethodBody {key : MethodKey} {b : Block} (hb : b.Stands) (hnames : b.Names P) :
      (methodBodyStep T key b).Delivers := by
    obtain ⟨s, t, hb⟩ := hb
    exact methodBodyStep_delivers hT hb hnames
  have hconstructorBody {key : ConstructorKey} {b : Block} (hb : b.Stands) (hnames : b.Names P) :
      (constructorBodyStep T key b).Delivers := by
    obtain ⟨s, t, hb⟩ := hb
    exact constructorBodyStep_delivers hT hb hnames
  cases hs with
  | field => simpa using fieldStep_delivers hT hm
  | property => simpa using propertyStep_delivers hT hm
  | @abstract m params key _ hbody hkey =>
    simpa using @methodStep_delivers T P d hT key m (methodKey_names hm.2 hkey) hm.1
  | @code m params block key _ hbody hkey =>
    have hdefine := @methodStep_delivers T P d hT key m (methodKey_names hm.2 hkey) hm.1
    obtain ⟨name, attributes, returnType, body⟩ := m
    subst hbody
    simpa using ⟨hdefine, hmethodBody hstands hm.2.2⟩
  | @expr m body block key _ _ hbody hkey hblock =>
    have hdefine := @methodStep_delivers T P d hT key m (methodKey_names hm.2 hkey) hm.1
    have hnames := hm.2
    rw [hbody] at hnames
    have hwrite : (methodBodyStep T key block).Delivers :=
      hmethodBody ⟨_, _, Body.compileMethod_made hblock⟩ (Body.compileMethod_names hnames htable hblock)
    simpa using ⟨hdefine, hwrite⟩
  | @constructorCode c params block key _ hbody hkey =>
    have hdefine := @constructorStep_delivers T P d hT key c (constructorKey_names hm hkey)
    obtain ⟨attributes, body⟩ := c
    subst hbody
    simpa using ⟨hdefine, hconstructorBody hstands hm.2⟩
  | @constructorExpr c body base block key _ _ hbody hkey hblock =>
    have hdefine := @constructorStep_delivers T P d hT key c (constructorKey_names hm hkey)
    have hnames : c.body.Names P := hm
    rw [hbody] at hnames
    have hbase : (base.getD d.defaultBaseCall).Names P := by
      cases base with
      | none => exact defaultBaseCall_names hd
      | some base => exact hnames.2 base rfl
    have hwrite : (constructorBodyStep T key block).Delivers :=
      hconstructorBody ⟨_, _, Body.compileConstructor_made hblock⟩
        (Body.compileConstructor_names hnames.1 hbase htable hblock)
    simpa using ⟨hdefine, hwrite⟩

theorem MembersSteps.deliver (hT : T.Reliable P) (hd : d.Names P) (htable : h.table.Names P)
    {defined bodies : List (Step T)} (hs : MembersSteps T d h options ms s defined bodies t) (hms : ∀ m ∈ ms, m.Names P)
    (hstands : ∀ m ∈ ms, m.Stands) : ∀ step ∈ defined ++ bodies, step.Delivers := by
  induction hs with
  | nil => simp
  | cons hfirst _ ih =>
    rw [List.forall_mem_cons] at hms hstands
    have hown := hfirst.deliver hT hd htable hms.1 hstands.1
    have hmore := ih hms.2 hstands.2
    simp only [List.forall_mem_append] at hown hmore ⊢
    exact ⟨⟨hown.1, hmore.1⟩, hown.2, hmore.2⟩

theorem steps_deliver (hT : T.Reliable P) (hd : d.Names P) (htable : h.table.Names P)
    (hstands : ∀ m ∈ d.members, m.Stands)
    {steps : List (Step T)} (hs : (d.steps T h options).exec s = (.ok steps, t)) : ∀ step ∈ steps, step.Delivers := by
  obtain ⟨defined, bodies, hmembers, rfl⟩ := of_steps hs
  have hdeliver := hmembers.deliver hT hd htable hd.members hstands
  simp only [List.cons_append, List.forall_mem_cons, List.forall_mem_append] at hdeliver ⊢
  exact ⟨typeStep_delivers hT hd, hdeliver, finalizeStep_delivers hT, by simp⟩

end TypeDefinition

/-! ## Carrying out steps -/

/-- The slots when the tasks at some places have run and all others are still to run. -/
structure Slots.After {H : Handles} (tasks : List Task) (places : List Nat) (slots : Slots H) : Prop where
  made : ∀ key, Task.Makes tasks places key → slots.state? key = some true
  pending : ∀ key, ¬ Task.Makes tasks places key → (∃ t ∈ tasks, key ∈ t.outputs) → slots.state? key = some false
  absent : ∀ key, (∀ t ∈ tasks, key ∉ t.outputs) → slots.state? key = none

namespace Slots.After

variable {H : Handles} {tasks : List Task} {before after : List Nat} {i : Nat} {t : Task} {slots slots' : Slots H}

/-- The next task of a schedule finds its inputs written and its outputs empty. -/
theorem ready (hw : slots.After tasks before) (hone : Task.OneMaker tasks)
    (hschedule : Task.Schedule tasks (before ++ i :: after)) (ht : tasks[i]? = some t) :
    (∀ key ∈ t.inputs, slots.isWritten key) ∧ ∀ key ∈ t.outputs, slots.state? key = some false := by
  have hfresh : i ∉ before := by
    have hnodup : (before ++ i :: after).Nodup := hschedule.perm.nodup_iff.mpr List.nodup_range
    intro hi
    exact (List.nodup_append.mp hnodup).2.2 i hi i (List.mem_cons_self ..) rfl
  have hunmade : ∀ key ∈ t.outputs, ¬ Task.Makes tasks before key := by
    rintro key hkey ⟨j, hj, u, hu, hku⟩
    exact hfresh (hone j i u t key hu ht hku hkey ▸ hj)
  exact ⟨fun key hkey => isWritten_iff.mpr (hw.made key (hschedule.fed before i after _ rfl ht key hkey)),
    fun key hkey => hw.pending key (hunmade key hkey) ⟨t, List.mem_of_getElem? ht, hkey⟩⟩

/-- A task that writes its outputs and nothing else leads to the slots after it. -/
theorem next (hw : slots.After tasks before) (ht : tasks[i]? = some t)
    (hmade : ∀ key ∈ t.outputs, slots'.state? key = some true)
    (hsame : ∀ key, key ∉ t.outputs → slots'.state? key = slots.state? key) : slots'.After tasks (before ++ [i]) := by
  have hmakes : ∀ key, Task.Makes tasks (before ++ [i]) key ↔ Task.Makes tasks before key ∨ key ∈ t.outputs := by
    intro key
    constructor
    · rintro ⟨j, hj, u, hu, hku⟩
      rcases List.mem_append.mp hj with hj | hj
      · exact .inl ⟨j, hj, u, hu, hku⟩
      · obtain rfl := List.mem_singleton.mp hj
        rw [ht] at hu
        cases hu
        exact .inr hku
    · rintro (⟨j, hj, u, hu, hku⟩ | hkey)
      · exact ⟨j, List.mem_append_left _ hj, u, hu, hku⟩
      · exact ⟨i, List.mem_append_right _ (List.mem_singleton_self i), _, ht, hkey⟩
  refine ⟨fun key hkey => ?_, fun key hkey hany => ?_, fun key hkey => ?_⟩
  · by_cases hout : key ∈ t.outputs
    · exact hmade key hout
    · rw [hsame key hout]
      exact hw.made key (((hmakes key).mp hkey).resolve_right hout)
  · rw [hmakes, not_or] at hkey
    rw [hsame key hkey.2]
    exact hw.pending key hkey.1 hany
  · rw [hsame key (hkey _ (List.mem_of_getElem? ht))]
    exact hw.absent key hkey

/-- After the whole schedule the keys that some task makes are written, and no others are there. -/
theorem state?_eq {order : List Nat} (hw : slots.After tasks order) (hschedule : Task.Schedule tasks order)
    (key : ItemKey) :
    ((∃ t ∈ tasks, key ∈ t.outputs) → slots.state? key = some true) ∧
      ((∀ t ∈ tasks, key ∉ t.outputs) → slots.state? key = none) := by
  refine ⟨?_, hw.absent key⟩
  rintro ⟨t, ht, hkey⟩
  obtain ⟨i, hi, hit⟩ := List.mem_iff_getElem.mp ht
  refine hw.made key ⟨i, ?_, t, by rw [List.getElem?_eq_getElem hi, hit], hkey⟩
  exact hschedule.perm.mem_iff.mpr (List.mem_range.mpr hi)

end Slots.After

namespace Step

open Effect

variable {T : Target} {steps : List (Step T)}

/-- The tasks behind some steps. -/
abbrev tasks (steps : List (Step T)) : List Task := steps.map (·.toTask)

theorem exec_run {step : Step T} (h : step.Delivers) {w : Workspace T}
    (hinputs : ∀ key ∈ step.inputs, w.slots.isWritten key)
    (hempty : ∀ key ∈ step.outputs, w.slots.state? key = some false) :
    ∃ w', step.run.exec w = (.ok (), w') ∧ (∀ key ∈ step.outputs, w'.slots.state? key = some true) ∧
      ∀ key, key ∉ step.outputs → w'.slots.state? key = w.slots.state? key := by
  obtain ⟨w', hexec, hmade, hsame⟩ := h w hinputs hempty
  refine ⟨w', ?_, hmade, hsame⟩
  have hnone : (step.outputs.toList.find? fun key => !w'.slots.isWritten key) = none := by
    refine List.find?_eq_none.mpr fun key hkey => ?_
    simp [Slots.isWritten_iff.mpr (hmade key (Std.TreeSet.mem_toList.mp hkey))]
  rw [run, exec_bind_ok]
  refine ⟨(), w', hexec, exec_bind_ok.mpr ⟨w', w', rfl, ?_⟩⟩
  simp only [hnone]
  rfl

/-- Running the next step of a schedule. -/
theorem exec_run_next (hdeliver : ∀ step ∈ steps, step.Delivers) (hone : Task.OneMaker (tasks steps))
    {before after : List Nat}
    {i : Nat} (hschedule : Task.Schedule (tasks steps) (before ++ i :: after)) {step : Step T}
      (hstep : steps[i]? = some step)
    {w : Workspace T} (hw : w.slots.After (tasks steps) before) :
    ∃ w', step.run.exec w = (.ok (), w') ∧ w'.slots.After (tasks steps) (before ++ [i]) := by
  have htask : (tasks steps)[i]? = some step.toTask := by simp [hstep]
  obtain ⟨hinputs, hempty⟩ := hw.ready hone hschedule htask
  obtain ⟨w', hrun, hmade, hsame⟩ := exec_run (hdeliver step (List.mem_of_getElem? hstep)) hinputs hempty
  exact ⟨w', hrun, hw.next htask hmade hsame⟩

theorem runAll_next {order before after : List Nat} {i : Nat} (hschedule : Task.Schedule (tasks steps) order)
    (horder : order = before ++ i :: after) : ∃ step, steps[i]? = some step ∧ runAll steps.toArray (i :: after) = (do
      step.run
      let rest ← runAll steps.toArray after
      pure (step.description :: rest)) := by
  have hi : i < steps.length := by
    have : i ∈ List.range (tasks steps).length := hschedule.perm.mem_iff.mp (by simp [horder])
    simpa using this
  exact ⟨steps[i], List.getElem?_eq_getElem hi, by rw [runAll, List.getElem?_toArray, List.getElem?_eq_getElem hi]⟩

/-- Running the rest of a schedule. -/
theorem exec_runAll (hdeliver : ∀ step ∈ steps, step.Delivers) (hone : Task.OneMaker (tasks steps)) {order : List Nat}
    (hschedule : Task.Schedule (tasks steps) order) : ∀ {after before : List Nat} {w : Workspace T},
      order = before ++ after → w.slots.After (tasks steps) before →
      ∃ texts w', (runAll steps.toArray after).exec w = (.ok texts, w') ∧ w'.slots.After (tasks steps) order
  | [], before, w, horder, hw => by
    rw [List.append_nil] at horder
    exact ⟨[], w, rfl, horder ▸ hw⟩
  | i :: after, before, w, horder, hw => by
    obtain ⟨step, hstep, hnext⟩ := runAll_next hschedule horder
    obtain ⟨w₁, hrun, hw₁⟩ := exec_run_next hdeliver hone (horder ▸ hschedule) hstep hw
    have hsplit : order = before ++ [i] ++ after := by simpa using horder
    obtain ⟨texts, w', hrest, hw'⟩ := exec_runAll hdeliver hone hschedule hsplit hw₁
    refine ⟨step.description :: texts, w', ?_, hw'⟩
    rw [hnext]
    exact exec_bind_ok.mpr ⟨(), w₁, hrun, exec_bind_ok.mpr ⟨texts, w', hrest, rfl⟩⟩

theorem state?_createSlots (steps : List (Step T)) (slots : Slots T.toHandles) (key : ItemKey) :
    (createSlots steps slots).state? key = (slots.state? key).or (if key ∈ makes steps then some false else none) := by
  have hkeys : ∀ (keys : List ItemKey) (slots : Slots T.toHandles),
      (keys.foldl Slots.create slots).state? key = (slots.state? key).or (if key ∈ keys then some false else none) := by
    intro keys
    induction keys with
    | nil => simp
    | cons k keys ih =>
      intro slots
      rw [List.foldl_cons, ih, Slots.state?_create]
      by_cases hk : k = key
      · subst hk
        cases slots.state? k <;> simp
      · simp [hk, Ne.symm hk]
  have : createSlots steps slots = (makes steps).foldl Slots.create slots := by
    rw [createSlots, makes, List.foldl_flatMap]
  rw [this, hkeys]

theorem mem_makes : key ∈ makes steps ↔ ∃ t ∈ tasks steps, key ∈ t.outputs := by
  simp [makes, tasks, Std.TreeSet.mem_toList]

/-- Before anything is carried out, the slots of all outputs are empty. -/
theorem createSlots_after (steps : List (Step T)) : (createSlots steps (∅ : Slots T.toHandles)).After
    (tasks steps) [] := by
  refine ⟨?_, fun key _ hany => ?_, fun key hnone => ?_⟩
  · rintro key ⟨i, hi, -⟩
    cases hi
  · rw [state?_createSlots, Slots.state?_empty, if_pos (mem_makes.mpr hany)]
    rfl
  · rw [state?_createSlots, Slots.state?_empty, if_neg fun h => ?_]
    · rfl
    · obtain ⟨t, ht, hkey⟩ := mem_makes.mp h
      exact hnone t ht hkey

/-- Steps that deliver are carried out when they can be planned. -/
theorem execute_delivers (hdeliver : ∀ step ∈ steps, step.Delivers) {order : List Nat}
    (hplan : Task.plan (tasks steps) = .ok order) (program : T.State) :
    ∃ texts w', (execute steps).exec { program } = (.ok texts, w') ∧
      ∀ key, w'.slots.state? key = if key ∈ makes steps then some true else none := by
  obtain ⟨hone, hschedule⟩ := Task.plan_completes hplan
  obtain ⟨texts, w', hrun, hw'⟩ := exec_runAll (w := { program, slots := createSlots steps ∅ }) hdeliver
    hone hschedule rfl
    (createSlots_after steps)
  refine ⟨texts, w', ?_, fun key => ?_⟩
  · rw [execute, hplan]
    exact exec_bind_ok.mpr ⟨order, _, rfl, exec_bind_ok.mpr ⟨(), _, rfl, hrun⟩⟩
  · obtain ⟨hwritten, habsent⟩ := hw'.state?_eq hschedule key
    split
    · rename_i hkey
      exact hwritten (mem_makes.mp hkey)
    · rename_i hkey
      exact habsent fun t ht hk => hkey (mem_makes.mpr ⟨t, ht, hk⟩)

end Step

end Stackwright
