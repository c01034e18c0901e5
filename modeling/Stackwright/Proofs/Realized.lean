import Stackwright.Proofs.Layouts
import Stackwright.Proofs.Delegates

/-
  Stackwright.Proofs.Realized — what a build has made of a module.

  Steps are carried out in an order that only the plan knows. Each leaves something behind that
  stays (`TypeAt`, `FieldAt`, `RoutineAt`, `BodyAt`), and each keeps the program sound: what types
  list was put there for a member, and the fields of completed types have their places.
-/

namespace Stackwright

open Machine (Ty TypeId FieldId MethodId TypeRecord FieldRecord MethodRecord Program handles)

variable {id : TypeId} {ms : List Member}
variable {w w' : Site} {slots slots' : Slots handles} {options : BuildOptions} {bodies defined : List (Step machine)}
variable {routine : Stackwright.Routine} {d : TypeDefinition} {r : TypeRecord} {s : Supply} {built : Built machine}

/-! ## What members have become -/

/-- Everything is still there. -/
structure Site.Grows (w w' : Site) : Prop where
  slots : Slots.Grows w.slots w'.slots
  program : w.program.Grows w'.program

theorem Site.Grows.refl (w : Site) : Site.Grows w w := ⟨.refl _, .refl _⟩

theorem Site.Grows.trans {w'' : Site} (h : Site.Grows w w') (h' : Site.Grows w' w'') : Site.Grows w w'' :=
  ⟨h.slots.trans h'.slots, h.program.trans h'.program⟩

theorem Slots.Routine.mono {key : ItemKey} {m : MethodId} (h : slots.Routine key m) (hslots : slots.Grows slots') :
    slots'.Routine key m := by
  cases h with
  | method h => exact .method (hslots _ _ h)
  | constructor h => exact .constructor (hslots _ _ h)

theorem rel_denotes_mono {t : Option TypeRef} {ty : Option Ty} (h : Option.Rel (TypeRef.Denotes w.slots w.program) t ty)
    (hgrows : Site.Grows w w') : Option.Rel (TypeRef.Denotes w'.slots w'.program) t ty := by
  cases h with
  | none => exact .none
  | some ht => exact .some (ht.mono hgrows.slots hgrows.program)

theorem forall₂_denotes_mono {ts : List TypeRef} {tys : List Ty}
    (h : List.Forall₂ (TypeRef.Denotes w.slots w.program) ts tys)
    (hgrows : Site.Grows w w') : List.Forall₂ (TypeRef.Denotes w'.slots w'.program) ts tys :=
  h.imp fun _ _ ht => ht.mono hgrows.slots hgrows.program

namespace TypeDefinition

section

variable (d : TypeDefinition) (w : Site)

/-- The type has been defined, under the given number. -/
structure TypeAt (i : Nat) : Prop where
  slot : w.slots.read (.type d.key) = .ok (.defined ⟨i, d.key.name⟩)
  record : ∃ r, w.program.types[i]? = some r ∧ r.name = d.key.name ∧ r.attributes = d.attributes ∧
    Option.Rel (TypeRef.Denotes w.slots w.program) d.base r.base ∧
    List.Forall₂ (TypeRef.Denotes w.slots w.program) d.interfaces r.interfaces

/-- The field has been defined. -/
structure FieldAt (f : FieldDefinition) (i : Nat) (handle : FieldId) : Prop where
  owner : w.slots.read (.type d.key) = .ok (.defined ⟨i, d.key.name⟩)
  slot : w.slots.read (.field (d.fieldKey f)) = .ok handle
  name : handle.name = d.key.name ++ "::" ++ f.name
  listed : w.program.Lists i handle
  record : ∃ r, w.program.fields[handle.index]? = some r ∧ r.owner = .defined ⟨i, d.key.name⟩ ∧ r.name = f.name ∧
    f.fieldType.Resolves w.slots r.type ∧ r.isStatic = f.attributes.isStatic

/-- The method or constructor has been defined. -/
structure RoutineAt (key : ItemKey) (routine : Routine) (i : Nat) (m : MethodId) : Prop where
  owner : w.slots.read (.type d.key) = .ok (.defined ⟨i, d.key.name⟩)
  slot : Slots.Routine w.slots key m
  name : m.name = Program.memberName (.defined ⟨i, d.key.name⟩) routine.name
  listed : w.program.Calls i m
  record : ∃ r, w.program.methods[m.index]? = some r ∧ r.owner = .defined ⟨i, d.key.name⟩ ∧ r.name = routine.name ∧
    List.Forall₂ (TypeRef.Resolves w.slots) routine.params r.params ∧ routine.returnType.Resolves w.slots r.ret ∧
    r.isStatic = routine.isStatic ∧ r.isVirtual = routine.isVirtual ∧
    if routine.isAbstract then r.kind = .abstract else ∃ code, r.kind = .defined code

/-- The body has been handed over. -/
def BodyAt (key : ItemKey) (block : Block) : Prop :=
  ∃ m r code, Slots.Routine w.slots key m ∧ w.program.methods[m.index]? = some r ∧ r.kind = .defined (some code) ∧
    (block.Stands → Setting.Installs ⟨block.layout code, w.slots, w.program⟩ block)

/-- The type is complete. -/
def CompleteAt (i : Nat) : Prop :=
  w.slots.read (.type d.key) = .ok (.defined ⟨i, d.key.name⟩) ∧ ∃ l, w.program.LaidOut i l

end

variable {d : TypeDefinition} {w w' : Site} {i : Nat}

theorem TypeAt.mono (h : d.TypeAt w i) (hgrows : Site.Grows w w') : d.TypeAt w' i where
  slot := hgrows.slots _ _ h.slot
  record := by
    obtain ⟨r, hr, hname, hattributes, hbase, hinterfaces⟩ := h.record
    obtain ⟨r', hr', hg⟩ := hgrows.program.types i r hr
    refine ⟨r', hr', hg.name.trans hname, hg.attributes.trans hattributes, ?_, ?_⟩
    · rw [hg.base]
      exact rel_denotes_mono hbase hgrows
    · rw [hg.interfaces]
      exact forall₂_denotes_mono hinterfaces hgrows

theorem FieldAt.mono {f : FieldDefinition} {handle : FieldId} (h : d.FieldAt w f i handle) (hgrows : Site.Grows w w') :
    d.FieldAt w' f i handle where
  owner := hgrows.slots _ _ h.owner
  slot := hgrows.slots _ _ h.slot
  name := h.name
  listed := hgrows.program.lists h.listed
  record := by
    obtain ⟨r, hr, howner, hname, htype, hstatic⟩ := h.record
    obtain ⟨r', hr', hg⟩ := hgrows.program.fields _ r hr
    exact ⟨r', hr', hg.owner.trans howner, hg.name.trans hname, hg.type ▸ htype.mono hgrows.slots,
      hg.isStatic.trans hstatic⟩

theorem RoutineAt.mono {key : ItemKey} {m : MethodId} (h : d.RoutineAt w key routine i m) (hgrows : Site.Grows w w')
    : d.RoutineAt w' key routine i m where
  owner := hgrows.slots _ _ h.owner
  slot := h.slot.mono hgrows.slots
  name := h.name
  listed := hgrows.program.calls h.listed
  record := by
    obtain ⟨r, hr, howner, hname, hparams, hret, hstatic, hvirtual, hkind⟩ := h.record
    obtain ⟨r', hr', hg⟩ := hgrows.program.methods _ r hr
    refine ⟨r', hr', hg.owner.trans howner, hg.name.trans hname, ?_, hg.ret ▸ hret.mono hgrows.slots,
      hg.isStatic.trans hstatic, hg.isVirtual.trans hvirtual, ?_⟩
    · rw [hg.params]
      exact forall₂_resolves_mono hparams hgrows.slots
    · by_cases habstract : routine.isAbstract = true
      · rw [if_pos habstract] at hkind ⊢
        rcases hg.kind with hk | ⟨hk, -⟩
        · exact hk.trans hkind
        · cases hkind.symm.trans hk
      · rw [if_neg habstract] at hkind ⊢
        rcases hg.kind with hk | ⟨-, code, hk⟩
        · rwa [hk]
        · exact ⟨_, hk⟩

theorem BodyAt.mono {key : ItemKey} {block : Block} (h : BodyAt w key block) (hgrows : Site.Grows w w') :
    BodyAt w' key block := by
  obtain ⟨m, r, code, hslot, hr, hkind, hinstalls⟩ := h
  obtain ⟨r', hr', hg⟩ := hgrows.program.methods _ r hr
  refine ⟨m, r', code, hslot.mono hgrows.slots, hr', ?_,
    fun hb => (hinstalls hb).mono ⟨rfl, hgrows.slots, hgrows.program⟩⟩
  rcases hg.kind with hk | ⟨hk, -⟩
  · exact hk.trans hkind
  · cases hkind.symm.trans hk

theorem CompleteAt.mono (h : d.CompleteAt w i) (hgrows : Site.Grows w w') : d.CompleteAt w' i := by
  obtain ⟨hslot, l, hl⟩ := h
  exact ⟨hgrows.slots _ _ hslot, l, hgrows.program.laidOut hl⟩

end TypeDefinition

/-! ## Sound programs -/

/-- What is built. -/
structure Blueprint where
  definitions : List TypeDefinition
  hierarchy : Hierarchy
  options : BuildOptions
  distinct : (definitions.map (·.key)).Nodup

/-- A block that is written for a member: its raw code, or what it is compiled to. -/
inductive TypeDefinition.Writes (d : TypeDefinition) (h : Hierarchy) (options : BuildOptions) : Member → Block → Prop
  | method {m params block} : m.body = .code params block → Writes d h options (.method m) block
  | constructor {c params block} : c.body = .code params block → Writes d h options (.constructor c) block
  | compiled {member block} : d.Compiles h options member block → Writes d h options member block

/-- The methods of the machine that are noted for a definition. -/
def TypeDefinition.NotedFor (d : TypeDefinition) (h : Hierarchy) (options : BuildOptions) (slots : Slots handles)
    (r : MethodRecord) : Prop :=
  (∃ p, .property p ∈ d.members ∧ PropertyDefinition.NotedFor slots p r) ∨
  ∃ member ∈ d.members, ∃ block, d.Writes h options member block ∧ ∃ i ∈ block.code, i.NotedFor slots r

section

variable {slots slots' : Slots handles} {r : MethodRecord}

theorem MethodRef.NotedFor.mono {ref : MethodRef} (h : ref.NotedFor slots r) (hslots : slots.Grows slots') :
    ref.NotedFor slots' r := by
  obtain ⟨e, owner, params, ret, href, howner, hparams, hret, hr⟩ := h
  exact ⟨e, owner, params, ret, href, howner.mono hslots, forall₂_resolves_mono hparams hslots, hret.mono hslots, hr⟩

theorem Instr.NotedFor.mono {i : Instr} (h : i.NotedFor slots r) (hslots : slots.Grows slots') :
    i.NotedFor slots' r := by
  rcases h with ⟨ref, hi, hr⟩ | ⟨t, ref, hi, hr⟩ | ⟨ref, hi, c, owner, params, href, howner, hparams, hr⟩
  · exact .inl ⟨ref, hi, hr.mono hslots⟩
  · exact .inr (.inl ⟨t, ref, hi, hr.mono hslots⟩)
  · exact .inr (.inr ⟨ref, hi, c, owner, params, href, howner.mono hslots, forall₂_resolves_mono hparams hslots, hr⟩)

theorem TypeDefinition.NotedFor.mono {h : Hierarchy} (hr : d.NotedFor h options slots r) (hslots : slots.Grows slots')
    : d.NotedFor h options slots' r := by
  rcases hr with ⟨p, hp, ref, href, hr⟩ | ⟨member, hmember, block, hblock, i, hi, hr⟩
  · exact .inl ⟨p, hp, ref, href, hr.mono hslots⟩
  · exact .inr ⟨member, hmember, block, hblock, i, hi, hr.mono hslots⟩

end

/-- All that a program has was put there for a definition. -/
structure Site.Known (B : Blueprint) (w : Site) : Prop where
  /-- Types are known by their keys. -/
  typeSlot : ∀ key (ty : Ty), w.slots.read (.type key) = .ok ty →
    ∃ i r, ty = .defined ⟨i, key.name⟩ ∧ w.program.types[i]? = some r ∧ r.name = key.name
  typeKnown : ∀ i r, w.program.types[i]? = some r → ∃ d ∈ B.definitions, d.TypeAt w i
  fieldKnown : ∀ i f, w.program.Lists i f → ∃ d ∈ B.definitions, ∃ fd, .field fd ∈ d.members ∧ d.FieldAt w fd i f
  routineKnown : ∀ i m, w.program.Calls i m → ∃ d ∈ B.definitions, ∃ member ∈ d.members, ∃ key routine,
    d.Offers member key routine ∧ d.RoutineAt w key routine i m
  routineSlot : ∀ key m, Slots.Routine w.slots key m → m.index < w.program.methods.size
  /-- Methods of the machine have been noted for a reference. -/
  natives : ∀ (i : Nat) (r : MethodRecord), w.program.methods[i]? = some r → r.kind = .native →
    ∃ d ∈ B.definitions, d.NotedFor B.hierarchy B.options w.slots r
  /-- Types list their fields once. -/
  once : ∀ (i : Nat) (r : TypeRecord), w.program.types[i]? = some r → r.fields.Nodup

/-- What every step preserves. -/
structure Site.Sound (B : Blueprint) (w : Site) : Prop extends Site.Known B w where
  /-- Only complete types have places for their fields, and only for those of instances. -/
  unplaced : ∀ i f, w.program.Lists i f → (∀ l, ¬ w.program.LaidOut i l) ∨ (w.program.field f).isStatic →
    ∃ r, w.program.fields[f.index]? = some r ∧ r.slot = none
  laid : ∀ i l, w.program.LaidOut i l → w.program.Laid i l
  /-- Complete types are known to be complete. -/
  complete : ∀ key i l, w.slots.read (.type key) = .ok (.defined ⟨i, key.name⟩) → w.program.LaidOut i l →
    ∃ c, w.slots.read (.completed key) = .ok c

namespace Site

variable {B : Blueprint} {w w' : Site}

namespace Known

theorem named (h : Known B w) : Slots.Named w.slots := by
  intro key ty hty
  obtain ⟨i, r, rfl, -⟩ := h.typeSlot key ty hty
  rfl

theorem ranged (h : Known B w) : w.program.Ranged where
  methods i r hr m hm := by
    obtain ⟨d, -, member, -, key, routine, -, hat⟩ := h.routineKnown i m ⟨r, hr, hm⟩
    obtain ⟨record, hrecord, -⟩ := hat.record
    exact (Array.getElem?_eq_some_iff.mp hrecord).1
  fields i r hr f hf := by
    obtain ⟨d, -, fd, -, hat⟩ := h.fieldKnown i f ⟨r, hr, hf⟩
    obtain ⟨record, hrecord, -⟩ := hat.record
    exact (Array.getElem?_eq_some_iff.mp hrecord).1

/-- A field is listed by one type, and known by its number. -/
theorem field_unique (h : Known B w) {i j : Nat} {f g : FieldId} (hf : w.program.Lists i f) (hg : w.program.Lists j g)
    (hindex : f.index = g.index) : i = j ∧ f = g := by
  obtain ⟨d, -, fd, -, hat⟩ := h.fieldKnown i f hf
  obtain ⟨d', -, fd', -, hat'⟩ := h.fieldKnown j g hg
  obtain ⟨r, hr, howner, hname, -⟩ := hat.record
  obtain ⟨r', hr', howner', hname', -⟩ := hat'.record
  rw [← hindex, hr] at hr'
  cases hr'
  obtain ⟨rfl, hkey⟩ := TypeId.mk.inj (Ty.defined.inj (howner.symm.trans howner'))
  have htext : f.name = g.name := by rw [hat.name, hat'.name, ← hname, ← hname', hkey]
  obtain ⟨fi, fn⟩ := f
  obtain ⟨gi, gn⟩ := g
  cases hindex
  cases htext
  exact ⟨rfl, rfl⟩

/-- The type of a definition is what its key stands for. -/
theorem typeAt (h : Known B w) (hd : d ∈ B.definitions) (hread : w.slots.read (.type d.key) = .ok (.defined id))
    : id = ⟨id.index, d.key.name⟩ ∧ d.TypeAt w id.index := by
  obtain ⟨i, r, hid, hr, hname⟩ := h.typeSlot d.key _ hread
  cases hid
  obtain ⟨d', hd', hat⟩ := h.typeKnown i r hr
  obtain ⟨r', hr', hname', -⟩ := hat.record
  cases hr.symm.trans hr'
  have hkey : d'.key = d.key := congrArg TypeKey.mk (hname'.symm.trans hname)
  obtain rfl := List.inj_on_of_nodup_map B.distinct hd' hd hkey
  exact ⟨rfl, hat⟩

/-- The instance fields of a type, each with its own number. -/
theorem nodup_ownFields (h : Known B w) (hr : w.program.types[id.index]? = some r) :
    ((w.program.ownFields id).map (·.index)).Nodup := by
  refine List.Nodup.map_on (fun f hf g hg hindex => ?_) ?_
  · have hf := ((Program.mem_ownFields hr).mp hf).1
    have hg := ((Program.mem_ownFields hr).mp hg).1
    exact (h.field_unique hf hg hindex).2
  · rw [Program.ownFields, Program.type_eq hr]
    exact (h.once _ r hr).filter _

/-- Growth keeps everything known when all that is new is known. -/
theorem grow (h : Known B w) (hgrows : Grows w w')
    (htypes : ∀ key (ty : Ty), w'.slots.read (.type key) = .ok ty → w.slots.read (.type key) = .ok ty ∨
      ∃ i r, ty = .defined ⟨i, key.name⟩ ∧ w'.program.types[i]? = some r ∧ r.name = key.name)
    (hsame : ∀ (i : Nat) (r' : TypeRecord), w'.program.types[i]? = some r' → (∃ r, w.program.types[i]? = some r) ∨
      ∃ d ∈ B.definitions, d.TypeAt w' i)
    (hlists : ∀ i f, w'.program.Lists i f → w.program.Lists i f ∨
      ∃ d ∈ B.definitions, ∃ fd, .field fd ∈ d.members ∧ d.FieldAt w' fd i f)
    (hcalls : ∀ i m, w'.program.Calls i m → w.program.Calls i m ∨ ∃ d ∈ B.definitions, ∃ member ∈ d.members,
      ∃ key routine, d.Offers member key routine ∧ d.RoutineAt w' key routine i m)
    (hroutines : ∀ key m, Slots.Routine w'.slots key m → Slots.Routine w.slots key m ∨
      m.index < w'.program.methods.size)
    (hnatives : ∀ (i : Nat) (r : MethodRecord), w'.program.methods[i]? = some r → r.kind = .native →
      w.program.methods[i]? = some r ∨ ∃ d ∈ B.definitions, d.NotedFor B.hierarchy B.options w.slots r)
    (honce : ∀ (i : Nat) (r : TypeRecord), w'.program.types[i]? = some r → r.fields.Nodup) : Known B w' where
  typeSlot key ty hty := by
    rcases htypes key ty hty with hty | hnew
    · obtain ⟨i, r, rfl, hr, hname⟩ := h.typeSlot key ty hty
      obtain ⟨r', hr', hg⟩ := hgrows.program.types i r hr
      exact ⟨i, r', rfl, hr', hg.name.trans hname⟩
    · exact hnew
  typeKnown i r hr := by
    rcases hsame i r hr with ⟨r, hr⟩ | hknown
    · obtain ⟨d, hd, hat⟩ := h.typeKnown i r hr
      exact ⟨d, hd, hat.mono hgrows⟩
    · exact hknown
  fieldKnown i f hf := by
    rcases hlists i f hf with hf | hknown
    · obtain ⟨d, hd, fd, hfd, hat⟩ := h.fieldKnown i f hf
      exact ⟨d, hd, fd, hfd, hat.mono hgrows⟩
    · exact hknown
  routineKnown i m hm := by
    rcases hcalls i m hm with hm | hknown
    · obtain ⟨d, hd, member, hmember, key, routine, hoffers, hat⟩ := h.routineKnown i m hm
      exact ⟨d, hd, member, hmember, key, routine, hoffers, hat.mono hgrows⟩
    · exact hknown
  routineSlot key m hm := by
    rcases hroutines key m hm with hm | hlt
    · obtain ⟨r, hr, -⟩ := hgrows.program.methods _ _ (Array.getElem?_eq_getElem (h.routineSlot key m hm))
      exact (Array.getElem?_eq_some_iff.mp hr).1
    · exact hlt
  natives i r hr hkind := by
    rcases hnatives i r hr hkind with hr | ⟨d, hd, hnoted⟩
    · obtain ⟨d, hd, hnoted⟩ := h.natives i r hr hkind
      exact ⟨d, hd, hnoted.mono hgrows.slots⟩
    · exact ⟨d, hd, hnoted.mono hgrows.slots⟩
  once := honce

end Known

namespace Sound

/-- Growth that completes no type and moves no field keeps a program sound. -/
theorem grow (h : Sound B w) (hgrows : Grows w w') (hknown : Known B w')
    (htypes : ∀ key (ty : Ty), w'.slots.read (.type key) = .ok ty → w.slots.read (.type key) = .ok ty ∨
      ∃ i r, ty = .defined ⟨i, key.name⟩ ∧ w'.program.types[i]? = some r ∧ r.layout = none)
    (hlists : ∀ i f, w'.program.Lists i f → w.program.Lists i f ∨
      (∀ l, ¬ w.program.LaidOut i l) ∧ ∃ r, w'.program.fields[f.index]? = some r ∧ r.slot = none)
    (hlaid : ∀ i l, w'.program.LaidOut i l → w.program.LaidOut i l)
    (hfields : ∀ (j : Nat) (r : FieldRecord), w.program.fields[j]? = some r → w'.program.fields[j]? = some r) :
    Sound B w' where
  toKnown := hknown
  unplaced i f hf hopen := by
    rcases hlists i f hf with hf | ⟨-, hnone⟩
    · obtain ⟨d, -, fd, -, hat⟩ := h.fieldKnown i f hf
      obtain ⟨r, hr, -⟩ := hat.record
      rw [Program.field_eq (hfields _ r hr), ← Program.field_eq hr] at hopen
      obtain ⟨r, hr, hslot⟩ := h.unplaced i f hf (hopen.imp_left fun hopen l hl => hopen l (hgrows.program.laidOut hl))
      exact ⟨r, hfields _ r hr, hslot⟩
    · exact hnone
  laid i l hl := by
    have hl := hlaid i l hl
    have hold := h.laid i l hl
    refine ⟨fun f hf hstatic => ?_, fun n f hf => ?_, fun r' b hr' hb => ?_⟩
    · rcases hlists i f hf with hf | ⟨hopen, -⟩
      · refine hold.own f hf ?_
        obtain ⟨d, -, fd, -, hat⟩ := h.fieldKnown i f hf
        obtain ⟨r, hr, -⟩ := hat.record
        rw [Program.field_eq hr, ← Program.field_eq (hfields _ r hr), hstatic]
      · exact (hopen l hl).elim
    · obtain ⟨r, hr, hslot, hstatic, j, l', hj, hl'⟩ := hold.placed n f hf
      exact ⟨r, hfields _ r hr, hslot, hstatic, j, l', hgrows.program.lists hj, hgrows.program.laidOut hl'⟩
    · obtain ⟨r, hr, -⟩ := hl
      obtain ⟨r'', hr'', hg⟩ := hgrows.program.types i r hr
      cases hr'.symm.trans hr''
      obtain ⟨inherited, hinherited, hprefix⟩ := hold.base r b hr (hg.base.symm.trans hb)
      exact ⟨inherited, hgrows.program.laidOut hinherited, hprefix⟩
  complete key i l hkey hl := by
    rcases htypes key _ hkey with hkey | ⟨j, r, hj, hr, hnone⟩
    · obtain ⟨c, hc⟩ := h.complete key i l hkey (hlaid i l hl)
      exact ⟨c, hgrows.slots _ _ hc⟩
    · cases hj
      obtain ⟨r', hr', hl⟩ := hl
      cases hr.symm.trans hr'
      cases hnone.symm.trans hl

/-! ## Single steps -/

variable {d : TypeDefinition}

/-- Only the step that defines a type changes what type keys stand for. -/
theorem read_type_of_write {key : ItemKey} {v : handles.At key} (h : slots.write key v = .ok slots')
    (hkey : ∀ k, key ≠ .type k)
    {k : TypeKey} {ty : Ty} (hread : slots'.read (.type k) = .ok ty) : slots.read (.type k) = .ok ty := by
  rwa [Slots.read_write_of_ne h (hkey k)] at hread

theorem routine_of_write {key : ItemKey} {v : handles.At key} (h : slots.write key v = .ok slots')
    (hkey : (∀ k, key ≠ .method k) ∧ ∀ k, key ≠ .constructor k) {k : ItemKey} {m : MethodId} (hm : slots'.Routine k m) :
    slots.Routine k m := by
  cases hm with
  | method hm => exact .method (by rwa [Slots.read_write_of_ne h (hkey.1 _)] at hm)
  | constructor hm => exact .constructor (by rwa [Slots.read_write_of_ne h (hkey.2 _)] at hm)

theorem sound_type (h : Sound B w) (hd : d ∈ B.definitions)
    (haction : (d.typeStep machine).action.exec w = (.ok (), w')) :
    Sound B w' ∧ Grows w w' ∧ ∃ i, d.TypeAt w' i := by
  obtain ⟨base, interfaces, hbase, hinterfaces, hfree, hprogram, hwrite⟩ := TypeDefinition.of_typeStep h.named haction
  have hgrows : Grows w w' := ⟨Slots.grows_of_write hwrite, hprogram ▸ Program.withType_grows _⟩
  have hnew : w'.program.types[w.program.types.size]? =
      some { name := d.key.name, attributes := d.attributes, base, interfaces } := by
    rw [hprogram]
    exact Array.getElem?_push_size
  have hat : d.TypeAt w' w.program.types.size :=
    ⟨Slots.read_of_write hwrite, _, hnew, rfl, rfl, rel_denotes_mono hbase hgrows,
      forall₂_denotes_mono hinterfaces hgrows⟩
  have hslots {key : TypeKey} {ty : Ty} (hty : w'.slots.read (.type key) = .ok ty) : w.slots.read (.type key) = .ok ty ∨
      key = d.key ∧ ty = .defined ⟨w.program.types.size, key.name⟩ := by
    by_cases hkey : d.key = key
    · subst hkey
      exact .inr ⟨rfl, Except.ok.inj (hty.symm.trans hat.slot)⟩
    · rw [Slots.read_write_of_ne hwrite fun hk => hkey (ItemKey.type.inj hk)] at hty
      exact .inl hty
  -- The new type has no members yet.
  have hold {i : Nat} {r : TypeRecord} (hr : w'.program.types[i]? = some r) :
      w.program.types[i]? = some r ∨ i = w.program.types.size ∧ r.fields = [] ∧ r.methods = [] ∧ r.layout = none := by
    rw [hprogram] at hr
    rcases Program.withType_cases hr with hr | ⟨hi, rfl⟩
    · exact .inl hr
    · exact .inr ⟨hi, rfl, rfl, rfl⟩
  have hlists {i : Nat} {f : FieldId} (hf : w'.program.Lists i f) : w.program.Lists i f := by
    obtain ⟨r, hr, hf⟩ := hf
    rcases hold hr with hr | ⟨-, hnone, -⟩
    · exact ⟨r, hr, hf⟩
    · rw [hnone] at hf
      cases hf
  have hfields : w'.program.fields = w.program.fields := by rw [hprogram]; rfl
  have hmethods : w'.program.methods = w.program.methods := by rw [hprogram]; rfl
  have hknown : Known B w' := by
    refine h.toKnown.grow hgrows (fun key ty hty => ?_) (fun i r hr => ?_) (fun i f hf => .inl (hlists hf))
      (fun i m hm => .inl ?_) (fun key m hm => .inl (routine_of_write hwrite (by simp) hm))
      (fun i r hr _ => .inl (hmethods ▸ hr)) (fun i r hr => ?_)
    · rcases hslots hty with hty | ⟨rfl, rfl⟩
      · exact .inl hty
      · exact .inr ⟨_, _, rfl, hnew, rfl⟩
    · rcases hold hr with hr | ⟨rfl, -⟩
      · exact .inl ⟨r, hr⟩
      · exact .inr ⟨d, hd, hat⟩
    · obtain ⟨r, hr, hm⟩ := hm
      rcases hold hr with hr | ⟨-, -, hnone, -⟩
      · exact ⟨r, hr, hm⟩
      · rw [hnone] at hm
        cases hm
    · rcases hold hr with hr | ⟨-, hnone, -⟩
      · exact h.once i r hr
      · rw [hnone]
        exact List.nodup_nil
  refine ⟨h.grow hgrows hknown (fun key ty hty => ?_) (fun i f hf => .inl (hlists hf)) (fun i l hl => ?_)
    (fun j r hr => by rw [hfields, hr]), hgrows, _, hat⟩
  · rcases hslots hty with hty | ⟨rfl, rfl⟩
    · exact .inl hty
    · exact .inr ⟨_, _, rfl, hnew, rfl⟩
  · obtain ⟨r, hr, hl⟩ := hl
    rcases hold hr with hr | ⟨-, -, -, hnone⟩
    · exact ⟨r, hr, hl⟩
    · cases hnone.symm.trans hl

theorem sound_field (h : Sound B w) (hd : d ∈ B.definitions) {f : FieldDefinition} (hf : .field f ∈ d.members)
    (haction : (d.fieldStep machine f).action.exec w = (.ok (), w')) :
    Sound B w' ∧ Grows w w' ∧ ∃ i handle, d.FieldAt w' f i handle := by
  obtain ⟨⟨i, _⟩, ty, hread, hty, hlayout, hprogram, hwrite⟩ := TypeDefinition.of_fieldStep h.named haction
  obtain ⟨hid, htype⟩ := h.typeAt hd hread
  cases hid
  obtain ⟨record, hrecord, hname, -⟩ := htype.record
  rw [Program.type_eq hrecord] at hlayout hprogram hwrite
  rw [hname] at hprogram hwrite
  have hgrows : Grows w w' := ⟨Slots.grows_of_write hwrite, hprogram ▸ Program.withField_grows _ _ _⟩
  have hnew : w'.program.fields[w.program.fields.size]? =
      some { owner := .defined ⟨i, d.key.name⟩, name := f.name, type := ty, isStatic := f.attributes.isStatic } := by
    rw [hprogram]
    exact Array.getElem?_push_size
  have hlisted : w'.program.Lists i (w.program.nextField d.key.name f.name) := by
    rw [hprogram]
    exact ⟨_, Program.modify_types hrecord, by simp⟩
  have hat : d.FieldAt w' f i (w.program.nextField d.key.name f.name) :=
    ⟨hgrows.slots _ _ hread, Slots.read_of_write hwrite, rfl, hlisted, _, hnew, rfl, rfl, hty.mono hgrows.slots, rfl⟩
  have hmethods : w'.program.methods = w.program.methods := by rw [hprogram]; rfl
  have htypes : w'.program.types = w.program.types.modify i
      fun t => { t with fields := t.fields ++ [w.program.nextField d.key.name f.name] } := by rw [hprogram]; rfl
  have hlists {j : Nat} {g : FieldId} (hg : w'.program.Lists j g) :
      w.program.Lists j g ∨ j = i ∧ g = w.program.nextField d.key.name f.name := by
    rw [hprogram] at hg
    exact Program.withField_lists hg
  have hknown : Known B w' := by
    refine h.toKnown.grow hgrows (fun key ty hty => .inl (read_type_of_write hwrite (by simp) hty))
      (fun j r hr => .inl ?_)
      (fun j g hg => ?_) (fun j m hm => .inl (Program.calls_of_modify htypes (fun _ => rfl) hm))
      (fun key m hm => .inl (routine_of_write hwrite (by simp) hm)) (fun j r hr _ => .inl (hmethods ▸ hr))
        (fun j r hr => ?_)
    · obtain ⟨r, hr, -⟩ := Program.types_modify (htypes ▸ hr)
      exact ⟨r, hr⟩
    · rcases hlists hg with hg | ⟨rfl, rfl⟩
      · exact .inl hg
      · exact .inr ⟨d, hd, f, hf, hat⟩
    · obtain ⟨r, hr', rfl⟩ := Program.types_modify (htypes ▸ hr)
      split
      · refine List.nodup_append.mpr ⟨h.once j r hr', List.nodup_singleton _, fun a ha b hb heq => ?_⟩
        -- All that is listed has a smaller number.
        rw [heq, List.mem_singleton.mp hb] at ha
        exact Nat.lt_irrefl _ (h.ranged.fields j r hr' _ ha)
      · exact h.once j r hr'
  refine ⟨h.grow hgrows hknown (fun key ty hty => .inl (read_type_of_write hwrite (by simp) hty)) (fun j g hg => ?_)
    (fun j l hl => Program.laidOut_of_modify htypes (fun _ => rfl) hl) (fun j r hr => ?_), hgrows, i, _, hat⟩
  · rcases hlists hg with hg | ⟨rfl, rfl⟩
    · exact .inl hg
    · refine .inr ⟨fun l hl => ?_, _, hnew, rfl⟩
      obtain ⟨r, hr, hl⟩ := hl
      cases hrecord.symm.trans hr
      cases hlayout.symm.trans hl
  · rw [hprogram]
    exact Program.getElem?_push_of_some hr

/-- A routine that is added under a key that was free. -/
theorem sound_routine (h : Sound B w) (hd : d ∈ B.definitions) {member : Member} (hmember : member ∈ d.members)
    {key : ItemKey} (hoffers : d.Offers member key routine) {m : MethodId} {p : Program}
      (hadds : TypeDefinition.AddsRoutine w d routine id m p)
    {v : handles.At key} (hwrote : TypeDefinition.Wrote w p key v w') (hroutine : Slots.Routine w'.slots key m)
    (hroutines : ∀ k n, Slots.Routine w'.slots k n → Slots.Routine w.slots k n ∨ n = m) (hkey : ∀ k, key ≠ .type k) :
    Sound B w' ∧ Grows w w' ∧ ∃ i m, d.RoutineAt w' key routine i m := by
  obtain ⟨i, _⟩ := id
  obtain ⟨hread, hlayout, params, ret, hparams, hret, hm, rfl⟩ := hadds
  obtain ⟨hprogram, hwrite⟩ := hwrote
  obtain ⟨hid, htype⟩ := h.typeAt hd hread
  cases hid
  obtain ⟨record, hrecord, hname, -⟩ := htype.record
  have hgrows : Grows w w' := ⟨Slots.grows_of_write hwrite, hprogram ▸ Program.withMethod_grows _ _ _⟩
  have hindex : m.index = w.program.methods.size := by rw [hm]; rfl
  have hnew : w'.program.methods[m.index]? = some (routine.record (.defined ⟨i, d.key.name⟩) params ret) := by
    rw [hprogram, hindex]
    exact Array.getElem?_push_size
  have hlisted : w'.program.Calls i m := by
    rw [hprogram]
    exact ⟨_, Program.modify_types hrecord, by simp⟩
  have hkind : if routine.isAbstract then (routine.record (.defined ⟨i, d.key.name⟩) params ret).kind = .abstract
      else ∃ code, (routine.record (.defined ⟨i, d.key.name⟩) params ret).kind = .defined code := by
    by_cases habstract : routine.isAbstract = true
    · rw [if_pos habstract]
      exact if_pos habstract
    · rw [if_neg habstract]
      exact ⟨none, if_neg habstract⟩
  have hat : d.RoutineAt w' key routine i m :=
    ⟨hgrows.slots _ _ hread, hroutine, by rw [hm]; rfl, hlisted, _, hnew, rfl, rfl,
      forall₂_resolves_mono hparams hgrows.slots, hret.mono hgrows.slots, rfl, rfl, hkind⟩
  have htypes : w'.program.types = w.program.types.modify i fun t => { t with methods := t.methods ++ [m] } := by
    rw [hprogram]
    rfl
  have hlists {j : Nat} {g : FieldId} (hg : w'.program.Lists j g) : w.program.Lists j g :=
    Program.lists_of_modify htypes (fun _ => rfl) hg
  have hknown : Known B w' := by
    refine h.toKnown.grow hgrows (fun key ty hty => .inl (read_type_of_write hwrite hkey hty)) (fun j r hr => .inl ?_)
      (fun j g hg => .inl (hlists hg)) (fun j n hn => ?_) (fun k n hn => ?_) (fun j r hr hnative => ?_)
        (fun j r hr => ?_)
    · obtain ⟨r, hr, -⟩ := Program.types_modify (htypes ▸ hr)
      exact ⟨r, hr⟩
    · rw [hprogram] at hn
      rcases Program.withMethod_calls hn with hn | ⟨rfl, rfl⟩
      · exact .inl hn
      · exact .inr ⟨d, hd, member, hmember, key, routine, hoffers, hat⟩
    · rcases hroutines k n hn with hn | rfl
      · exact .inl hn
      · exact .inr (Array.getElem?_eq_some_iff.mp hnew).1
    · rw [hprogram, Program.withMethod, Array.getElem?_push] at hr
      split at hr
      · -- The new routine is none of the machine's.
        cases hr
        split at hkind
        · cases hkind.symm.trans hnative
        · obtain ⟨code, hcode⟩ := hkind
          cases hcode.symm.trans hnative
      · exact .inl hr
    · obtain ⟨r, hr', rfl⟩ := Program.types_modify (htypes ▸ hr)
      split <;> exact h.once j r hr'
  exact ⟨h.grow hgrows hknown (fun key ty hty => .inl (read_type_of_write hwrite hkey hty))
    (fun j g hg => .inl (hlists hg))
    (fun j l hl => Program.laidOut_of_modify htypes (fun _ => rfl) hl) (fun j r hr => by rw [hprogram]; exact hr),
    hgrows, i, m, hat⟩

theorem type_attributes (h : Sound B w) (hd : d ∈ B.definitions) (id : TypeId)
    (hread : w.slots.read (.type d.key) = .ok (.defined id)) : (w.program.type id).attributes = d.attributes := by
  obtain ⟨record, hrecord, -, hattributes, -⟩ := (h.typeAt hd hread).2.record
  rw [Program.type_eq hrecord, hattributes]

theorem sound_method (h : Sound B w) (hd : d ∈ B.definitions) {m : MethodDefinition} {key : MethodKey}
    (hm : .method m ∈ d.members) (hkey : d.methodKey m = .ok key)
    (haction : (d.methodStep machine key m).action.exec w = (.ok (), w')) :
    Sound B w' ∧ Grows w w' ∧ ∃ i handle, d.RoutineAt w' (.method key) (d.methodRoutine key m) i handle := by
  obtain ⟨id, handle, p, hadds, hwrote⟩ := TypeDefinition.of_methodStep h.named (h.type_attributes hd) haction
  refine h.sound_routine hd hm (.method hkey) hadds hwrote (.method (Slots.read_of_write hwrote.slots))
    (fun k n hn => ?_) (by simp)
  cases hn with
  | @method k _ hn =>
    by_cases hk : key = k
    · subst hk
      exact .inr (Except.ok.inj (hn.symm.trans (Slots.read_of_write hwrote.slots)))
    · rw [Slots.read_write_of_ne hwrote.slots fun h => hk (ItemKey.method.inj h)] at hn
      exact .inl (.method hn)
  | constructor hn =>
    rw [Slots.read_write_of_ne hwrote.slots (by simp)] at hn
    exact .inl (.constructor hn)

theorem sound_constructor (h : Sound B w) (hd : d ∈ B.definitions) {c : ConstructorDefinition} {key : ConstructorKey}
    (hc : .constructor c ∈ d.members) (hkey : d.constructorKey c = .ok key)
    (haction : (d.constructorStep machine key c).action.exec w = (.ok (), w')) :
    Sound B w' ∧ Grows w w' ∧ ∃ i handle, d.RoutineAt w' (.constructor key)
      (TypeDefinition.constructorRoutine key) i handle := by
  obtain ⟨id, handle, p, hadds, hwrote⟩ := TypeDefinition.of_constructorStep h.named haction
  refine h.sound_routine hd hc (.constructor hkey) hadds hwrote (.constructor (Slots.read_of_write hwrote.slots))
    (fun k n hn => ?_) (by simp)
  cases hn with
  | @constructor k _ hn =>
    by_cases hk : key = k
    · subst hk
      exact .inr (Except.ok.inj (hn.symm.trans (Slots.read_of_write hwrote.slots)))
    · rw [Slots.read_write_of_ne hwrote.slots fun h => hk (ItemKey.constructor.inj h)] at hn
      exact .inl (.constructor hn)
  | method hn =>
    rw [Slots.read_write_of_ne hwrote.slots (by simp)] at hn
    exact .inl (.method hn)

theorem sound_property (h : Sound B w) (hd : d ∈ B.definitions) {p : PropertyDefinition} (hp : .property p ∈ d.members)
    (haction : (d.propertyStep machine p).action.exec w = (.ok (), w')) : Sound B w' ∧ Grows w w' := by
  obtain ⟨q, i, id, hnotes, hfields, hmethods, htypes, hwrite⟩ :=
    TypeDefinition.of_propertyStep h.named h.ranged haction
  rw [hnotes.fields] at hfields
  rw [hnotes.types] at htypes
  have hold {j : Nat} {r : MethodRecord} (hr : w.program.methods[j]? = some r) : w'.program.methods[j]? = some r := by
    rw [hmethods, hnotes.methods hr]
  have hgrows : Grows w w' := by
    refine ⟨Slots.grows_of_write hwrite, Program.grows_of_modify (fun r _ => ?_) htypes
      (fun j r hr => ⟨r, by rw [hfields, hr], .refl r⟩) (fun j r hr => ⟨r, hold hr, .refl r⟩)⟩
    exact ⟨rfl, rfl, rfl, rfl, List.prefix_refl _, List.prefix_refl _, fun _ hl => hl⟩
  have hlists {j : Nat} {f : FieldId} (hf : w'.program.Lists j f) : w.program.Lists j f :=
    Program.lists_of_modify htypes (fun _ => rfl) hf
  have hknown : Known B w' := by
    refine h.toKnown.grow hgrows (fun key ty hty => .inl (read_type_of_write hwrite (by simp) hty))
      (fun j r hr => .inl ?_)
      (fun j f hf => .inl (hlists hf)) (fun j m hm => .inl (Program.calls_of_modify htypes (fun _ => rfl) hm))
      (fun key m hm => .inl (routine_of_write hwrite (by simp) hm)) (fun j r hr _ => ?_) (fun j r hr => ?_)
    · obtain ⟨r, hr, -⟩ := Program.types_modify (htypes ▸ hr)
      exact ⟨r, hr⟩
    · rcases hnotes.cases (hmethods ▸ hr) with hr | ⟨-, -, hnoted⟩
      · exact .inl hr
      · exact .inr ⟨d, hd, .inl ⟨p, hp, hnoted⟩⟩
    · obtain ⟨r, hr', rfl⟩ := Program.types_modify (htypes ▸ hr)
      split <;> exact h.once j r hr'
  exact ⟨h.grow hgrows hknown (fun key ty hty => .inl (read_type_of_write hwrite (by simp) hty))
    (fun j f hf => .inl (hlists hf))
    (fun j l hl => Program.laidOut_of_modify htypes (fun _ => rfl) hl) (fun j r hr => by rw [hfields, hr]), hgrows⟩

/-- A body that is handed over for a routine that has none. -/
theorem sound_body (h : Sound B w) (hd : d ∈ B.definitions) {member : Member} (hmember : member ∈ d.members)
    {block : Block} (hblock : d.Writes B.hierarchy B.options member block) {key : ItemKey} {m : MethodId}
      (hslot : Slots.Routine w.slots key m)
    (hwrites : TypeDefinition.WritesBody w m block w') :
    Sound B w' ∧ Grows w w' ∧ TypeDefinition.BodyAt w' key block := by
  obtain ⟨hslots, q, code, hnotes, hnone, hprogram, hinstalls⟩ := hwrites
  have htypes : w'.program.types = w.program.types := by rw [hprogram]; exact hnotes.types
  have hfields : w'.program.fields = w.program.fields := by rw [hprogram]; exact hnotes.fields
  have hmethods : w'.program.methods = q.methods.modify m.index fun r => { r with kind := .defined (some code) } := by
    rw [hprogram]
    rfl
  have hgrown : q.Grows w'.program := hprogram ▸ Program.withBody_grows hnone
  have hgrows : Grows w w' := ⟨hslots ▸ .refl _, hnotes.grows.trans hgrown⟩
  obtain ⟨record, hrecord⟩ : ∃ r, w.program.methods[m.index]? = some r :=
    ⟨_, Array.getElem?_eq_getElem (h.routineSlot key m hslot)⟩
  have hnew : w'.program.methods[m.index]? = some { record with kind := .defined (some code) } := by
    rw [hmethods, Array.getElem?_modify, if_pos rfl, hnotes.methods hrecord]
    rfl
  have hat : TypeDefinition.BodyAt w' key block :=
    ⟨m, _, code, hslots ▸ hslot, hnew, rfl, fun hb => (hinstalls hb).mono ⟨rfl, hgrows.slots, hgrown⟩⟩
  have hlists {j : Nat} {f : FieldId} (hf : w'.program.Lists j f) : w.program.Lists j f := by
    unfold Program.Lists at hf ⊢
    rwa [htypes] at hf
  have hknown : Known B w' := by
    refine h.toKnown.grow hgrows (fun key ty hty => .inl (hslots ▸ hty)) (fun j r hr => .inl ⟨r, htypes ▸ hr⟩)
      (fun j f hf => .inl (hlists hf)) (fun j n hn => .inl ?_) (fun key m hm => .inl (hslots ▸ hm))
        (fun j r hr hnative => ?_)
      (fun j r hr => h.once j r (htypes ▸ hr))
    · unfold Program.Calls at hn ⊢
      rwa [htypes] at hn
    · rw [hmethods, Array.getElem?_modify] at hr
      split at hr
      · -- What has been given a body is none of the machine's.
        obtain ⟨r, -, rfl⟩ := Option.map_eq_some_iff.mp hr
        cases hnative
      · rcases hnotes.cases hr with hr | ⟨-, -, i, hi, hnoted⟩
        · exact .inl hr
        · exact .inr ⟨d, hd, .inr ⟨member, hmember, block, hblock, i, hi, hnoted⟩⟩
  refine ⟨h.grow hgrows hknown (fun key ty hty => .inl (hslots ▸ hty)) (fun j f hf => .inl (hlists hf))
    (fun j l hl => ?_) (fun j r hr => by rw [hfields, hr]), hgrows, hat⟩
  unfold Program.LaidOut at hl ⊢
  rwa [htypes] at hl

theorem completable (h : Sound B w) {inherited : List FieldId} (hr : w.program.types[id.index]? = some r)
    (hopen : ∀ l, ¬ w.program.LaidOut id.index l) (hinherited : w.program.inheritedLayout id = .ok inherited)
    : w.program.Completable id inherited where
  record := ⟨r, hr⟩
  unfinished := hopen
  inherits := hinherited
  once := h.nodup_ownFields hr
  alone _ _ _ hf hg hindex := (h.field_unique hf ((Program.mem_ownFields hr).mp hg).1 hindex).1
  unplaced f hf := h.unplaced _ f ((Program.mem_ownFields hr).mp hf).1 (.inl hopen)

theorem sound_finalize (h : Sound B w) (hd : d ∈ B.definitions)
    (haction : (d.finalizeStep machine).action.exec w = (.ok (), w')) :
    Sound B w' ∧ Grows w w' ∧ ∃ i, d.CompleteAt w' i := by
  obtain ⟨⟨i, _⟩, inherited, hread, hinherited, -, hprogram, hwrite⟩ := TypeDefinition.of_finalizeStep haction
  obtain ⟨hid, htype⟩ := h.typeAt hd hread
  cases hid
  obtain ⟨record, hrecord, hname, -⟩ := htype.record
  -- Nobody has completed the type before.
  have hopen (l : List FieldId) (hl : w.program.LaidOut i l) : False := by
    obtain ⟨c, hc⟩ := h.complete d.key i l hread hl
    exact Slots.not_read_of_write hwrite hc
  have hc : w.program.Completable ⟨i, d.key.name⟩ inherited := h.completable hrecord hopen hinherited
  have hgrows : Grows w w' := ⟨Slots.grows_of_write hwrite, hprogram ▸ hc.grows⟩
  have hlaid := hc.laidOut
  have htypes := hc.types
  have hmethods := hc.methods
  have hother := @hc.other
  have hcases := @hc.laidOut_cases
  have hall := hc.laid (fun j f ⟨r, hr, hf⟩ => h.ranged.fields j r hr f hf) h.laid
  rw [← hprogram] at hlaid htypes hmethods hother hcases hall
  have hkey {key : TypeKey} {ty : Ty} (hty : w'.slots.read (.type key) = .ok ty) : w.slots.read (.type key) = .ok ty :=
    read_type_of_write hwrite (by simp) hty
  have hlists {j : Nat} {f : FieldId} (hf : w'.program.Lists j f) : w.program.Lists j f :=
    Program.lists_of_modify htypes (fun _ => rfl) hf
  have hknown : Known B w' := by
    refine h.toKnown.grow hgrows (fun key ty hty => .inl (hkey hty)) (fun j r hr => .inl ?_)
      (fun j f hf => .inl (hlists hf)) (fun j m hm => .inl (Program.calls_of_modify htypes (fun _ => rfl) hm))
      (fun key m hm => .inl (routine_of_write hwrite (by simp) hm)) (fun j r hr _ => .inl (hmethods ▸ hr))
        (fun j r hr => ?_)
    · obtain ⟨r, hr, -⟩ := Program.types_modify (htypes ▸ hr)
      exact ⟨r, hr⟩
    · obtain ⟨r, hr', rfl⟩ := Program.types_modify (htypes ▸ hr)
      split <;> exact h.once j r hr'
  -- Fields without a place keep their records: those of other types, and static ones.
  have hkept {j : Nat} {f : FieldId} (hf : w.program.Lists j f) (hfree : j = i → (w.program.field f).isStatic) :
      w'.program.fields[f.index]? = w.program.fields[f.index]? := by
    by_cases hj : j = i
    · rw [hprogram]
      refine Program.placeFields_of_not_mem (fun hindex => ?_) _ _
      obtain ⟨g, hg, hindex⟩ := List.mem_map.mp hindex
      obtain ⟨hlisted, hinstance⟩ := (Program.mem_ownFields hrecord).mp hg
      obtain ⟨-, rfl⟩ := h.field_unique hlisted hf hindex
      cases hinstance.symm.trans (hfree hj)
    · exact hother hf hj
  have hstatic {j : Nat} {f : FieldId} (hf : w.program.Lists j f) :
      (w'.program.field f).isStatic = (w.program.field f).isStatic := by
    obtain ⟨d, -, fd, -, hat⟩ := h.fieldKnown j f hf
    obtain ⟨r, hr, -⟩ := hat.record
    obtain ⟨r', hr', hg⟩ := hgrows.program.fields _ r hr
    rw [Program.field_eq hr, Program.field_eq hr', hg.isStatic]
  refine ⟨⟨hknown, fun j f hf hfree => ?_, hall, fun key j l hread' hl => ?_⟩, hgrows, i,
    hgrows.slots _ _ hread, _, hlaid⟩
  · rw [hstatic (hlists hf)] at hfree
    rw [hkept (hlists hf) fun hj => hfree.resolve_left fun hfree => hfree _ (hj ▸ hlaid)]
    exact h.unplaced j f (hlists hf) (hfree.imp_left fun hfree l hl => hfree l (hgrows.program.laidOut hl))
  · rcases hcases hl with ⟨rfl, rfl⟩ | ⟨-, hl⟩
    · obtain ⟨j', r, hj', hr, hname'⟩ := h.typeSlot key _ (hkey hread')
      cases hj'
      cases hrecord.symm.trans hr
      obtain rfl : d.key = key := congrArg TypeKey.mk (hname.symm.trans hname')
      exact ⟨_, Slots.read_of_write hwrite⟩
    · obtain ⟨c, hcompleted⟩ := h.complete key j l (hkey hread') hl
      exact ⟨c, hgrows.slots _ _ hcompleted⟩

end Sound

end Site

/-! ## Steps of a definition -/

namespace TypeDefinition

section

variable (d : TypeDefinition) (h : Hierarchy) (options : BuildOptions)

/-- The step that defines a member. -/
inductive DefinesStep : Member → Step machine → Prop
  | field {f} : DefinesStep (.field f) (d.fieldStep machine f)
  | property {p} : DefinesStep (.property p) (d.propertyStep machine p)
  | method {m key} : d.methodKey m = .ok key → DefinesStep (.method m) (d.methodStep machine key m)
  | constructor {c key} : d.constructorKey c = .ok key → DefinesStep (.constructor c) (d.constructorStep machine key c)

/-- The step that writes the body of a member. -/
inductive WritesStep : Member → ItemKey → Block → Step machine → Prop
  | method {m key block} : d.methodKey m = .ok key → d.Writes h options (.method m) block →
      WritesStep (.method m) (.method key) block (methodBodyStep machine key block)
  | constructor {c key block} : d.constructorKey c = .ok key → d.Writes h options (.constructor c) block →
      WritesStep (.constructor c) (.constructor key) block (constructorBodyStep machine key block)

/-- The steps that build a definition. -/
inductive HasStep : Step machine → Prop
  | type : HasStep (d.typeStep machine)
  | defines {member step} : member ∈ d.members → d.DefinesStep member step → HasStep step
  | writes {member key block step} : member ∈ d.members → d.WritesStep h options member key block step → HasStep step
  | finalize : HasStep (d.finalizeStep machine)

end

/-- Whether there is a body to write. -/
def hasBody : Member → Bool
  | .method m => !MethodBody.isAbstract m.body
  | .constructor _ => true
  | _ => false

variable {d : TypeDefinition} {h : Hierarchy} {options : BuildOptions} {s t : Supply}

/-- A member is defined in one step, and its body is written in another. -/
theorem MemberSteps.cases {member : Member} (hs : MemberSteps machine d h options member s defined bodies t) :
    ∃ step, d.DefinesStep member step ∧ defined = [step] ∧
      (hasBody member = false ∧ bodies = [] ∨
        ∃ key block step, d.WritesStep h options member key block step ∧ bodies = [step]) := by
  cases hs with
  | field => exact ⟨_, .field, rfl, .inl ⟨rfl, rfl⟩⟩
  | property => exact ⟨_, .property, rfl, .inl ⟨rfl, rfl⟩⟩
  | abstract hbody hkey => exact ⟨_, .method hkey, rfl, .inl ⟨by rw [hasBody, hbody]; rfl, rfl⟩⟩
  | code hbody hkey => exact ⟨_, .method hkey, rfl, .inr ⟨_, _, _, .method hkey (.method hbody), rfl⟩⟩
  | expr hbody hkey hc => exact ⟨_, .method hkey, rfl, .inr ⟨_, _, _, .method hkey (.compiled (.method hbody hc)), rfl⟩⟩
  | constructorCode hbody hkey =>
    exact ⟨_, .constructor hkey, rfl, .inr ⟨_, _, _, .constructor hkey (.constructor hbody), rfl⟩⟩
  | constructorExpr hbody hkey hc =>
    exact ⟨_, .constructor hkey, rfl, .inr ⟨_, _, _, .constructor hkey (.compiled (.constructor hbody hc)), rfl⟩⟩

theorem MembersSteps.hasStep (hs : MembersSteps machine d h options ms s defined bodies t) (hms : ms ⊆ d.members) :
    (∀ step ∈ defined, d.HasStep h options step) ∧ ∀ step ∈ bodies, d.HasStep h options step := by
  induction hs with
  | nil => simp
  | cons hfirst _ ih =>
    obtain ⟨step, hdefines, rfl, hbodies⟩ := hfirst.cases
    obtain ⟨hmember, hms⟩ := List.cons_subset.mp hms
    obtain ⟨hdefined, hwritten⟩ := ih hms
    refine ⟨List.forall_mem_append.mpr ⟨by simpa using .defines hmember hdefines, hdefined⟩,
      List.forall_mem_append.mpr ⟨?_, hwritten⟩⟩
    rcases hbodies with ⟨-, rfl⟩ | ⟨key, block, body, hwrites, rfl⟩
    · simp
    · simpa using .writes hmember hwrites

theorem MembersSteps.mem (hs : MembersSteps machine d h options ms s defined bodies t) : ∀ member ∈ ms,
      (∃ step ∈ defined, d.DefinesStep member step) ∧
      (hasBody member → ∃ key block, ∃ step ∈ bodies, d.WritesStep h options member key block step) := by
  induction hs with
  | nil => simp
  | cons hfirst _ ih =>
    obtain ⟨step, hdefines, rfl, hbodies⟩ := hfirst.cases
    intro member hmember
    rcases List.mem_cons.mp hmember with rfl | hmember
    · refine ⟨⟨step, by simp, hdefines⟩, fun hbody => ?_⟩
      rcases hbodies with ⟨hnone, -⟩ | ⟨key, block, body, hwrites, rfl⟩
      · cases hnone.symm.trans hbody
      · exact ⟨key, block, body, by simp, hwrites⟩
    · obtain ⟨⟨step, hstep, hdefines⟩, hbody⟩ := ih member hmember
      refine ⟨⟨step, List.mem_append_right _ hstep, hdefines⟩, fun hb => ?_⟩
      obtain ⟨key, block, body, hmem, hwrites⟩ := hbody hb
      exact ⟨key, block, body, List.mem_append_right _ hmem, hwrites⟩

/-- The steps of a definition are those of its type and its members. -/
theorem steps_mem {steps : List (Step machine)} (hs : (d.steps machine h options).exec s = (.ok steps, t)) :
    (∀ step ∈ steps, d.HasStep h options step) ∧ d.typeStep machine ∈ steps ∧ d.finalizeStep machine ∈ steps ∧
      ∀ member ∈ d.members, (∃ step ∈ steps, d.DefinesStep member step) ∧
        (hasBody member → ∃ key block, ∃ step ∈ steps, d.WritesStep h options member key block step) := by
  obtain ⟨defined, bodies, hmembers, rfl⟩ := of_steps hs
  obtain ⟨hdefined, hbodies⟩ := hmembers.hasStep (List.Subset.refl _)
  refine ⟨fun step hstep => ?_, by simp, by simp, fun member hmember => ?_⟩
  · simp only [List.cons_append, List.mem_cons, List.mem_append, List.not_mem_nil, or_false] at hstep
    rcases hstep with rfl | (hstep | hstep) | rfl
    · exact .type
    · exact hdefined step hstep
    · exact hbodies step hstep
    · exact .finalize
  · obtain ⟨⟨step, hstep, hdefines⟩, hbody⟩ := hmembers.mem member hmember
    refine ⟨⟨step, by simp [hstep], hdefines⟩, fun hb => ?_⟩
    obtain ⟨key, block, body, hmem, hwrites⟩ := hbody hb
    exact ⟨key, block, body, by simp [hmem], hwrites⟩

theorem WritesStep.of_action {member : Member} {key : ItemKey} {block : Block} {step : Step machine}
    (hstep : d.WritesStep h options member key block step) (hnamed : w.slots.Named) (hp : w.program.Ranged)
    (haction : step.action.exec w = (.ok (), w')) :
    d.Writes h options member block ∧ ∃ m, Slots.Routine w.slots key m ∧ WritesBody w m block w' := by
  cases hstep with
  | method _ hblock => exact ⟨hblock, of_methodBodyStep hnamed hp haction⟩
  | constructor _ hblock => exact ⟨hblock, of_constructorBodyStep hnamed hp haction⟩

end TypeDefinition

/-! ## Builds -/

namespace Site

variable {B : Blueprint} {w w' : Site} {d : TypeDefinition}

theorem Sound.sound_writes (h : Sound B w) (hd : d ∈ B.definitions) {member : Member} (hmember : member ∈ d.members)
    {key : ItemKey} {block : Block} {step : Step machine}
      (hstep : d.WritesStep B.hierarchy B.options member key block step)
    (haction : step.action.exec w = (.ok (), w')) : Sound B w' ∧ Grows w w' ∧ TypeDefinition.BodyAt w' key block := by
  obtain ⟨hblock, m, hslot, hwrites⟩ := hstep.of_action h.named h.ranged haction
  exact h.sound_body hd hmember hblock hslot hwrites

/-- What every step preserves. -/
theorem Sound.step (h : Sound B w) (hd : d ∈ B.definitions) {step : Step machine}
    (hstep : d.HasStep B.hierarchy B.options step)
    (haction : step.action.exec w = (.ok (), w')) : Sound B w' ∧ Grows w w' := by
  cases hstep with
  | type =>
    obtain ⟨hsound, hgrows, -⟩ := h.sound_type hd haction
    exact ⟨hsound, hgrows⟩
  | defines hmember hdefines =>
    cases hdefines with
    | field =>
      obtain ⟨hsound, hgrows, -⟩ := h.sound_field hd hmember haction
      exact ⟨hsound, hgrows⟩
    | property => exact h.sound_property hd hmember haction
    | method hkey =>
      obtain ⟨hsound, hgrows, -⟩ := h.sound_method hd hmember hkey haction
      exact ⟨hsound, hgrows⟩
    | constructor hkey =>
      obtain ⟨hsound, hgrows, -⟩ := h.sound_constructor hd hmember hkey haction
      exact ⟨hsound, hgrows⟩
  | writes hmember hwrites =>
    obtain ⟨hsound, hgrows, -⟩ := h.sound_writes hd hmember hwrites haction
    exact ⟨hsound, hgrows⟩
  | finalize =>
    obtain ⟨hsound, hgrows, -⟩ := h.sound_finalize hd haction
    exact ⟨hsound, hgrows⟩

/-- The step was carried out at some point. -/
def Did (B : Blueprint) (step : Step machine) (w : Site) : Prop :=
  ∃ w₁ w₂, Sound B w₁ ∧ step.action.exec w₁ = (.ok (), w₂) ∧ Grows w₂ w

/-- What holds before the first step, and after every step that is carried out. -/
structure Invariant (B : Blueprint) (P : Site → Prop) : Prop where
  start : ∀ slots, (∀ key v, slots.read key ≠ .ok v) → P { program := {}, slots }
  step : ∀ d ∈ B.definitions, ∀ step, d.HasStep B.hierarchy B.options step → ∀ w w', Sound B w → P w →
    step.action.exec w = (.ok (), w') → P w'

/-- What a run preserves. -/
theorem Invariant.run {P : Site → Prop} (hP : Invariant B P) {steps : List (Step machine)}
    (hsteps : ∀ step ∈ steps, ∃ d ∈ B.definitions, d.HasStep B.hierarchy B.options step) :
    ∀ {order : List Nat} {w w' : Site} {texts : List String}, Sound B w → P w →
      (Step.runAll steps.toArray order).exec w = (.ok texts, w') →
      P w' ∧ Sound B w' ∧ Grows w w' ∧ ∀ i ∈ order, ∀ step, steps[i]? = some step → Did B step w'
  | [], w, w', texts, h, hw, hrun => by
    cases hrun
    exact ⟨hw, h, .refl w, by simp⟩
  | i :: order, w, w', texts, h, hw, hrun => by
    rw [Step.runAll, List.getElem?_toArray] at hrun
    cases hi : steps[i]? with
    | none =>
      rw [hi] at hrun
      obtain ⟨hw', hsound, hgrows, hdid⟩ := hP.run hsteps h hw hrun
      refine ⟨hw', hsound, hgrows, fun j hj step hstep => ?_⟩
      rcases List.mem_cons.mp hj with rfl | hj
      · cases hi.symm.trans hstep
      · exact hdid j hj step hstep
    | some step =>
      rw [hi] at hrun
      obtain ⟨⟨⟩, w₁, hfirst, hrest⟩ := Effect.exec_bind_ok.mp hrun
      obtain ⟨rest, w₂, hrest, hpure⟩ := Effect.exec_bind_ok.mp hrest
      cases hpure
      obtain ⟨d, hd, hhas⟩ := hsteps step (List.mem_of_getElem? hi)
      have haction := Step.of_run hfirst
      obtain ⟨hsound₁, hgrows₁⟩ := h.step hd hhas haction
      obtain ⟨hw', hsound, hgrows, hdid⟩ := hP.run hsteps hsound₁ (hP.step d hd step hhas w w₁ h hw haction) hrest
      refine ⟨hw', hsound, hgrows₁.trans hgrows, fun j hj step' hstep' => ?_⟩
      rcases List.mem_cons.mp hj with rfl | hj
      · cases hi.symm.trans hstep'
        exact ⟨w, w₁, h, haction, hgrows⟩
      · exact hdid j hj step' hstep'

/-- A program without anything, and slots that are still free. -/
theorem sound_empty {slots : Slots handles} (h : ∀ key v, slots.read key ≠ .ok v) :
    Sound B { program := {}, slots } where
  typeSlot key ty hty := (h _ _ hty).elim
  typeKnown i r hr := by simp at hr
  fieldKnown i f hf := by
    obtain ⟨r, hr, -⟩ := hf
    simp at hr
  routineKnown i m hm := by
    obtain ⟨r, hr, -⟩ := hm
    simp at hr
  routineSlot key m hm := by
    cases hm with
    | method hm | constructor hm => exact (h _ _ hm).elim
  natives i r hr _ := by simp at hr
  once i r hr := by simp at hr
  unplaced i f hf := by
    obtain ⟨r, hr, -⟩ := hf
    simp at hr
  laid i l hl := by
    obtain ⟨r, hr, -⟩ := hl
    simp at hr
  complete key i l hkey := (h _ _ hkey).elim

end Site

theorem Slots.not_read_of_state? {H : Handles} {slots : Slots H} {key : ItemKey} (h : slots.state? key ≠ some true)
    (v : H.At key) : slots.read key ≠ .ok v := by
  intro hread
  unfold state? at h
  unfold read at hread
  cases hslot : slots.get? key with
  | none => simp [hslot] at hread
  | some slot =>
    obtain ⟨k, content⟩ := slot
    cases content with
    | none => simp [hslot, Slot.read] at hread
    | some v => exact h (by rw [hslot]; rfl)

/-- Everything has been carried out. -/
structure Blueprint.Realized (B : Blueprint) (w : Site) : Prop extends Site.Sound B w where
  types : ∀ d ∈ B.definitions, ∃ i, d.TypeAt w i
  fields : ∀ d ∈ B.definitions, ∀ f, .field f ∈ d.members → ∃ i handle, d.FieldAt w f i handle
  routines : ∀ d ∈ B.definitions, ∀ member ∈ d.members, ∀ key routine, d.Offers member key routine →
    ∃ i m, d.RoutineAt w key routine i m
  bodies : ∀ d ∈ B.definitions, ∀ member ∈ d.members, TypeDefinition.hasBody member → ∃ key routine block,
    d.Offers member key routine ∧ d.Writes B.hierarchy B.options member block ∧ TypeDefinition.BodyAt w key block
  completed : ∀ d ∈ B.definitions, ∃ i, d.CompleteAt w i

/-- Steps that have all been carried out have realized their definitions. -/
theorem Blueprint.realized_of_did {B : Blueprint} (hsound : Site.Sound B w)
    (hdid : ∀ d ∈ B.definitions, ∃ s steps t, (d.steps machine B.hierarchy B.options).exec s = (.ok steps, t) ∧
      ∀ step ∈ steps, Site.Did B step w) : B.Realized w where
  toSound := hsound
  types d hd := by
    obtain ⟨s, steps, t, hsteps, hdid⟩ := hdid d hd
    obtain ⟨w₁, w₂, hsound₁, haction, hgrows⟩ := hdid _ (TypeDefinition.steps_mem hsteps).2.1
    obtain ⟨-, -, i, hat⟩ := hsound₁.sound_type hd haction
    exact ⟨i, hat.mono hgrows⟩
  fields d hd f hf := by
    obtain ⟨s, steps, t, hsteps, hdid⟩ := hdid d hd
    obtain ⟨⟨step, hstep, hdefines⟩, -⟩ := (TypeDefinition.steps_mem hsteps).2.2.2 _ hf
    obtain ⟨w₁, w₂, hsound₁, haction, hgrows⟩ := hdid step hstep
    cases hdefines
    obtain ⟨-, -, i, handle, hat⟩ := hsound₁.sound_field hd hf haction
    exact ⟨i, handle, hat.mono hgrows⟩
  routines d hd member hmember key routine hoffers := by
    obtain ⟨s, steps, t, hsteps, hdid⟩ := hdid d hd
    obtain ⟨⟨step, hstep, hdefines⟩, -⟩ := (TypeDefinition.steps_mem hsteps).2.2.2 _ hmember
    obtain ⟨w₁, w₂, hsound₁, haction, hgrows⟩ := hdid step hstep
    cases hoffers with
    | @method m key hkey =>
      cases hdefines with
      | @method _ key' hkey' =>
        cases Except.ok.inj (hkey.symm.trans hkey')
        obtain ⟨-, -, i, handle, hat⟩ := hsound₁.sound_method hd hmember hkey haction
        exact ⟨i, handle, hat.mono hgrows⟩
    | @constructor c key hkey =>
      cases hdefines with
      | @constructor _ key' hkey' =>
        cases Except.ok.inj (hkey.symm.trans hkey')
        obtain ⟨-, -, i, handle, hat⟩ := hsound₁.sound_constructor hd hmember hkey haction
        exact ⟨i, handle, hat.mono hgrows⟩
  bodies d hd member hmember hbody := by
    obtain ⟨s, steps, t, hsteps, hdid⟩ := hdid d hd
    obtain ⟨key, block, step, hstep, hwrites⟩ := ((TypeDefinition.steps_mem hsteps).2.2.2 _ hmember).2 hbody
    obtain ⟨w₁, w₂, hsound₁, haction, hgrows⟩ := hdid step hstep
    obtain ⟨-, -, hat⟩ := hsound₁.sound_writes hd hmember hwrites haction
    cases hwrites with
    | method hkey hblock => exact ⟨_, _, block, .method hkey, hblock, hat.mono hgrows⟩
    | constructor hkey hblock => exact ⟨_, _, block, .constructor hkey, hblock, hat.mono hgrows⟩
  completed d hd := by
    obtain ⟨s, steps, t, hsteps, hdid⟩ := hdid d hd
    obtain ⟨w₁, w₂, hsound₁, haction, hgrows⟩ := hdid _ (TypeDefinition.steps_mem hsteps).2.2.1
    obtain ⟨-, -, i, hat⟩ := hsound₁.sound_finalize hd haction
    exact ⟨i, hat.mono hgrows⟩

/-- The blueprint of a module that is declared. -/
def Module.Declares.blueprint {m : Module} {catalog : Metadata} {table : Table} {closures : DefinitionMap}
    {declared : Declared} (h : m.Declares catalog table closures declared) (options : BuildOptions) : Blueprint where
  definitions := declared.definitions
  hierarchy := { table := declared.table, catalog }
  options := options
  distinct := by
    obtain ⟨entries, hentries⟩ := h.hasEntries
    exact (h.nodup hentries).1

/-- Steps that were carried out on an empty program, with free slots. -/
theorem Blueprint.of_execute {B : Blueprint} {s t : Supply} {steps : List (Step machine)}
    (hsteps : (stepsOfAll machine B.hierarchy B.options B.definitions).exec s = (.ok steps, t)) {executed : List String}
      {w : Site}
    (h : (Step.execute steps).exec { program := {} } = (.ok executed, w)) :
    B.Realized w ∧ ∀ P, Site.Invariant B P → P w := by
  obtain ⟨order, hplan, h₁⟩ := Effect.exec_lift_bind_ok.mp h
  obtain ⟨⟨⟩, w₁, hmodify, hrun⟩ := Effect.exec_bind_ok.mp h₁
  cases hmodify
  obtain ⟨-, hschedule⟩ := Task.plan_completes hplan
  have hhas : ∀ step ∈ steps, ∃ d ∈ B.definitions, d.HasStep B.hierarchy B.options step := by
    intro step hstep
    obtain ⟨d, hd, s', own, t', hown, hmem⟩ := of_mem_stepsOfAll hsteps step hstep
    exact ⟨d, hd, (TypeDefinition.steps_mem hown).1 step hmem⟩
  have hempty : ∀ key v, (Step.createSlots steps (∅ : Slots handles)).read key ≠ .ok v := by
    intro key v
    refine Slots.not_read_of_state? ?_ v
    rw [Step.state?_createSlots, Slots.state?_empty]
    split <;> simp
  have hstart := @Site.sound_empty B _ hempty
  have hruns (P : Site → Prop) (hP : Site.Invariant B P) := hP.run hhas hstart (hP.start _ hempty) hrun
  obtain ⟨-, hsound, -, hdid⟩ := hruns (fun _ => True) ⟨by simp, by simp⟩
  refine ⟨realized_of_did hsound fun d hd => ?_, fun P hP => (hruns P hP).1⟩
  obtain ⟨s', own, t', hown, hsub⟩ := subset_stepsOfAll hsteps d hd
  refine ⟨s', own, t', hown, fun step hstep => ?_⟩
  obtain ⟨i, hi⟩ := List.mem_iff_getElem?.mp (hsub hstep)
  refine hdid i (hschedule.perm.mem_iff.mpr (List.mem_range.mpr ?_)) step hi
  rw [List.length_map]
  exact (List.getElem?_eq_some_iff.mp hi).1

/-- A build that succeeded on an empty program has realized every definition, and kept what every step preserves. -/
theorem Module.of_build_invariant {m : Module} {catalog : Metadata} {after : BuildState machine}
    (h : (m.build machine catalog options).exec ⟨s, {}⟩ = (.ok built, after)) :
    ∃ (table : Table) (closures : DefinitionMap) (declared : Declared)
      (hd : m.Declares catalog table closures declared),
      m.declare catalog = .ok declared ∧ built.table = declared.table ∧
      (hd.blueprint options).Realized ⟨after.program, built.slots⟩ ∧
      ∀ P, Site.Invariant (hd.blueprint options) P → P ⟨after.program, built.slots⟩ := by
  obtain ⟨declared, steps, t, texts, w, hdeclare, hsteps, hexecute, hslots, htable, hprogram⟩ := of_build_ok h
  obtain ⟨table, closures, hdeclares⟩ := of_declare hdeclare
  refine ⟨table, closures, declared, hdeclares, hdeclare, htable, ?_⟩
  rw [hslots, hprogram]
  exact @Blueprint.of_execute (hdeclares.blueprint options) _ _ _ hsteps _ _ hexecute

end Stackwright
