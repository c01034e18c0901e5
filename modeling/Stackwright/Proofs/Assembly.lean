import Stackwright.Proofs.Emitted
import Stackwright.Proofs.Builds

/-
  Stackwright.Proofs.Assembly — what each step does to a program of the machine.

  A step that was carried out has changed the program in one of a few ways: it has added a type, a
  field or a routine, noted methods of the machine, handed over a body or laid out the fields of a
  type. One lemma per step says which.
-/

namespace Stackwright

open Machine (Ty TypeId FieldId MethodId TypeRecord FieldRecord MethodRecord Program handles)

variable {ty : Ty} {id : TypeId}
variable {owner : Ty} {m : MethodId} {block : Block}

/-! ## Changes of a program -/

namespace Machine.Program

variable (p : Program)

def withType (r : TypeRecord) : Program := { p with types := p.types.push r }

/-- One more field, which the type with the given number lists last. -/
def withField (i : Nat) (f : FieldId) (r : FieldRecord) : Program :=
  { p with fields := p.fields.push r, types := p.types.modify i fun t => { t with fields := t.fields ++ [f] } }

/-- One more method, which the type with the given number lists last. -/
def withMethod (i : Nat) (m : MethodId) (r : MethodRecord) : Program :=
  { p with methods := p.methods.push r, types := p.types.modify i fun t => { t with methods := t.methods ++ [m] } }

/-- The type's own fields behind the inherited ones. -/
def withLayout (i : Nat) (inherited own : List FieldId) : Program :=
  let q := p.placeFields inherited.length own
  { q with types := q.types.modify i fun t => { t with layout := some (inherited ++ own) } }

/-- The handle of the next field. -/
def nextField (owner name : String) : FieldId := { index := p.fields.size, name := owner ++ "::" ++ name }

/-- The instance fields that a type lists. -/
def ownFields (id : TypeId) : List FieldId := (p.type id).fields.filter fun f => !(p.field f).isStatic

variable {p} {q : Program}

theorem of_defineType {name : String} {attributes : TypeAttributes} {base : Option Ty} {interfaces : List Ty}
    (h : (defineType name attributes base interfaces).exec p = (.ok ty, q)) :
    p.findType name = none ∧ ty = .defined { index := p.types.size, name } ∧
      q = p.withType { name, attributes, base, interfaces } := by
  obtain ⟨p₁, p₂, hget, h₁⟩ := Effect.exec_bind_ok.mp h
  cases hget
  split at h₁
  · cases h₁
  · rename_i hfree
    cases h₁
    exact ⟨by simpa using hfree, rfl, rfl⟩

theorem of_openType {type : Ty} {action : String} (h : (openType type action).exec p = (.ok id, q)) :
    p = q ∧ type = .defined id ∧ (p.type id).layout = none := by
  cases type with
  | defined owner =>
    obtain ⟨p₁, p₂, hget, h₁⟩ := Effect.exec_bind_ok.mp h
    cases hget
    simp only at h₁
    split at h₁
    · cases h₁
    · rename_i hopen
      cases h₁
      exact ⟨rfl, rfl, by simpa using hopen⟩
  | _ => cases h

theorem of_defineField {s : FieldSignature handles} {f : FieldId} (h : (defineField owner s).exec p = (.ok f, q)) :
    ∃ id, owner = .defined id ∧ (p.type id).layout = none ∧
      f = p.nextField (p.type id).name s.name ∧ q = p.withField id.index f
        { owner, name := s.name, type := s.fieldType, isStatic := s.attributes.isStatic } := by
  obtain ⟨id, p₁, hopen, h₁⟩ := Effect.exec_bind_ok.mp h
  obtain ⟨rfl, rfl, hlayout⟩ := of_openType hopen
  cases h₁
  exact ⟨id, rfl, hlayout, rfl, rfl⟩

/-- A method of the program that has been declared but has no body yet. -/
theorem of_addMethod {record : MethodRecord} (howner : record.owner = .defined id)
    (h : (addMethod record).exec p = (.ok m, q)) :
    m = p.nextMethod record ∧ q = p.withMethod id.index (p.nextMethod record) record := by
  rw [exec_addMethod_defined howner] at h
  cases h
  exact ⟨rfl, rfl⟩

theorem of_defineMethod {s : MethodSignature handles} (h : (defineMethod owner s).exec p = (.ok m, q)) :
    ∃ id, owner = .defined id ∧ (p.type id).layout = none ∧
      ∃ record, record = { owner, name := s.name, params := s.params, ret := s.returnType, isStatic := s.attributes.isStatic
                           isVirtual := (p.type id).attributes.isInterface || s.attributes.isVirtual ||
                             s.attributes.isAbstract
                           kind := if (p.type id).attributes.isInterface || s.attributes.isAbstract then .abstract
                             else .defined none : MethodRecord } ∧
        m = p.nextMethod record ∧ q = p.withMethod id.index (p.nextMethod record) record := by
  obtain ⟨id, p₁, hopen, h₁⟩ := Effect.exec_bind_ok.mp h
  obtain ⟨rfl, rfl, hlayout⟩ := of_openType hopen
  obtain ⟨p₂, p₃, hget, h₂⟩ := Effect.exec_bind_ok.mp h₁
  cases hget
  exact ⟨id, rfl, hlayout, _, rfl, of_addMethod rfl h₂⟩

theorem of_defineConstructor {s : ConstructorSignature handles} (h : (defineConstructor owner s).exec p = (.ok m, q)) :
    ∃ id, owner = .defined id ∧ (p.type id).layout = none ∧
      ∃ record, record = { owner, name := constructorName, params := s.params, ret := .void, isStatic := false
                           isVirtual := false, kind := .defined none : MethodRecord } ∧
        m = p.nextMethod record ∧ q = p.withMethod id.index (p.nextMethod record) record := by
  obtain ⟨id, p₁, hopen, h₁⟩ := Effect.exec_bind_ok.mp h
  obtain ⟨rfl, rfl, hlayout⟩ := of_openType hopen
  exact ⟨id, rfl, hlayout, _, rfl, of_addMethod rfl h₁⟩

theorem of_finalizeType {type : Ty} (h : (finalizeType type).exec p = (.ok id, q)) :
    type = .defined id ∧ ∃ inherited, p.inheritedLayout id = .ok inherited ∧ p.unfinished? id = none ∧
      q = p.withLayout id.index inherited (p.ownFields id) := by
  cases type with
  | defined id =>
    obtain ⟨p₁, p₂, hget, h₁⟩ := Effect.exec_bind_ok.mp h
    cases hget
    obtain ⟨inherited, hinherited, h₂⟩ := Effect.exec_lift_bind_ok.mp h₁
    split at h₂
    · cases h₂
    · rename_i hfinished
      cases h₂
      exact ⟨rfl, inherited, hinherited, hfinished, rfl⟩
  | _ => cases h

theorem of_setBody {draft : Draft} (h : (setBody m draft).exec p = (.ok (), q)) :
    ∃ code, draft.finish = .ok code ∧ (p.method m).kind = .defined none ∧ q = p.withBody m code := by
  obtain ⟨code, hfinish, h₁⟩ := Effect.exec_lift_bind_ok.mp h
  obtain ⟨p₁, p₂, hget, h₂⟩ := Effect.exec_bind_ok.mp h₁
  cases hget
  split at h₂
  · rename_i hkind
    cases h₂
    exact ⟨code, hfinish, hkind, rfl⟩
  · cases h₂

/-- A property changes nothing that runs. -/
theorem of_defineProperty {s : PropertySignature handles} {id : PropertyId}
    (h : (defineProperty owner s).exec p = (.ok id, q)) :
    q.fields = p.fields ∧ q.methods = p.methods ∧
      ∃ i, q.types = p.types.modify i fun t => { t with properties := t.properties ++ [id] } := by
  obtain ⟨ownerId, p₁, hopen, h₁⟩ := Effect.exec_bind_ok.mp h
  obtain ⟨rfl, -, -⟩ := of_openType hopen
  cases h₁
  exact ⟨rfl, rfl, ownerId.index, rfl⟩

end Machine.Program

/-! ## Work on a workspace -/

/-- What steps work on when they build for the machine. -/
abbrev Site := Workspace machine

namespace Workspace

open Effect

variable {w w' : Site} {α : Type}

theorem of_read {key : ItemKey} {v : handles.At key} (h : (read key : Effect Site _).exec w = (.ok v, w')) :
    w = w' ∧ w.slots.read key = .ok v := by
  obtain ⟨w₁, w₂, hget, h₁⟩ := exec_bind_ok.mp h
  cases hget
  exact ⟨congrArg Prod.snd h₁, congrArg Prod.fst h₁⟩

theorem of_write {key : ItemKey} {v : handles.At key} (h : (write key v : Effect Site Unit).exec w = (.ok (), w')) :
    w'.program = w.program ∧ w.slots.write key v = .ok w'.slots := by
  obtain ⟨w₁, w₂, hget, h₁⟩ := exec_bind_ok.mp h
  cases hget
  obtain ⟨slots, hslots, h₂⟩ := exec_lift_bind_ok.mp h₁
  cases h₂
  exact ⟨rfl, hslots⟩

theorem of_ofProgram {x : Effect Program α} {a : α} (h : (ofProgram x : Effect Site α).exec w = (.ok a, w')) :
    x.exec w.program = (.ok a, w'.program) ∧ w'.slots = w.slots := by
  rw [ofProgram, exec_zoom] at h
  obtain ⟨hok, rfl⟩ := Prod.mk.inj h
  exact ⟨Prod.ext hok rfl, rfl⟩

theorem of_following {x : Slots handles → Effect Program α} {a : α}
    (h : (TypeDefinition.following machine x).exec w = (.ok a, w')) :
    (x w.slots).exec w.program = (.ok a, w'.program) ∧ w'.slots = w.slots := by
  obtain ⟨w₁, w₂, hget, h₁⟩ := exec_bind_ok.mp h
  cases hget
  exact of_ofProgram h₁

theorem of_resolve (hnamed : w.slots.Named) {t : TypeRef}
    (h : (TypeDefinition.resolve machine t).exec w = (.ok ty, w')) : w = w' ∧ t.Denotes w.slots w.program ty := by
  obtain ⟨hexec, hslots⟩ := of_following h
  obtain ⟨hprogram, hty⟩ := TypeRef.denotes_of_resolve hnamed hexec
  obtain ⟨program, slots⟩ := w
  obtain ⟨program', slots'⟩ := w'
  cases hprogram
  cases hslots
  exact ⟨rfl, hty⟩

theorem of_resolveAll (hnamed : w.slots.Named) {ts : List TypeRef} {tys : List Ty}
    (h : (TypeDefinition.resolveAll machine ts).exec w = (.ok tys, w')) :
    w = w' ∧ List.Forall₂ (TypeRef.Denotes w.slots w.program) ts tys := by
  obtain ⟨hexec, hslots⟩ := of_following h
  obtain ⟨hprogram, htys⟩ := TypeRef.denotes_of_resolveAll hnamed hexec
  obtain ⟨program, slots⟩ := w
  obtain ⟨program', slots'⟩ := w'
  cases hprogram
  cases hslots
  exact ⟨rfl, htys⟩

theorem of_resolveMethod? (hnamed : w.slots.Named) (hp : w.program.Ranged) {ref : Option MethodRef}
    {m : Option MethodId} (h : (TypeDefinition.resolveMethod? machine ref).exec w = (.ok m, w')) :
    w'.slots = w.slots ∧ w.program.Notes (fun r => ∃ e ∈ ref, e.NotedFor w.slots r) w'.program := by
  cases ref with
  | none =>
    cases h
    exact ⟨rfl, .refl _⟩
  | some ref =>
    rw [TypeDefinition.resolveMethod?, exec_map] at h
    split at h
    · rename_i m' w₁ hm
      cases h
      obtain ⟨hexec, hslots⟩ := of_following hm
      obtain ⟨-, hnotes⟩ := ref.of_resolve hnamed hp hexec
      exact ⟨hslots, hnotes.mono fun r hr => ⟨ref, rfl, hr⟩⟩
    · cases h

end Workspace

/-- A step that was carried out has done its work. -/
theorem Step.of_run {step : Step machine} {w w' : Site} (h : step.run.exec w = (.ok (), w')) :
    step.action.exec w = (.ok (), w') := by
  obtain ⟨⟨⟩, w₁, haction, h₁⟩ := Effect.exec_bind_ok.mp h
  obtain ⟨w₂, w₃, hget, h₂⟩ := Effect.exec_bind_ok.mp h₁
  cases hget
  simp only at h₂
  split at h₂
  · cases h₂
  · cases h₂
    exact haction

/-! ## Routines -/

/-- What the machine is told about a method or a constructor. -/
structure Routine where
  name : String
  params : List TypeRef
  returnType : TypeRef
  isStatic : Bool
  isVirtual : Bool
  isAbstract : Bool

/-- The record of a routine that has no body yet. -/
def Routine.record (r : Routine) (owner : Ty) (params : List Ty) (ret : Ty) : MethodRecord :=
  { owner, name := r.name, params, ret, isStatic := r.isStatic, isVirtual := r.isVirtual
    kind := if r.isAbstract then .abstract else .defined none }

/-- The key of a routine and the handle that it stands for. -/
inductive Slots.Routine (slots : Slots handles) : ItemKey → MethodId → Prop
  | method {key m} : slots.read (.method key) = .ok m → Routine slots (.method key) m
  | constructor {key m} : slots.read (.constructor key) = .ok m → Routine slots (.constructor key) m

namespace TypeDefinition

variable (d : TypeDefinition)

/-- The method, as it is known to the machine. -/
def methodRoutine (key : MethodKey) (m : MethodDefinition) : Routine where
  name := key.name
  params := key.params
  returnType := m.returnType
  isStatic := m.attributes.isStatic || !key.isInstance
  isVirtual := d.attributes.isInterface || m.attributes.isVirtual ||
    (m.attributes.isAbstract || MethodBody.isAbstract m.body)
  isAbstract := d.attributes.isInterface || (m.attributes.isAbstract || MethodBody.isAbstract m.body)

/-- A constructor, as it is known to the machine. -/
def constructorRoutine (key : ConstructorKey) : Routine where
  name := Program.constructorName
  params := key.params
  returnType := .void
  isStatic := false
  isVirtual := false
  isAbstract := false

/-- The key under which a member is called, and what is called. -/
inductive Offers : Member → ItemKey → Routine → Prop
  | method {m key} : d.methodKey m = .ok key → Offers (.method m) (.method key) (d.methodRoutine key m)
  | constructor {c key} : d.constructorKey c = .ok key → Offers (.constructor c) (.constructor key)
    (constructorRoutine key)

/-! ## Single steps -/

variable {d} {w w' : Site}

/-- The site after one key has been written. -/
structure Wrote (w : Site) (p : Program) (key : ItemKey) (v : handles.At key) (w' : Site) : Prop where
  program : w'.program = p
  slots : w.slots.write key v = .ok w'.slots

open Effect

theorem of_typeStep (hnamed : w.slots.Named) (h : (d.typeStep machine).action.exec w = (.ok (), w')) :
    ∃ base interfaces, Option.Rel (TypeRef.Denotes w.slots w.program) d.base base ∧
      List.Forall₂ (TypeRef.Denotes w.slots w.program) d.interfaces interfaces ∧ w.program.findType d.key.name = none ∧
      Wrote w (w.program.withType { name := d.key.name, attributes := d.attributes, base, interfaces }) (.type d.key)
        (.defined { index := w.program.types.size, name := d.key.name }) w' := by
  have hrest {base : Option Ty} (hbase : Option.Rel (TypeRef.Denotes w.slots w.program) d.base base)
      (h : (resolveAll machine d.interfaces >>= fun interfaces =>
        Workspace.ofProgram (machine.defineType d.key.name d.attributes base interfaces) >>= fun handle =>
        Workspace.write (.type d.key) handle).exec w = (.ok (), w')) :
      ∃ base interfaces, Option.Rel (TypeRef.Denotes w.slots w.program) d.base base ∧
        List.Forall₂ (TypeRef.Denotes w.slots w.program) d.interfaces interfaces ∧
          w.program.findType d.key.name = none ∧
        Wrote w (w.program.withType { name := d.key.name, attributes := d.attributes, base, interfaces }) (.type d.key)
          (.defined { index := w.program.types.size, name := d.key.name }) w' := by
    obtain ⟨interfaces, w₁, hinterfaces, h₁⟩ := exec_bind_ok.mp h
    obtain ⟨rfl, hinterfaces'⟩ := Workspace.of_resolveAll hnamed hinterfaces
    obtain ⟨ty, w₂, hdefine, hwrite⟩ := exec_bind_ok.mp h₁
    obtain ⟨hdefine, hslots⟩ := Workspace.of_ofProgram hdefine
    obtain ⟨hfree, rfl, hprogram⟩ := Program.of_defineType hdefine
    obtain ⟨hsame, hwrite⟩ := Workspace.of_write hwrite
    exact ⟨base, interfaces, hbase, hinterfaces', hfree, hsame.trans hprogram, hslots ▸ hwrite⟩
  simp only [typeStep] at h
  cases hb : d.base with
  | none =>
    rw [hb] at h hrest
    obtain ⟨base, w₁, hbase, h₁⟩ := exec_bind_ok.mp h
    cases hbase
    exact hrest .none h₁
  | some t =>
    rw [hb] at h hrest
    obtain ⟨base, w₁, hbase, h₁⟩ := exec_bind_ok.mp h
    rw [exec_map] at hbase
    split at hbase
    · rename_i ty w₂ hty
      cases hbase
      obtain ⟨rfl, hty'⟩ := Workspace.of_resolve hnamed hty
      exact hrest (.some hty') h₁
    · cases hbase

theorem of_fieldStep (hnamed : w.slots.Named) {f : FieldDefinition}
    (h : (d.fieldStep machine f).action.exec w = (.ok (), w')) :
    ∃ id ty, w.slots.read (.type d.key) = .ok (.defined id) ∧ f.fieldType.Resolves w.slots ty ∧
      (w.program.type id).layout = none ∧
      Wrote w (w.program.withField id.index (w.program.nextField (w.program.type id).name f.name)
          { owner := .defined id, name := f.name, type := ty, isStatic := f.attributes.isStatic })
        (.field (d.fieldKey f)) (w.program.nextField (w.program.type id).name f.name) w' := by
  obtain ⟨owner, w₁, howner, h₁⟩ := exec_bind_ok.mp h
  obtain ⟨rfl, howner'⟩ := Workspace.of_read howner
  obtain ⟨ty, w₂, hty, h₂⟩ := exec_bind_ok.mp h₁
  obtain ⟨rfl, hty'⟩ := Workspace.of_resolve hnamed hty
  obtain ⟨fid, w₃, hdefine, hwrite⟩ := exec_bind_ok.mp h₂
  obtain ⟨hdefine, hslots⟩ := Workspace.of_ofProgram hdefine
  obtain ⟨id, rfl, hlayout, rfl, hprogram⟩ := Program.of_defineField hdefine
  obtain ⟨hsame, hwrite⟩ := Workspace.of_write hwrite
  exact ⟨id, ty, howner', hty'.toResolves, hlayout, hsame.trans hprogram, hslots ▸ hwrite⟩

/-- A routine has been added to the type that is defined. -/
structure AddsRoutine (w : Site) (d : TypeDefinition) (routine : Routine) (id : TypeId) (m : MethodId) (p : Program) :
    Prop where
  owner : w.slots.read (.type d.key) = .ok (.defined id)
  layout : (w.program.type id).layout = none
  added : ∃ params ret, List.Forall₂ (TypeRef.Resolves w.slots) routine.params params ∧
    routine.returnType.Resolves w.slots ret ∧ m = w.program.nextMethod (routine.record (.defined id) params ret) ∧
    p = w.program.withMethod id.index m (routine.record (.defined id) params ret)

theorem of_methodStep (hnamed : w.slots.Named)
    (hattributes : ∀ id, w.slots.read (.type d.key) = .ok (.defined id) → (w.program.type id).attributes = d.attributes)
    {key : MethodKey} {m : MethodDefinition} (h : (d.methodStep machine key m).action.exec w = (.ok (), w')) :
    ∃ id handle p, AddsRoutine w d (d.methodRoutine key m) id handle p ∧ Wrote w p (.method key) handle w' := by
  obtain ⟨owner, w₁, howner, h₁⟩ := exec_bind_ok.mp h
  obtain ⟨rfl, howner'⟩ := Workspace.of_read howner
  obtain ⟨params, w₂, hparams, h₂⟩ := exec_bind_ok.mp h₁
  obtain ⟨rfl, hparams'⟩ := Workspace.of_resolveAll hnamed hparams
  obtain ⟨ret, w₃, hret, h₃⟩ := exec_bind_ok.mp h₂
  obtain ⟨rfl, hret'⟩ := Workspace.of_resolve hnamed hret
  obtain ⟨handle, w₄, hdefine, hwrite⟩ := exec_bind_ok.mp h₃
  obtain ⟨hdefine, hslots⟩ := Workspace.of_ofProgram hdefine
  obtain ⟨id, rfl, hlayout, record, hrecord, rfl, hprogram⟩ := Program.of_defineMethod hdefine
  obtain ⟨hsame, hwrite⟩ := Workspace.of_write hwrite
  have hrecord' : record = (d.methodRoutine key m).record (.defined id) params ret := by
    rw [hrecord, hattributes id howner']
    rfl
  subst hrecord'
  exact ⟨id, _, _, ⟨howner', hlayout, params, ret, hparams'.imp fun _ _ ht => ht.toResolves,
    hret'.toResolves, rfl, rfl⟩, hsame.trans hprogram, hslots ▸ hwrite⟩

theorem of_constructorStep (hnamed : w.slots.Named) {key : ConstructorKey} {c : ConstructorDefinition}
    (h : (d.constructorStep machine key c).action.exec w = (.ok (), w')) :
    ∃ id handle p, AddsRoutine w d (constructorRoutine key) id handle p ∧ Wrote w p (.constructor key) handle w' := by
  obtain ⟨owner, w₁, howner, h₁⟩ := exec_bind_ok.mp h
  obtain ⟨rfl, howner'⟩ := Workspace.of_read howner
  obtain ⟨params, w₂, hparams, h₂⟩ := exec_bind_ok.mp h₁
  obtain ⟨rfl, hparams'⟩ := Workspace.of_resolveAll hnamed hparams
  obtain ⟨handle, w₃, hdefine, hwrite⟩ := exec_bind_ok.mp h₂
  obtain ⟨hdefine, hslots⟩ := Workspace.of_ofProgram hdefine
  obtain ⟨id, rfl, hlayout, record, rfl, rfl, hprogram⟩ := Program.of_defineConstructor hdefine
  obtain ⟨hsame, hwrite⟩ := Workspace.of_write hwrite
  have hvoid : TypeRef.void.Resolves w.slots .void := ⟨rfl, (fun _ hk => by cases hk), fun _ hk => by cases hk⟩
  exact ⟨id, _, _, ⟨howner', hlayout, params, .void, hparams'.imp fun _ _ ht => ht.toResolves, hvoid, rfl, rfl⟩,
    hsame.trans hprogram, hslots ▸ hwrite⟩

/-- The methods of the machine that are noted for a property. -/
def PropertyDefinition.NotedFor (slots : Slots handles) (p : PropertyDefinition) (r : MethodRecord) : Prop :=
  ∃ ref ∈ p.getter.toList ++ p.setter.toList, ref.NotedFor slots r

theorem of_propertyStep (hnamed : w.slots.Named) (hp : w.program.Ranged) {p : PropertyDefinition}
    (h : (d.propertyStep machine p).action.exec w = (.ok (), w')) :
    ∃ q i id, w.program.Notes (PropertyDefinition.NotedFor w.slots p) q ∧ w'.program.fields = q.fields ∧
      w'.program.methods = q.methods ∧
      w'.program.types = q.types.modify i (fun t => { t with properties := t.properties ++ [id] }) ∧
      w.slots.write (.property (d.propertyKey p)) id = .ok w'.slots := by
  obtain ⟨owner, w₁, howner, h₁⟩ := exec_bind_ok.mp h
  obtain ⟨rfl, -⟩ := Workspace.of_read howner
  obtain ⟨ty, w₂, hty, h₂⟩ := exec_bind_ok.mp h₁
  obtain ⟨rfl, -⟩ := Workspace.of_resolve hnamed hty
  obtain ⟨getter, w₃, hgetter, h₃⟩ := exec_bind_ok.mp h₂
  obtain ⟨hslots₃, hgetter⟩ := Workspace.of_resolveMethod? hnamed hp hgetter
  obtain ⟨setter, w₄, hsetter, h₄⟩ := exec_bind_ok.mp h₃
  obtain ⟨hslots₄, hsetter⟩ := Workspace.of_resolveMethod? (hslots₃ ▸ hnamed) (hgetter.ranged hp) hsetter
  rw [hslots₃] at hslots₄ hsetter
  obtain ⟨id, w₅, hdefine, hwrite⟩ := exec_bind_ok.mp h₄
  obtain ⟨hdefine, hslots₅⟩ := Workspace.of_ofProgram hdefine
  obtain ⟨hfields, hmethods, i, htypes⟩ := Program.of_defineProperty hdefine
  obtain ⟨hsame, hwrite⟩ := Workspace.of_write hwrite
  have hnotes : w.program.Notes (PropertyDefinition.NotedFor w.slots p) w₄.program := by
    refine (hgetter.mono fun r hr => ?_).trans (hsetter.mono fun r hr => ?_)
    · obtain ⟨ref, href, hr⟩ := hr
      exact ⟨ref, List.mem_append_left _ (Option.mem_toList.mpr href), hr⟩
    · obtain ⟨ref, href, hr⟩ := hr
      exact ⟨ref, List.mem_append_right _ (Option.mem_toList.mpr href), hr⟩
  refine ⟨w₄.program, i, id, hnotes, by rw [hsame, hfields], by rw [hsame, hmethods], by rw [hsame, htypes], ?_⟩
  rw [← hwrite, hslots₅, hslots₄]

theorem of_finalizeStep (h : (d.finalizeStep machine).action.exec w = (.ok (), w')) :
    ∃ id inherited, w.slots.read (.type d.key) = .ok (.defined id) ∧ w.program.inheritedLayout id = .ok inherited ∧
      w.program.unfinished? id = none ∧
      Wrote w (w.program.withLayout id.index inherited (w.program.ownFields id)) (.completed d.key) id w' := by
  obtain ⟨owner, w₁, howner, h₁⟩ := exec_bind_ok.mp h
  obtain ⟨rfl, howner'⟩ := Workspace.of_read howner
  obtain ⟨id, w₂, hfinalize, hwrite⟩ := exec_bind_ok.mp h₁
  obtain ⟨hfinalize, hslots⟩ := Workspace.of_ofProgram hfinalize
  obtain ⟨rfl, inherited, hinherited, hfinished, hprogram⟩ := Program.of_finalizeType hfinalize
  obtain ⟨hsame, hwrite⟩ := Workspace.of_write hwrite
  exact ⟨id, inherited, howner', hinherited, hfinished, hsame.trans hprogram, hslots ▸ hwrite⟩

/-- A body has been handed over. -/
structure WritesBody (w : Site) (m : MethodId) (block : Block) (w' : Site) : Prop where
  slots : w'.slots = w.slots
  written : ∃ q code, w.program.Notes (fun r => ∃ i ∈ block.code, i.NotedFor w.slots r) q ∧
    (q.method m).kind = .defined none ∧ w'.program = q.withBody m code ∧
    (block.Stands → Setting.Installs ⟨block.layout code, w.slots, q⟩ block)

theorem of_writeBody (hnamed : w.slots.Named) (hp : w.program.Ranged)
    (h : (writeBody machine block (Program.setBody m)).exec w = (.ok (), w')) : WritesBody w m block w' := by
  obtain ⟨w₁, w₂, hget, h₁⟩ := exec_bind_ok.mp h
  cases hget
  obtain ⟨h₁, hslots⟩ := Workspace.of_ofProgram h₁
  obtain ⟨p₁, p₂, hget, h₂⟩ := exec_bind_ok.mp h₁
  cases hget
  rcases hemit : (Emission.block w.slots block).exec ⟨w.program, machine.emptyDraft, [], []⟩ with ⟨outcome, e⟩
  simp only [hemit] at h₂
  obtain ⟨⟨⟩, p₃, hset, h₃⟩ := exec_bind_ok.mp h₂
  cases hset
  obtain ⟨⟨⟩, hok, h₄⟩ := exec_lift_bind_ok.mp h₃
  subst hok
  obtain ⟨code, hfinish, hkind, hprogram⟩ := Program.of_setBody h₄
  refine ⟨hslots, e.program, code, Emission.block_notes hnamed hp hemit, hkind, hprogram, fun hstands => ?_⟩
  obtain ⟨s, t, hb⟩ := hstands
  obtain ⟨code', hfinish', -, hinstalls⟩ := Emission.of_block hb hnamed hp hemit
  cases Except.ok.inj (hfinish'.symm.trans hfinish)
  exact hinstalls

theorem of_methodBodyStep (hnamed : w.slots.Named) (hp : w.program.Ranged) {key : MethodKey}
    (h : (methodBodyStep machine key block).action.exec w = (.ok (), w')) :
    ∃ m, w.slots.Routine (.method key) m ∧ WritesBody w m block w' := by
  obtain ⟨m, w₁, hread, hwrite⟩ := exec_bind_ok.mp h
  obtain ⟨rfl, hread'⟩ := Workspace.of_read hread
  exact ⟨m, .method hread', of_writeBody hnamed hp hwrite⟩

theorem of_constructorBodyStep (hnamed : w.slots.Named) (hp : w.program.Ranged) {key : ConstructorKey}
    (h : (constructorBodyStep machine key block).action.exec w = (.ok (), w')) :
    ∃ m, w.slots.Routine (.constructor key) m ∧ WritesBody w m block w' := by
  obtain ⟨m, w₁, hread, hwrite⟩ := exec_bind_ok.mp h
  obtain ⟨rfl, hread'⟩ := Workspace.of_read hread
  exact ⟨m, .constructor hread', of_writeBody hnamed hp hwrite⟩

end TypeDefinition

end Stackwright
