import Stackwright.Proofs.Rounds
import Stackwright.Proofs.Layouts

/-
  Stackwright.Proofs.ObjectLayouts — objects of a program, whoever makes it.

  A program is made by requests that may fail, in any order and with any handles. Where fields are
  only depends on the bases, the fields and the layouts of types, so methods and properties are
  left aside.
-/

namespace Stackwright.Machine

variable {action : String} {l : List FieldId}
variable {i : Nat} {d id : TypeId} {r : TypeRecord}
variable {f : TypeRecord → TypeRecord} {id' : TypeId} {inherited : List FieldId}

/-! ## What layouts depend on -/

/-- A type without its methods and properties. -/
def TypeRecord.bare (r : TypeRecord) : TypeRecord := { r with methods := [], properties := [] }

namespace Program

def bare (p : Program) : Program := { types := p.types.map TypeRecord.bare, fields := p.fields }

variable {p q : Program}

theorem bare_types (p : Program) (i : Nat) : p.bare.types[i]? = (p.types[i]?).map TypeRecord.bare := Array.getElem?_map

@[simp] theorem bare_type (p : Program) (id : TypeId) : p.bare.type id = (p.type id).bare := by
  rw [type, type, Array.getD_eq_getD_getElem?, Array.getD_eq_getD_getElem?, bare_types]
  cases p.types[id.index]? <;> rfl

@[simp] theorem bare_ownFields (p : Program) (id : TypeId) : p.bare.ownFields id = p.ownFields id := by
  rw [ownFields, bare_type]
  rfl

@[simp] theorem bare_inheritedLayout (p : Program) (id : TypeId) :
    p.bare.inheritedLayout id = p.inheritedLayout id := by
  simp only [inheritedLayout, bare_type, TypeRecord.bare]

theorem bare_modify {types : Array TypeRecord} {g : TypeRecord → TypeRecord} (h : ∀ r, (f r).bare = g r.bare) :
    (types.modify i f).map TypeRecord.bare = (types.map TypeRecord.bare).modify i g := by
  refine Array.ext_getElem? fun j => ?_
  rw [Array.getElem?_map, Array.getElem?_modify, Array.getElem?_modify, Array.getElem?_map]
  split
  · cases types[j]? <;> simp [h]
  · rfl

/-- A change of one type that leaves its base, its fields and its layout alone. -/
theorem bare_modify_eq {types : Array TypeRecord} (h : ∀ r, (f r).bare = r.bare) :
    (types.modify i f).map TypeRecord.bare = types.map TypeRecord.bare := by
  refine Array.ext_getElem? fun j => ?_
  rw [Array.getElem?_map, Array.getElem?_modify, Array.getElem?_map]
  split
  · cases types[j]? <;> simp [h]
  · rfl

theorem bare_placeFields (fs : List FieldId) : ∀ (p : Program) (slot : Nat),
    (p.placeFields slot fs).bare = p.bare.placeFields slot fs := by
  induction fs with
  | nil => exact fun _ _ => rfl
  | cons f fs ih => exact fun p slot => ih _ _

/-! ## Requests -/

/-- What can be asked of a program that is being made. -/
inductive Request where
  | primitiveType (p : Primitive)
  | namedType (name : String)
  | cellType (content : Ty)
  | delegateType (params : List Ty) (ret : Ty)
  | existingMethod (owner : Ty) (name : String) (params : List Ty) (ret : Ty) (isInstance : Bool)
  | existingConstructor (owner : Ty) (params : List Ty)
  | existingField (owner : Ty) (name : String) (type : Ty) (isInstance : Bool)
  | defineType (name : String) (attributes : TypeAttributes) (base : Option Ty) (interfaces : List Ty)
  | finalizeType (type : Ty)
  | defineField (owner : Ty) (s : FieldSignature handles)
  | defineMethod (owner : Ty) (s : MethodSignature handles)
  | defineConstructor (owner : Ty) (s : ConstructorSignature handles)
  | defineProperty (owner : Ty) (s : PropertySignature handles)
  | methodBody (method : MethodId) (body : Draft)
  | constructorBody (constructor : MethodId) (body : Draft)

/-- The program after a request, whatever its answer was. -/
def perform (p : Program) : Request → Program
  | .primitiveType primitive => ((machine.primitiveType primitive).exec p).2
  | .namedType name => ((machine.namedType name).exec p).2
  | .cellType content => ((machine.cellType content).exec p).2
  | .delegateType params ret => ((machine.delegateType params ret).exec p).2
  | .existingMethod owner name params ret isInstance =>
    ((machine.existingMethod owner name params ret isInstance).exec p).2
  | .existingConstructor owner params => ((machine.existingConstructor owner params).exec p).2
  | .existingField owner name type isInstance => ((machine.existingField owner name type isInstance).exec p).2
  | .defineType name attributes base interfaces => ((machine.defineType name attributes base interfaces).exec p).2
  | .finalizeType type => ((machine.finalizeType type).exec p).2
  | .defineField owner s => ((machine.defineField owner s).exec p).2
  | .defineMethod owner s => ((machine.defineMethod owner s).exec p).2
  | .defineConstructor owner s => ((machine.defineConstructor owner s).exec p).2
  | .defineProperty owner s => ((machine.defineProperty owner s).exec p).2
  | .methodBody method body => ((machine.methodBody method body).exec p).2
  | .constructorBody constructor body => ((machine.constructorBody constructor body).exec p).2

def performAll (p : Program) (requests : List Request) : Program := requests.foldl perform p

theorem performAll_append (p : Program) (requests more : List Request) :
    p.performAll (requests ++ more) = (p.performAll requests).performAll more := List.foldl_append

/-- The supertypes that a request gives to a new type. -/
def Request.supertypes : Request → List Ty
  | .defineType _ _ base interfaces => base.toList ++ interfaces
  | _ => []

/-- What a request can change of the types and their fields. -/
inductive Next (p : Program) (request : Request) : Program → Prop
  | same : Next p request p
  | type (r : TypeRecord) : request.supertypes = r.base.toList ++ r.interfaces → r.fields = [] → r.layout = none →
    Next p request (p.withType r)
  | field (i : Nat) (f : FieldId) (r : FieldRecord) : f.index = p.fields.size → r.slot = none → (∀ l, ¬ p.LaidOut i l) →
    Next p request (p.withField i f r)
  | complete (id : TypeId) (inherited : List FieldId) : p.inheritedLayout id = .ok inherited →
    Next p request (p.withLayout id.index inherited (p.ownFields id))

variable {request : Request}

theorem Next.of_eq (h : q = p) : p.Next request q := h ▸ .same

theorem not_laidOut (h : (p.type id).layout = none) (l : List FieldId) : ¬ p.LaidOut id.index l := by
  rintro ⟨r, hr, hl⟩
  rw [type_eq hr, hl] at h
  cases h

theorem openType_error {type : Ty} {e : BuildError} (h : (openType type action).exec p = (.error e, q)) : q = p := by
  cases type with
  | defined id =>
    rcases Effect.exec_bind_error.mp h with hget | ⟨_, _, hget, h⟩
    · cases hget
    · cases hget
      simp only at h
      split at h <;> cases h
      rfl
  | _ =>
    cases h
    rfl

/-- Work on a type that still takes members: it is either refused, or goes on with the type. -/
theorem next_openType_bind {α : Type} {owner : Ty} {x : TypeId → Effect Program α}
    (hx : ∀ id, (p.type id).layout = none → p.bare.Next request ((x id).exec p).2.bare) :
    p.bare.Next request ((openType owner action >>= x).exec p).2.bare := by
  rw [Effect.exec_bind]
  rcases hopen : (openType owner action).exec p with ⟨id | id, q⟩
  · exact .of_eq (congrArg bare (openType_error hopen))
  · obtain ⟨rfl, -, hlayout⟩ := of_openType hopen
    exact hx id hlayout

theorem bare_addMethod (record : MethodRecord) : ((addMethod record).exec p).2.bare = p.bare := by
  by_cases howner : ∃ id, record.owner = .defined id
  · obtain ⟨id, howner⟩ := howner
    rw [exec_addMethod_defined howner]
    simp only [bare]
    rw [bare_modify_eq fun r => by rfl]
  · rw [exec_addMethod_native fun id hid => howner ⟨id, hid⟩]
    rfl

theorem bare_nativeMethod (record : MethodRecord) : ((nativeMethod record).exec p).2.bare = p.bare := by
  unfold nativeMethod
  rw [Effect.exec_bind, Effect.exec_get]
  simp only
  split
  · rfl
  · exact bare_addMethod record

theorem bare_setBody (m : MethodId) (draft : Draft) : ((setBody m draft).exec p).2.bare = p.bare := by
  unfold setBody
  rw [Effect.exec_bind, Effect.exec_lift]
  cases draft.finish with
  | error e => rfl
  | ok code =>
    simp only [Effect.exec_bind, Effect.exec_get]
    split <;> rfl

/-- One request. -/
theorem next_perform (p : Program) (request : Request) : p.bare.Next request (p.perform request).bare := by
  cases request with
  | primitiveType | cellType | delegateType => exact .same
  | namedType name =>
    simp only [perform, namedType, Effect.exec_bind, Effect.exec_get]
    split <;> exact .same
  | existingMethod owner name params ret isInstance =>
    cases owner with
    | defined id =>
      simp only [perform, existingMethod, Effect.exec_bind, Effect.exec_get]
      split <;> exact .same
    | _ => exact .of_eq (bare_nativeMethod _)
  | existingConstructor owner params =>
    cases owner with
    | defined id =>
      simp only [perform, existingConstructor, Effect.exec_bind, Effect.exec_get]
      split <;> exact .same
    | _ => exact .of_eq (bare_nativeMethod _)
  | existingField owner name type isInstance =>
    cases owner with
    | defined id =>
      simp only [perform, existingField, Effect.exec_bind, Effect.exec_get]
      split <;> exact .same
    | _ => exact .same
  | defineType name attributes base interfaces =>
    simp only [perform, defineType, Effect.exec_bind, Effect.exec_get]
    split
    · exact .same
    · have hbare : (p.withType { name, attributes, base, interfaces }).bare =
          p.bare.withType { name, attributes, base, interfaces } := by
        simp only [withType, bare, Array.map_push, TypeRecord.bare]
      exact hbare ▸ .type _ rfl rfl rfl
  | finalizeType type =>
    cases type with
    | defined id =>
      simp only [perform, finalizeType, Effect.exec_bind, Effect.exec_get, Effect.exec_lift]
      cases hinherited : p.inheritedLayout id with
      | error e => exact .same
      | ok inherited =>
        simp only
        split
        · exact .same
        · have hbare : (p.withLayout id.index inherited (p.ownFields id)).bare =
              p.bare.withLayout id.index inherited (p.bare.ownFields id) := by
            rw [bare_ownFields, withLayout, withLayout, ← bare_placeFields]
            simp only [bare]
            exact congrArg (fun types => ({ types, fields := _ } : Program)) (bare_modify fun r => by rfl)
          exact hbare ▸ .complete id inherited (by rw [bare_inheritedLayout, hinherited])
    | _ => exact .same
  | defineField owner s =>
    refine next_openType_bind fun id hlayout => ?_
    have hbare (f : FieldId) (r : FieldRecord) : (p.withField id.index f r).bare = p.bare.withField id.index f r := by
      simp only [withField, bare]
      exact congrArg (fun types => ({ types, fields := _ } : Program)) (bare_modify fun r => by rfl)
    simp only [Effect.exec_bind, Effect.exec_get, Effect.exec_set, modifyType, Effect.exec_modify, Effect.exec_pure]
    exact hbare _ _ ▸ .field id.index _ _ rfl rfl (not_laidOut (by rw [bare_type]; exact hlayout))
  | defineMethod owner s =>
    refine next_openType_bind fun id _ => ?_
    simp only [Effect.exec_bind, Effect.exec_get]
    exact .of_eq (bare_addMethod _)
  | defineConstructor owner s =>
    refine next_openType_bind fun id _ => ?_
    exact .of_eq (bare_addMethod _)
  | defineProperty owner s =>
    refine next_openType_bind fun id _ => ?_
    refine .of_eq ?_
    simp only [Effect.exec_bind, Effect.exec_get, Effect.exec_set, modifyType, Effect.exec_modify,
      Effect.exec_pure, bare]
    rw [bare_modify_eq fun r => by rfl]
  | methodBody method body => exact .of_eq (bare_setBody method body)
  | constructorBody constructor body => exact .of_eq (bare_setBody constructor body)

/-! ## What requests preserve -/

/-- Every field is listed once, by one type, and has no place until that type is complete. The layout of a complete
    type is what it inherits, followed by its own instance fields, each in its place. -/
structure Arranged (p : Program) : Prop where
  ranged : ∀ i f, p.Lists i f → f.index < p.fields.size
  once : ∀ (i : Nat) (r : TypeRecord), p.types[i]? = some r → (r.fields.map (·.index)).Nodup
  alone : ∀ i j f g, p.Lists i f → p.Lists j g → f.index = g.index → i = j
  unplaced : ∀ i f, p.Lists i f → (∀ l, ¬ p.LaidOut i l) → (p.field f).slot = none
  laid : ∀ i l, p.LaidOut i l → p.Laid i l
  composed : ∀ (id : TypeId) (l : List FieldId), p.LaidOut id.index l →
    ∃ inherited, p.inheritedLayout id = .ok inherited ∧ l = inherited ++ p.ownFields id

/-- What a type inherits depends on its number only. -/
theorem inheritedLayout_index (hid : id'.index = id.index) (h : p.inheritedLayout id = .ok inherited)
    : p.inheritedLayout id' = .ok inherited := by
  have hsame : p.type id' = p.type id := by rw [type, type, hid]
  unfold inheritedLayout at h ⊢
  rw [hsame]
  split at h
  · split at h <;> cases h
    simp only [*]
  · cases h
    simp only [*]

theorem ownFields_congr (hfields : (q.type id').fields = (p.type id).fields)
    (hstatic : ∀ f ∈ (p.type id).fields, (q.field f).isStatic = (p.field f).isStatic) :
    q.ownFields id' = p.ownFields id := by
  rw [ownFields, ownFields, hfields]
  exact List.filter_congr fun f hf => by rw [hstatic f hf]

theorem laidOut_iff : p.LaidOut id.index l ↔ (p.type id).layout = some l := by
  constructor
  · rintro ⟨r, hr, hl⟩
    rw [type_eq hr, hl]
  · intro hl
    cases hr : p.types[id.index]? with
    | none =>
      rw [type, Array.getD_eq_getD_getElem?, hr] at hl
      cases hl
    | some r => exact ⟨r, hr, by rwa [type_eq hr] at hl⟩

/-- Nothing happens to complete types and to their fields. -/
structure Steady (p q : Program) : Prop where
  types : ∀ (i : Nat) (r : TypeRecord) (l : List FieldId), p.types[i]? = some r → r.layout = some l →
    q.types[i]? = some r
  fields : ∀ (i : Nat) (l : List FieldId) (f : FieldId) (r : FieldRecord), p.LaidOut i l → p.Lists i f →
    p.fields[f.index]? = some r → q.fields[f.index]? = some r

namespace Arranged

/-- A field of a complete type has a record. -/
theorem record (h : p.Arranged) {f : FieldId} (hf : p.Lists i f) : p.fields[f.index]? = some (p.field f) := by
  have hr := Array.getElem?_eq_getElem (h.ranged i f hf)
  rw [hr, field_eq hr]

theorem field_steady (h : p.Arranged) (hq : p.Steady q) {f : FieldId} (hl : p.LaidOut i l) (hf : p.Lists i f) :
    q.field f = p.field f :=
  field_eq (hq.fields i l f _ hl hf (h.record hf))

theorem laidOut_steady (_ : p.Arranged) (hq : p.Steady q) (hl : p.LaidOut i l) : q.LaidOut i l := by
  obtain ⟨r, hr, hl⟩ := hl
  exact ⟨r, hq.types i r l hr hl, hl⟩

theorem laid_steady (h : p.Arranged) (hq : p.Steady q) (hl : p.LaidOut i l) : q.Laid i l := by
  have hlaid := h.laid i l hl
  obtain ⟨r, hr, hlayout⟩ := hl
  have hr' := hq.types i r l hr hlayout
  refine ⟨fun f hf hstatic => ?_, fun n f hf => ?_, fun r'' b hr'' hb => ?_⟩
  · obtain ⟨_, hr'', hf⟩ := hf
    cases hr'.symm.trans hr''
    rw [h.field_steady hq ⟨r, hr, hlayout⟩ ⟨r, hr, hf⟩] at hstatic
    exact hlaid.own f ⟨r, hr, hf⟩ hstatic
  · obtain ⟨record, hrecord, hslot, hstatic, j, l', hj, hl'⟩ := hlaid.placed n f hf
    refine ⟨record, hq.fields j l' f record hl' hj hrecord, hslot, hstatic, j, l', ?_, h.laidOut_steady hq hl'⟩
    obtain ⟨t, ht, hf⟩ := hj
    obtain ⟨t', ht', hl'⟩ := hl'
    cases ht.symm.trans ht'
    exact ⟨t, hq.types j t l' ht hl', hf⟩
  · cases hr'.symm.trans hr''
    obtain ⟨inherited, hinherited, hprefix⟩ := hlaid.base r b hr hb
    exact ⟨inherited, h.laidOut_steady hq hinherited, hprefix⟩

/-- What a type inherits and what it adds stay the same when its base is complete. -/
theorem inheritedLayout_steady (h : p.Arranged) (hq : p.Steady q) (hbase : (q.type id).base = (p.type id).base)
    (hi : p.inheritedLayout id = .ok inherited) :
    q.inheritedLayout id = .ok inherited := by
  unfold inheritedLayout
  rw [hbase]
  rcases of_inheritedLayout hi with ⟨rfl, hnone⟩ | ⟨b, hb, hlaid⟩
  · split
    · rename_i b hb
      exact (hnone b hb).elim
    · rfl
  · rw [hb]
    simp only [laidOut_iff.mp (h.laidOut_steady hq hlaid)]

theorem composed_steady (h : p.Arranged) (hq : p.Steady q) (hl : p.LaidOut id.index l) :
    ∃ inherited, q.inheritedLayout id = .ok inherited ∧ l = inherited ++ q.ownFields id := by
  obtain ⟨inherited, hi, rfl⟩ := h.composed id l hl
  obtain ⟨r, hr, hlayout⟩ := hl
  have htype : q.type id = p.type id := (type_eq (hq.types _ r _ hr hlayout)).trans (type_eq hr).symm
  refine ⟨inherited, h.inheritedLayout_steady hq (by rw [htype]) hi, ?_⟩
  refine congrArg _ (ownFields_congr (by rw [htype]) fun f hf => ?_).symm
  rw [type_eq hr] at hf
  rw [h.field_steady hq ⟨r, hr, hlayout⟩ ⟨r, hr, hf⟩]

/-! ### One request -/

theorem empty : Arranged (bare {}) := by
  have hnone (i : Nat) (r : TypeRecord) : (bare {}).types[i]? ≠ some r := by simp [bare]
  exact ⟨fun i _ ⟨r, hr, _⟩ => (hnone i r hr).elim, fun i r hr => (hnone i r hr).elim,
    fun i _ _ _ ⟨r, hr, _⟩ => (hnone i r hr).elim, fun i _ ⟨r, hr, _⟩ => (hnone i r hr).elim,
    fun i _ ⟨r, hr, _⟩ => (hnone i r hr).elim, fun _ _ ⟨r, hr, _⟩ => (hnone _ r hr).elim⟩

theorem type_steady (r : TypeRecord) : p.Steady (p.withType r) :=
  ⟨fun _ _ _ ht _ => getElem?_push_of_some ht, fun _ _ _ _ _ _ hf => hf⟩

theorem type (h : p.Arranged) (hfields : r.fields = []) (hlayout : r.layout = none) : (p.withType r).Arranged := by
  have hlists {i : Nat} {f : FieldId} (hf : (p.withType r).Lists i f) : p.Lists i f := by
    obtain ⟨t, ht, hf⟩ := hf
    rcases withType_cases ht with ht | ⟨-, rfl⟩
    · exact ⟨t, ht, hf⟩
    · rw [hfields] at hf
      cases hf
  have hlaid {i : Nat} {l : List FieldId} (hl : (p.withType r).LaidOut i l) : p.LaidOut i l := by
    obtain ⟨t, ht, hl⟩ := hl
    rcases withType_cases ht with ht | ⟨-, rfl⟩
    · exact ⟨t, ht, hl⟩
    · cases hlayout.symm.trans hl
  refine ⟨fun i f hf => h.ranged i f (hlists hf), fun i t ht => ?_, fun i j f g hf hg =>
    h.alone i j f g (hlists hf) (hlists hg),
    fun i f hf hopen => ?_, fun i l hl => h.laid_steady (type_steady r) (hlaid hl),
    fun id l hl => h.composed_steady (type_steady r) (hlaid hl)⟩
  · rcases withType_cases ht with ht | ⟨-, rfl⟩
    · exact h.once i t ht
    · rw [hfields]
      exact .nil
  · exact h.unplaced i f (hlists hf) fun l hl => hopen l (h.laidOut_steady (type_steady r) hl)

section Field

variable {i : Nat} {f : FieldId} {r : FieldRecord}

theorem withField_steady (hopen : ∀ l, ¬ p.LaidOut i l) : p.Steady (p.withField i f r) := by
  refine ⟨fun j t l ht hl => ?_, fun _ _ _ _ _ _ hg => getElem?_push_of_some hg⟩
  have hne : i ≠ j := fun hij => hopen l ⟨t, hij ▸ ht, hl⟩
  exact (modify_types ht).trans (by rw [if_neg hne])

theorem field (h : p.Arranged) (hindex : f.index = p.fields.size) (hslot : r.slot = none)
    (hopen : ∀ l, ¬ p.LaidOut i l) :
    (p.withField i f r).Arranged := by
  have hlaid {j : Nat} {l : List FieldId} (hl : (p.withField i f r).LaidOut j l) : p.LaidOut j l :=
    laidOut_of_modify (show _ = p.types.modify i fun t => { t with fields := t.fields ++ [f] } from rfl)
      (fun _ => rfl) hl
  have hsize : (p.withField i f r).fields.size = p.fields.size + 1 := Array.size_push ..
  have hsteady : p.Steady (p.withField i f r) := withField_steady hopen
  refine ⟨fun j g hg => ?_, fun j t ht => ?_, fun j k g g' hg hg' heq => ?_, fun j g hg hnone => ?_,
    fun j l hl => h.laid_steady hsteady (hlaid hl), fun id l hl => h.composed_steady hsteady (hlaid hl)⟩
  · rcases withField_lists hg with hg | ⟨-, rfl⟩
    · exact hsize ▸ Nat.lt_succ_of_lt (h.ranged j g hg)
    · exact hsize ▸ hindex ▸ Nat.lt_succ_self _
  · obtain ⟨t', ht', rfl⟩ := types_modify ht
    by_cases hij : i = j
    · rw [if_pos hij, List.map_append, List.nodup_append]
      refine ⟨h.once j t' ht', List.nodup_singleton _, fun a ha b hb => ?_⟩
      obtain ⟨g, hg, rfl⟩ := List.mem_map.mp ha
      rw [List.map_singleton, List.mem_singleton] at hb
      exact Nat.ne_of_lt (hb ▸ hindex ▸ h.ranged j g ⟨t', ht', hg⟩)
    · rw [if_neg hij]
      exact h.once j t' ht'
  · rcases withField_lists hg with hold | ⟨hj, hg⟩ <;> rcases withField_lists hg' with hold' | ⟨hk, hg'⟩
    · exact h.alone j k g g' hold hold' heq
    · exact absurd (h.ranged j g hold) (by rw [heq, hg', hindex]; exact Nat.lt_irrefl _)
    · exact absurd (h.ranged k g' hold') (by rw [← heq, hg, hindex]; exact Nat.lt_irrefl _)
    · rw [hj, hk]
  · rcases withField_lists hg with hg | ⟨rfl, rfl⟩
    · have hrecord : (p.withField i f r).fields[g.index]? = some (p.field g) := getElem?_push_of_some (h.record hg)
      rw [field_eq hrecord]
      exact h.unplaced j g hg fun l hl => hnone l (h.laidOut_steady hsteady hl)
    · have hrecord : (p.withField j g r).fields[g.index]? = some r := by
        rw [hindex]
        exact Array.getElem?_push_size
      rw [field_eq hrecord, hslot]

end Field

section Complete

theorem placeFields_eq (fs : List FieldId) : ∀ (p : Program) (slot : Nat),
    p.placeFields slot fs = { p with fields := (p.placeFields slot fs).fields } := by
  induction fs with
  | nil => exact fun _ _ => rfl
  | cons f fs ih => exact fun p slot => ih _ _

variable {id : TypeId} {inherited : List FieldId}

theorem nodup_ownFields (h : p.Arranged) (hr : p.types[id.index]? = some r) :
    ((p.ownFields id).map (·.index)).Nodup := by
  rw [ownFields, type_eq hr]
  exact (h.once _ r hr).sublist (List.filter_sublist.map _)

/-- Completing a type again changes nothing. -/
theorem withLayout_again (h : p.Arranged) (hl : p.LaidOut id.index l)
    (hi : p.inheritedLayout id = .ok inherited) : p.withLayout id.index inherited (p.ownFields id) = p := by
  obtain ⟨inherited', hi', hcomposed⟩ := h.composed id l hl
  cases hi.symm.trans hi'
  have hlaid := h.laid _ l hl
  obtain ⟨r, hr, hlayout⟩ := hl
  have honce := h.nodup_ownFields hr
  have hfields (j : Nat) : (p.placeFields inherited.length (p.ownFields id)).fields[j]? = p.fields[j]? := by
    by_cases hj : j ∈ (p.ownFields id).map (·.index)
    · obtain ⟨f, hf, rfl⟩ := List.mem_map.mp hj
      obtain ⟨n, hn⟩ := List.mem_iff_getElem?.mp hf
      have hplace : l[inherited.length + n]? = some f := by
        rw [hcomposed, List.getElem?_append_right (Nat.le_add_right _ _), Nat.add_sub_cancel_left, hn]
      obtain ⟨record, hrecord, hslot, -⟩ := hlaid.placed _ f hplace
      rw [placeFields_of_mem honce hn hrecord, hrecord, ← hslot]
    · exact placeFields_of_not_mem hj p _
  have htypes (j : Nat) : (p.types.modify id.index fun t => { t with layout := some l })[j]? = p.types[j]? := by
    rw [Array.getElem?_modify]
    split
    · rename_i hj
      subst hj
      rw [hr, ← hlayout]
      rfl
    · rfl
  rw [withLayout, placeFields_eq, ← hcomposed]
  simp only [Array.ext_getElem? hfields, Array.ext_getElem? htypes]

theorem completable (h : p.Arranged) (hr : p.types[id.index]? = some r) (hopen : ∀ l, ¬ p.LaidOut id.index l)
    (hi : p.inheritedLayout id = .ok inherited) : p.Completable id inherited where
  record := ⟨r, hr⟩
  unfinished := hopen
  inherits := hi
  once := h.nodup_ownFields hr
  alone j f g hf hg heq := h.alone j id.index f g hf ((mem_ownFields hr).mp hg).1 heq
  unplaced f hf := by
    have hlists := ((mem_ownFields hr).mp hf).1
    exact ⟨_, h.record hlists, h.unplaced _ f hlists hopen⟩

theorem complete_steady (hc : p.Completable id inherited) :
    p.Steady (p.withLayout id.index inherited (p.ownFields id)) := by
  have hne {i : Nat} {l : List FieldId} (hl : p.LaidOut i l) : i ≠ id.index := by
    rintro rfl
    exact hc.unfinished l hl
  refine ⟨fun i r l hr hl => ?_, fun i l f r hl hf hr => ?_⟩
  · rw [hc.types, modify_types hr, if_neg (hne ⟨r, hr, hl⟩).symm]
  · rw [hc.other hf (hne hl), hr]

theorem complete_first (h : p.Arranged) (hc : p.Completable id inherited) :
    (p.withLayout id.index inherited (p.ownFields id)).Arranged := by
  obtain ⟨record, hrecord⟩ := hc.record
  have hsteady := complete_steady hc
  have hlists {j : Nat} {f : FieldId} (hf : (p.withLayout id.index inherited (p.ownFields id)).Lists j f) :
      p.Lists j f :=
    lists_of_modify hc.types (fun _ => rfl) hf
  have hfield {j : Nat} {f : FieldId} (hf : p.Lists j f) :
      ∃ r, (p.withLayout id.index inherited (p.ownFields id)).fields[f.index]? = some r ∧ (p.field f).Grows r :=
    hc.grows.fields _ _ (h.record hf)
  refine ⟨fun j f hf => ?_, fun j r hr => ?_, fun j k f g hf hg => h.alone j k f g (hlists hf) (hlists hg),
    fun j f hf hopen => ?_, hc.laid h.ranged h.laid, fun id' l hl => ?_⟩
  · obtain ⟨r, hr, -⟩ := hfield (hlists hf)
    exact (Array.getElem?_eq_some_iff.mp hr).1
  · obtain ⟨r', hr', rfl⟩ := types_modify (hc.types ▸ hr)
    have honce := h.once j r' hr'
    split <;> exact honce
  · have hne : j ≠ id.index := by
      rintro rfl
      exact hopen _ hc.laidOut
    have hrecord := (hc.other (hlists hf) hne).trans (h.record (hlists hf))
    rw [field_eq hrecord]
    exact h.unplaced j f (hlists hf) fun l hl => hopen l (hc.grows.laidOut hl)
  · rcases hc.laidOut_cases hl with ⟨hid, rfl⟩ | ⟨-, hold⟩
    · have htype : (p.withLayout id.index inherited (p.ownFields id)).type id' =
          { record with layout := some (inherited ++ p.ownFields id) } := by
        exact type_eq (by rw [hid, hc.types, modify_types hrecord, if_pos rfl])
      have hold : p.type id' = record := type_eq (hid ▸ hrecord)
      refine ⟨inherited, ?_, congrArg _ ?_⟩
      · refine h.inheritedLayout_steady hsteady (by rw [htype, hold]) ?_
        exact inheritedLayout_index hid hc.inherits
      · refine (ownFields_congr (by rw [htype, type_eq hrecord]) fun f hf => ?_).symm
        rw [type_eq hrecord] at hf
        obtain ⟨r, hr, hg⟩ := hfield ⟨record, hrecord, hf⟩
        rw [field_eq hr, hg.isStatic]
    · exact h.composed_steady hsteady hold

/-- A type that is not there, is complete already, or is completed now. -/
theorem complete_cases (h : p.Arranged) (hi : p.inheritedLayout id = .ok inherited) :
    p.withLayout id.index inherited (p.ownFields id) = p ∨ p.Completable id inherited := by
  cases hr : p.types[id.index]? with
  | none =>
    left
    have htype : p.type id = default := by rw [Program.type, Array.getD_eq_getD_getElem?, hr]; rfl
    have hown : p.ownFields id = [] := by rw [ownFields, htype]; rfl
    have hsize := Array.getElem?_eq_none_iff.mp hr
    have htypes (j : Nat) : (p.types.modify id.index fun t => { t with layout := some (inherited ++ []) })[j]? =
        p.types[j]? := by
      rw [Array.getElem?_modify]
      split
      · rename_i hj
        rw [← hj, hr]
        rfl
      · rfl
    simp only [withLayout, hown, placeFields, Array.ext_getElem? htypes]
  | some r =>
    by_cases hl : ∃ l, p.LaidOut id.index l
    · obtain ⟨l, hl⟩ := hl
      exact .inl (h.withLayout_again hl hi)
    · exact .inr (h.completable hr (fun l hlaid => hl ⟨l, hlaid⟩) hi)

end Complete

theorem next (h : p.Arranged) (hq : p.Next request q) : q.Arranged ∧ p.Steady q := by
  cases hq with
  | same => exact ⟨h, fun _ _ _ hr _ => hr, fun _ _ _ _ _ _ hr => hr⟩
  | type r _ hfields hlayout => exact ⟨h.type hfields hlayout, type_steady r⟩
  | field i f r hindex hslot hopen => exact ⟨h.field hindex hslot hopen, withField_steady hopen⟩
  | complete id inherited hi =>
    rcases h.complete_cases hi with heq | hc
    · rw [heq]
      exact ⟨h, fun _ _ _ hr _ => hr, fun _ _ _ _ _ _ hr => hr⟩
    · exact ⟨h.complete_first hc, complete_steady hc⟩

end Arranged

theorem Steady.trans {s : Program} (h : p.Steady q) (h' : q.Steady s) : p.Steady s where
  types i r l hr hl := h'.types i r l (h.types i r l hr hl) hl
  fields i l f r := by
    rintro ⟨t, ht, hl⟩ ⟨t', ht', hf⟩ hr
    cases ht.symm.trans ht'
    have ht := h.types i t l ht hl
    exact h'.fields i l f r ⟨t, ht, hl⟩ ⟨t, ht, hf⟩ (h.fields i l f r ⟨t, ht', hl⟩ ⟨t, ht', hf⟩ hr)

/-- Any number of requests. -/
theorem Arranged.performAll (requests : List Request) : ∀ {p : Program}, p.bare.Arranged →
    (p.performAll requests).bare.Arranged ∧ p.bare.Steady (p.performAll requests).bare := by
  induction requests with
  | nil => exact fun h => ⟨h, fun _ _ _ hr _ => hr, fun _ _ _ _ _ _ hr => hr⟩
  | cons request requests ih =>
    intro p h
    obtain ⟨hnext, hsteady⟩ := h.next (next_perform p request)
    obtain ⟨hall, hrest⟩ := ih hnext
    exact ⟨hall, hsteady.trans hrest⟩

/-! ## Objects -/

/-- Where the fields of complete types are. -/
structure WellLaid (p : Program) : Prop where
  /-- The base of a complete type is complete, and its fields come first. -/
  base : ∀ id b l, (p.type id).layout = some l → (p.type id).base = some (.defined b) →
    ∃ inherited, (p.type b).layout = some inherited ∧ inherited <+: l
  distinct : ∀ id l, (p.type id).layout = some l → (l.map (·.index)).Nodup
  instances : ∀ id l, (p.type id).layout = some l → ∀ f ∈ l, (p.field f).isStatic = false
  slots : ∀ id l n f, (p.type id).layout = some l → l[n]? = some f → (p.field f).slot = some n

/-- Complete types keep their layouts, and the places of all their fields. -/
def Keeps (p q : Program) : Prop :=
  ∀ id l, (p.type id).layout = some l → (q.type id).layout = some l ∧ (q.type id).fields = (p.type id).fields ∧
    ∀ f, f ∈ l ∨ f ∈ (p.type id).fields → (q.field f).slot = (p.field f).slot

/-- The first type is the second, or has it among its bases. -/
def Derives (p : Program) : TypeId → TypeId → Prop :=
  Relation.ReflTransGen fun d b => (p.type d).base = some (.defined b)

theorem Arranged.wellLaid (h : p.bare.Arranged) : p.WellLaid := by
  have hlaid {id : TypeId} {l : List FieldId} (hl : (p.type id).layout = some l) : p.bare.Laid id.index l :=
    h.laid _ _ (laidOut_iff.mpr (by rw [bare_type]; exact hl))
  have hplaced {id : TypeId} {l : List FieldId} (hl : (p.type id).layout = some l) {n : Nat} {f : FieldId}
      (hf : l[n]? = some f) : (p.field f).slot = some n ∧ (p.field f).isStatic = false := by
    obtain ⟨r, hr, hslot, hstatic, -⟩ := (hlaid hl).placed n f hf
    have hfield : p.field f = r := field_eq hr
    exact ⟨hfield ▸ hslot, hfield ▸ hstatic⟩
  refine ⟨fun id b l hl hb => ?_, fun id l hl => ?_, fun id l hl f hf => ?_, fun id l n f hl hf => (hplaced hl hf).1⟩
  · obtain ⟨r, hr, -⟩ := laidOut_iff.mpr hl
    obtain ⟨inherited, hinherited, hprefix⟩ := (hlaid hl).base r.bare b (by rw [bare_types, hr]; rfl)
      (by rw [type_eq hr] at hb; exact hb)
    have hlayout := laidOut_iff.mp hinherited
    rw [bare_type] at hlayout
    exact ⟨inherited, hlayout, hprefix⟩
  · -- A field that came up twice would be in two places.
    rw [List.nodup_iff_getElem?_ne_getElem?]
    intro m n hmn hn heq
    rw [List.length_map] at hn
    have hf := List.getElem?_eq_getElem (Nat.lt_trans hmn hn)
    have hg := List.getElem?_eq_getElem hn
    rw [List.getElem?_map, List.getElem?_map, hf, hg] at heq
    have hindex : l[m].index = l[n].index := Option.some.inj heq
    have hsame : p.field l[m] = p.field l[n] := by rw [Program.field, Program.field, hindex]
    have hslots := (hplaced hl hf).1.symm.trans (hsame ▸ (hplaced hl hg).1)
    exact Nat.ne_of_lt hmn (Option.some.inj hslots)
  · obtain ⟨n, hn⟩ := List.mem_iff_getElem?.mp hf
    exact (hplaced hl hn).2

theorem Steady.keeps (h : p.bare.Arranged) (hq : p.bare.Steady q.bare) : p.Keeps q := by
  intro id l hl
  have hlaid : p.bare.LaidOut id.index l := laidOut_iff.mpr (by rw [bare_type]; exact hl)
  have hbare : q.bare.type id = p.bare.type id := by
    obtain ⟨r, hr, hlayout⟩ := hlaid
    rw [type_eq hr, type_eq (hq.types _ r l hr hlayout)]
  rw [bare_type, bare_type] at hbare
  obtain ⟨-, -, -, -, hfields, -, -, hlayout⟩ := TypeRecord.mk.inj hbare
  refine ⟨hlayout.trans hl, hfields, fun f hf => ?_⟩
  have hfield : q.bare.field f = p.bare.field f := by
    rcases hf with hf | hf
    · obtain ⟨n, hn⟩ := List.mem_iff_getElem?.mp hf
      obtain ⟨r, hr, -, -, j, l', hj, hl'⟩ := (h.laid _ l hlaid).placed n f hn
      exact h.field_steady hq hl' hj
    · have hrecord := hlaid
      obtain ⟨r, hr, -⟩ := hrecord
      refine h.field_steady hq hlaid ⟨r, hr, ?_⟩
      rw [← type_eq hr, bare_type]
      exact hf
  exact congrArg FieldRecord.slot hfield

/-- The layout of a derived type goes on where that of its base ends. -/
theorem WellLaid.derived (h : p.WellLaid) (hd : p.Derives d id) {layout : List FieldId}
    (hl : (p.type d).layout = some layout) :
    ∃ l, (p.type id).layout = some l ∧ l <+: layout := by
  induction hd with
  | refl => exact ⟨layout, hl, List.prefix_refl _⟩
  | tail _ hbase ih =>
    obtain ⟨l, hl, hprefix⟩ := ih
    obtain ⟨inherited, hinherited, hless⟩ := h.base _ _ l hl hbase
    exact ⟨inherited, hinherited, hless.trans hprefix⟩

end Program

/-! ### Later heaps -/

/-- What can be done to a heap. -/
inductive Heap.Change : Heap → Heap → Prop
  | newObject (h : Heap) (o : Object) : Change h (h.newObject o).2
  | newCell (h : Heap) (v : Value) : Change h (h.newCell v).2
  | newDelegate (h : Heap) (target : Value) (method : MethodId) : Change h (h.newDelegate target method).2
  | newBox (h : Heap) (type : Ty) (content : Value) : Change h (h.newBox type content).2
  | setCell (h : Heap) (address : Nat) (v : Value) : Change h (h.setCell address v)
  | setField (h : Heap) (address slot : Nat) (v : Value) : Change h (h.setField address slot v)

def Heap.Later : Heap → Heap → Prop := Relation.ReflTransGen Heap.Change

/-- There are at least as many objects, and the old ones have the same type and as many fields. -/
structure Heap.Extends (h h' : Heap) : Prop where
  size : h.objects.size ≤ h'.objects.size
  same : ∀ a < h.objects.size, (h'.object a).type = (h.object a).type ∧
    (h'.object a).fields.size = (h.object a).fields.size

namespace Heap

variable {h h' : Heap}

theorem Change.extends (hc : h.Change h') : h.Extends h' := by
  cases hc with
  | newObject o =>
    refine ⟨by simp [Heap.newObject], fun a ha => ?_⟩
    have hsame : (h.newObject o).2.object a = h.object a := by
      simp only [Heap.newObject, object, Array.getD_eq_getD_getElem?, Array.getElem?_push_lt ha,
        Array.getElem?_eq_getElem ha]
    rw [hsame]
    exact ⟨rfl, rfl⟩
  | newCell | newDelegate | newBox | setCell => exact ⟨Nat.le_refl _, fun _ _ => ⟨rfl, rfl⟩⟩
  | setField address slot v =>
    refine ⟨by simp [Heap.setField], fun a ha => ?_⟩
    simp only [Heap.setField, object, Array.getD_eq_getD_getElem?, Array.getElem?_modify, Array.getElem?_eq_getElem ha]
    split <;> simp

theorem Extends.refl (h : Heap) : h.Extends h := ⟨Nat.le_refl _, fun _ _ => ⟨rfl, rfl⟩⟩

theorem Extends.trans {h'' : Heap} (hfirst : h.Extends h') (hsecond : h'.Extends h'') : h.Extends h'' := by
  refine ⟨Nat.le_trans hfirst.size hsecond.size, fun a ha => ?_⟩
  obtain ⟨htype, hsize⟩ := hfirst.same a ha
  obtain ⟨htype', hsize'⟩ := hsecond.same a (Nat.lt_of_lt_of_le ha hfirst.size)
  exact ⟨htype'.trans htype, hsize'.trans hsize⟩

theorem Later.extends (hl : h.Later h') : h.Extends h' := by
  induction hl with
  | refl => exact .refl h
  | tail _ hchange ih => exact ih.trans hchange.extends

end Heap

namespace Program

variable {p : Program}

theorem exec_allocate {layout : List FieldId} (hl : (p.type d).layout = some layout) (w : World) :
    (p.allocate (.defined d)).exec w = (.ok (.object w.heap.objects.size),
      { w with heap := (w.heap.newObject
        { type := .defined d, fields := (layout.map fun f => Value.initial (p.field f).type).toArray }).2 }) := by
  unfold allocate
  simp only [hl]
  rfl

/-- The fields of the second type can be read from an object that is made for the first, at any later time. -/
def Reads (p : Program) (d id : TypeId) : Prop :=
  ∀ layout, (p.type d).layout = some layout → ∃ l, (p.type id).layout = some l ∧
    ∀ n f, l[n]? = some f → layout[n]? = some f ∧ (p.field f).slot = some n ∧
      ∀ w, ∃ made w', (p.allocate (.defined d)).exec w = (.ok made, w') ∧
        ∀ later : World, w'.heap.Later later.heap → ∀ (frame : Frame) (pc : Nat) (stack : List Value), ∃ v,
          (loadField p (frame.moved pc (made :: stack)) f).exec later = (.ok (frame.moved pc (v :: stack)), later)

theorem WellLaid.reads (h : p.WellLaid) (hd : p.Derives d id) : p.Reads d id := by
  intro layout hlayout
  obtain ⟨l, hl, hprefix⟩ := h.derived hd hlayout
  refine ⟨l, hl, fun n f hf => ?_⟩
  have hn : layout[n]? = some f := by
    obtain ⟨own, rfl⟩ := hprefix
    rw [List.getElem?_append_left (List.getElem?_eq_some_iff.mp hf).1, hf]
  have hslot := h.slots d layout n f hlayout hn
  refine ⟨hn, hslot, fun w => ⟨_, _, exec_allocate hlayout w, fun later hlater frame pc stack => ?_⟩⟩
  obtain ⟨-, hsize⟩ := hlater.extends.same w.heap.objects.size (by simp [Heap.newObject])
  have hlt : n < ((later.heap.object w.heap.objects.size).fields).size := by
    rw [hsize, Heap.newObject, Heap.object, Array.getD_eq_getD_getElem?, Array.getElem?_push_size]
    simpa using (List.getElem?_eq_some_iff.mp hn).1
  exact ⟨_, exec_loadField (by rw [fieldSlot, hslot]) (Array.getElem?_eq_getElem hlt)⟩

/-- However a program is made, the fields of complete types are in their places, and stay there whatever is asked of
    the program later: a field that is inherited is at the same place in every derived object, and can always be read
    from it. -/
theorem objects_are_laid_out (requests : List Request) :
    (performAll {} requests).WellLaid ∧
    (∀ more, (performAll {} requests).Keeps (performAll {} (requests ++ more))) ∧
    ∀ d id, (performAll {} requests).Derives d id → (performAll {} requests).Reads d id := by
  have harranged : (performAll {} requests).bare.Arranged := (Arranged.performAll requests Arranged.empty).1
  have hlaid := harranged.wellLaid
  refine ⟨hlaid, fun more => ?_, fun d id => hlaid.reads⟩
  rw [performAll_append]
  exact (Arranged.performAll more harranged).2.keeps harranged

end Program

end Stackwright.Machine
