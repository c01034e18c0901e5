import Mathlib.Data.List.Forall2
import Stackwright.Proofs.Installed

/-
  Stackwright.Proofs.Growth — how a program grows while it is built, and what references stand for.

  Entities keep their numbers and what they were defined with; a type only gains members and a
  layout, a field a slot, a method a body. A class may be referred to by its key or by its name, so
  a resolved type is known up to that difference.

  - `TypeRef.Resolves`, `MethodRef.Resolves`, `ConstructorRef.Resolves`, `FieldRef.Resolves`: what a
    reference stands for; each stays so when the program grows.
  - `MethodRef.of_resolve` and the like: what following a reference does.
-/

namespace Stackwright

open Machine (Ty TypeId FieldId MethodId TypeRecord FieldRecord MethodRecord Program handles)

variable {t : TypeRef} {ty : Ty} {ts : List TypeRef} {tys : List Ty} {r : MethodRecord} {i : Nat} {id : TypeId}
  {ref : MethodRef}
variable {p q : Program} {m : MethodId} {name : String} {f : FieldId}

/-! ## Slots -/

namespace Slots

variable {H : Handles} {s s' : Slots H} {key k : ItemKey}

theorem read_of_write {v : H.At key} (h : s.write key v = .ok s') : s'.read key = .ok v := by
  unfold write at h
  split at h
  · cases h
  · obtain ⟨slot, hslot, h⟩ := except_bind_ok.mp h
    cases h
    unfold Slot.write at hslot
    split at hslot
    · cases hslot
      rw [read, Std.DTreeMap.get?_insert_self]
      rfl
    · cases hslot

theorem read_write_of_ne {v : H.At key} (h : s.write key v = .ok s') (hk : key ≠ k) : s'.read k = s.read k := by
  unfold write at h
  split at h
  · cases h
  · obtain ⟨slot, -, h⟩ := except_bind_ok.mp h
    cases h
    have hget : (s.insert key slot).get? k = s.get? k := by
      rw [Std.DTreeMap.get?_insert, dif_neg]
      exact fun h => hk (Std.LawfulEqCmp.eq_of_compare h)
    unfold read
    rw [hget]

/-- What can be written was not there before. -/
theorem not_read_of_write {v x : H.At key} (h : s.write key v = .ok s') : s.read key ≠ .ok x := by
  intro hread
  unfold write at h
  unfold read at hread
  split at h
  · cases h
  · rename_i slot hslot
    rw [hslot] at hread
    obtain ⟨slot', hslot', -⟩ := except_bind_ok.mp h
    unfold Slot.write at hslot'
    unfold Slot.read at hread
    split at hslot'
    · rename_i hcontent
      simp [hcontent] at hread
    · cases hslot'

/-- What has been written stays. -/
def Grows (s s' : Slots H) : Prop := ∀ key v, s.read key = .ok v → s'.read key = .ok v

theorem Grows.refl (s : Slots H) : s.Grows s := fun _ _ h => h

theorem Grows.trans {s'' : Slots H} (h : s.Grows s') (h' : s'.Grows s'') :
    s.Grows s'' := fun key v hv => h' key v (h key v hv)

theorem grows_of_write {v : H.At key} (h : s.write key v = .ok s') : s.Grows s' := by
  intro k x hx
  by_cases hk : key = k
  · subst hk
    exact (not_read_of_write h hx).elim
  · rw [read_write_of_ne h hk, hx]

end Slots

/-! ## Types up to names -/

mutual
/-- The type with every class given by its name. -/
def TypeRef.erased : TypeRef → TypeRef
  | .deferred key => .named key.name
  | .primitive p => .primitive p
  | .named name => .named name
  | .cell content => .cell content.erased
  | .delegate params ret => .delegate (TypeRef.erasedAll params) ret.erased

def TypeRef.erasedAll : List TypeRef → List TypeRef
  | [] => []
  | t :: ts => t.erased :: TypeRef.erasedAll ts
end

mutual
def Machine.Ty.erased : Ty → TypeRef
  | .primitive p => .primitive p
  | .named name => .named name
  | .cell content => .cell content.erased
  | .delegate params ret => .delegate (Machine.Ty.erasedAll params) ret.erased
  | .defined id => .named id.name

def Machine.Ty.erasedAll : List Ty → List TypeRef
  | [] => []
  | t :: ts => t.erased :: Machine.Ty.erasedAll ts
end

/-- What the type stands for, when the slots are as given. -/
structure TypeRef.Resolves (slots : Slots handles) (t : TypeRef) (ty : Ty) : Prop where
  erased : ty.erased = t.erased
  exact : ∀ key, t = .deferred key → slots.read (.type key) = .ok ty
  /-- Every class that is mentioned is there. -/
  mentioned : ∀ key ∈ t.mentions, ∃ ty, slots.read (.type key) = .ok ty

/-- The handles of types bear the names of their keys. -/
def Slots.Named (slots : Slots handles) : Prop := ∀ key (ty : Ty), slots.read (.type key) = .ok ty →
    ty.erased = .named key.name

namespace TypeRef

variable {slots slots' : Slots handles} {p : Program}

theorem Resolves.mono (h : t.Resolves slots ty) (hslots : slots.Grows slots') : t.Resolves slots' ty :=
  ⟨h.erased, fun key hkey => hslots _ _ (h.exact key hkey), fun key hkey => (h.mentioned key hkey).imp fun _ hty =>
    hslots _ _ hty⟩

theorem mentioned_of_forall₂ (h : List.Forall₂ (Resolves slots) ts tys) :
    ∀ key ∈ mentionsAll ts, ∃ ty, slots.read (.type key) = .ok ty := by
  induction h with
  | nil => exact fun _ hkey => by cases hkey
  | cons ht _ ih => exact fun key hkey => (List.mem_append.mp hkey).elim (ht.mentioned key) (ih key)

theorem erasedAll_eq (h : List.Forall₂ (Resolves slots) ts tys) : Ty.erasedAll tys = erasedAll ts := by
  induction h with
  | nil => rfl
  | cons ht _ ih => rw [Ty.erasedAll, erasedAll, ht.erased, ih]

mutual
theorem of_resolve (hnamed : slots.Named) : ∀ (t : TypeRef) {ty : Ty} {q : Program},
    (t.resolve machine slots).exec p = (.ok ty, q) → p = q ∧ t.Resolves slots ty
  | .deferred key, ty, q, h => by
    have hread : slots.read (.type key) = .ok ty := congrArg Prod.fst h
    refine ⟨congrArg Prod.snd h, hnamed key ty hread, fun k hk => ?_, fun k hk => ?_⟩
    · cases hk
      exact hread
    · cases List.mem_singleton.mp hk
      exact ⟨ty, hread⟩
  | .primitive p, ty, q, h => by
    cases h
    exact ⟨rfl, rfl, (fun _ hk => by cases hk), fun _ hk => by cases hk⟩
  | .named name, ty, q, h => by
    rw [TypeRef.resolve, Program.exec_namedType] at h
    cases h
    refine ⟨rfl, ?_, (fun _ hk => by cases hk), fun _ hk => by cases hk⟩
    unfold Program.known Program.findType
    cases p.types.findIdx? fun t => t.name == name <;> rfl
  | .cell content, ty, q, h => by
    rw [TypeRef.resolve] at h
    obtain ⟨content', q₁, hcontent, h⟩ := Effect.exec_bind_ok.mp h
    obtain ⟨rfl, hresolves⟩ := of_resolve hnamed content hcontent
    cases h
    refine ⟨rfl, ?_, (fun _ hk => by cases hk), hresolves.mentioned⟩
    rw [Ty.erased, hresolves.erased, TypeRef.erased]
  | .delegate params ret, ty, q, h => by
    rw [TypeRef.resolve] at h
    obtain ⟨params', q₁, hparams, h⟩ := Effect.exec_bind_ok.mp h
    obtain ⟨ret', q₂, hret, h⟩ := Effect.exec_bind_ok.mp h
    obtain ⟨rfl, hparams'⟩ := of_resolveAll hnamed params hparams
    obtain ⟨rfl, hret'⟩ := of_resolve hnamed ret hret
    cases h
    refine ⟨rfl, ?_, (fun _ hk => by cases hk), fun key hkey => ?_⟩
    · rw [Ty.erased, erasedAll_eq hparams', hret'.erased, TypeRef.erased]
    · exact (List.mem_append.mp hkey).elim (mentioned_of_forall₂ hparams' key) (hret'.mentioned key)

theorem of_resolveAll (hnamed : slots.Named) : ∀ (ts : List TypeRef) {tys : List Ty} {q : Program},
    (TypeRef.resolveAll machine slots ts).exec p = (.ok tys, q) → p = q ∧ List.Forall₂ (Resolves slots) ts tys
  | [], tys, q, h => by
    cases h
    exact ⟨rfl, .nil⟩
  | t :: ts, tys, q, h => by
    rw [TypeRef.resolveAll] at h
    obtain ⟨ty, q₁, ht, h⟩ := Effect.exec_bind_ok.mp h
    obtain ⟨tys', q₂, hts, h⟩ := Effect.exec_bind_ok.mp h
    obtain ⟨rfl, ht'⟩ := of_resolve hnamed t ht
    obtain ⟨rfl, hts'⟩ := of_resolveAll hnamed ts hts
    cases h
    exact ⟨rfl, .cons ht' hts'⟩
end

end TypeRef

/-! ## Programs -/

namespace Machine

/-- A type that may have more members than before, and a layout. -/
structure TypeRecord.Grows (r r' : TypeRecord) : Prop where
  name : r'.name = r.name
  attributes : r'.attributes = r.attributes
  base : r'.base = r.base
  interfaces : r'.interfaces = r.interfaces
  fields : r.fields <+: r'.fields
  methods : r.methods <+: r'.methods
  layout : ∀ l, r.layout = some l → r'.layout = some l

/-- A field that may have been given its place. -/
structure FieldRecord.Grows (r r' : FieldRecord) : Prop where
  owner : r'.owner = r.owner
  name : r'.name = r.name
  type : r'.type = r.type
  isStatic : r'.isStatic = r.isStatic
  slot : ∀ n, r.slot = some n → r'.slot = some n

/-- A method that may have been given its body. -/
structure MethodRecord.Grows (r r' : MethodRecord) : Prop where
  owner : r'.owner = r.owner
  name : r'.name = r.name
  params : r'.params = r.params
  ret : r'.ret = r.ret
  isStatic : r'.isStatic = r.isStatic
  isVirtual : r'.isVirtual = r.isVirtual
  kind : r'.kind = r.kind ∨ r.kind = .defined none ∧ ∃ code, r'.kind = .defined (some code)

theorem TypeRecord.Grows.refl (r : TypeRecord) : r.Grows r :=
  ⟨rfl, rfl, rfl, rfl, List.prefix_refl _, List.prefix_refl _, fun _ h => h⟩

theorem FieldRecord.Grows.refl (r : FieldRecord) : r.Grows r := ⟨rfl, rfl, rfl, rfl, fun _ h => h⟩

theorem MethodRecord.Grows.refl (r : MethodRecord) : r.Grows r := ⟨rfl, rfl, rfl, rfl, rfl, rfl, .inl rfl⟩

theorem TypeRecord.Grows.trans {r r' r'' : TypeRecord} (h : r.Grows r') (h' : r'.Grows r'') : r.Grows r'' where
  name := h'.name.trans h.name
  attributes := h'.attributes.trans h.attributes
  base := h'.base.trans h.base
  interfaces := h'.interfaces.trans h.interfaces
  fields := h.fields.trans h'.fields
  methods := h.methods.trans h'.methods
  layout l hl := h'.layout l (h.layout l hl)

theorem FieldRecord.Grows.trans {r r' r'' : FieldRecord} (h : r.Grows r') (h' : r'.Grows r'') : r.Grows r'' where
  owner := h'.owner.trans h.owner
  name := h'.name.trans h.name
  type := h'.type.trans h.type
  isStatic := h'.isStatic.trans h.isStatic
  slot n hn := h'.slot n (h.slot n hn)

theorem MethodRecord.Grows.trans {r' r'' : MethodRecord} (h : r.Grows r') (h' : r'.Grows r'') : r.Grows r'' where
  owner := h'.owner.trans h.owner
  name := h'.name.trans h.name
  params := h'.params.trans h.params
  ret := h'.ret.trans h.ret
  isStatic := h'.isStatic.trans h.isStatic
  isVirtual := h'.isVirtual.trans h.isVirtual
  kind := by
    rcases h.kind with hkind | ⟨hnone, code, hcode⟩
    · rcases h'.kind with hkind' | ⟨hnone', hcode'⟩
      · exact .inl (hkind'.trans hkind)
      · exact .inr ⟨hkind.symm.trans hnone', hcode'⟩
    · rcases h'.kind with hkind' | ⟨hnone', -⟩
      · exact .inr ⟨hnone, code, hkind'.trans hcode⟩
      · cases hcode.symm.trans hnone'

/-- Everything is still there, under the same number. -/
structure Program.Grows (p q : Program) : Prop where
  types : ∀ (i : Nat) (r : TypeRecord), p.types[i]? = some r → ∃ r', q.types[i]? = some r' ∧ r.Grows r'
  fields : ∀ (i : Nat) (r : FieldRecord), p.fields[i]? = some r → ∃ r', q.fields[i]? = some r' ∧ r.Grows r'
  methods : ∀ (i : Nat) (r : MethodRecord), p.methods[i]? = some r → ∃ r', q.methods[i]? = some r' ∧ r.Grows r'

theorem Program.Grows.refl (p : Program) : p.Grows p :=
  ⟨fun _ r h => ⟨r, h, .refl r⟩, fun _ r h => ⟨r, h, .refl r⟩, fun _ r h => ⟨r, h, .refl r⟩⟩

theorem Program.Grows.trans {s : Program} (h : p.Grows q) (h' : q.Grows s) : p.Grows s where
  types i r hr := by
    obtain ⟨r', hr', hgrows⟩ := h.types i r hr
    obtain ⟨r'', hr'', hgrows'⟩ := h'.types i r' hr'
    exact ⟨r'', hr'', hgrows.trans hgrows'⟩
  fields i r hr := by
    obtain ⟨r', hr', hgrows⟩ := h.fields i r hr
    obtain ⟨r'', hr'', hgrows'⟩ := h'.fields i r' hr'
    exact ⟨r'', hr'', hgrows.trans hgrows'⟩
  methods i r hr := by
    obtain ⟨r', hr', hgrows⟩ := h.methods i r hr
    obtain ⟨r'', hr'', hgrows'⟩ := h'.methods i r' hr'
    exact ⟨r'', hr'', hgrows.trans hgrows'⟩

/-- The members that types list exist. -/
structure Program.Ranged (p : Program) : Prop where
  methods : ∀ (i : Nat) (r : TypeRecord), p.types[i]? = some r → ∀ m ∈ r.methods, m.index < p.methods.size
  fields : ∀ (i : Nat) (r : TypeRecord), p.types[i]? = some r → ∀ f ∈ r.fields, f.index < p.fields.size

/-- Some methods of the machine have been noted. -/
def Program.Notes (P : MethodRecord → Prop) (p q : Program) : Prop :=
  ∃ extra : List MethodRecord, (∀ r ∈ extra, r.kind = .native ∧ (∀ id, r.owner ≠ .defined id) ∧ P r) ∧
    q = { p with methods := p.methods ++ extra.toArray }

namespace Program.Notes

variable {P Q : MethodRecord → Prop} {p q s : Program}

theorem refl (p : Program) : p.Notes P p := ⟨[], by simp, by simp⟩

theorem trans (h : p.Notes P q) (h' : q.Notes P s) : p.Notes P s := by
  obtain ⟨extra, hextra, rfl⟩ := h
  obtain ⟨more, hmore, rfl⟩ := h'
  refine ⟨extra ++ more, fun r hr => ?_, by simp⟩
  rcases List.mem_append.mp hr with hr | hr
  · exact hextra r hr
  · exact hmore r hr

theorem mono (h : p.Notes P q) (hPQ : ∀ r, P r → Q r) : p.Notes Q q := by
  obtain ⟨extra, hextra, rfl⟩ := h
  exact ⟨extra, fun r hr => ⟨(hextra r hr).1, (hextra r hr).2.1, hPQ r (hextra r hr).2.2⟩, rfl⟩

theorem types (h : p.Notes P q) : q.types = p.types := by
  obtain ⟨extra, -, rfl⟩ := h
  rfl

theorem fields (h : p.Notes P q) : q.fields = p.fields := by
  obtain ⟨extra, -, rfl⟩ := h
  rfl

theorem methods (h : p.Notes P q) (hr : p.methods[i]? = some r) : q.methods[i]? = some r := by
  obtain ⟨extra, -, rfl⟩ := h
  have hi := (Array.getElem?_eq_some_iff.mp hr).1
  rw [← hr]
  exact Array.getElem?_append_left hi

theorem grows (h : p.Notes P q) : p.Grows q where
  types i r hr := ⟨r, by rw [h.types, hr], .refl r⟩
  fields i r hr := ⟨r, by rw [h.fields, hr], .refl r⟩
  methods i r hr := ⟨r, h.methods hr, .refl r⟩

theorem ranged (h : p.Notes P q) (hp : p.Ranged) : q.Ranged where
  methods i r hr m hm := by
    rw [h.types] at hr
    have hlt := hp.methods i r hr m hm
    obtain ⟨extra, -, rfl⟩ := h
    simp only [Array.size_append]
    omega
  fields i r hr f hf := by
    rw [h.types] at hr
    rw [h.fields]
    exact hp.fields i r hr f hf

/-- A method is an old one, or one that was noted. -/
theorem cases (h : p.Notes P q) (hr : q.methods[i]? = some r) :
    p.methods[i]? = some r ∨ r.kind = .native ∧ (∀ id, r.owner ≠ .defined id) ∧ P r := by
  obtain ⟨extra, hextra, rfl⟩ := h
  rw [Array.getElem?_append] at hr
  split at hr
  · exact .inl hr
  · right
    rw [List.getElem?_toArray] at hr
    exact hextra r (List.mem_of_getElem? hr)

end Program.Notes

/-- The method is the machine's, and the one that the record asks for. -/
structure Program.NativeAt (p : Program) (m : MethodId) (record : MethodRecord) : Prop where
  owner : ∀ id, record.owner ≠ .defined id
  name : m.name = memberName record.owner record.name
  found : ∃ r, p.methods[m.index]? = some r ∧ r.kind = .native ∧ r.owner = record.owner ∧ r.name = record.name ∧
    r.params = record.params ∧ r.isStatic = record.isStatic

theorem Program.NativeAt.mono {record : MethodRecord} (h : p.NativeAt m record) (hgrows : p.Grows q) :
    q.NativeAt m record := by
  obtain ⟨howner, hname, r, hr, hkind, hown, hnm, hparams, hstatic⟩ := h
  obtain ⟨r', hr', hg⟩ := hgrows.methods _ r hr
  refine ⟨howner, hname, r', hr', ?_, hg.owner.trans hown, hg.name.trans hnm, hg.params.trans hparams,
    hg.isStatic.trans hstatic⟩
  rcases hg.kind with hk | ⟨hk, -⟩
  · exact hk.trans hkind
  · cases hkind.symm.trans hk

/-- The handle of the next method. -/
def Program.nextMethod (p : Program) (record : MethodRecord) : MethodId :=
  { index := p.methods.size, name := memberName record.owner record.name }

theorem Program.exec_addMethod_native {record : MethodRecord} (howner : ∀ id, record.owner ≠ .defined id)
    (p : Program) :
    (addMethod record).exec p = (.ok (p.nextMethod record), { p with methods := p.methods.push record }) := by
  obtain ⟨owner, name, params, ret, isStatic, isVirtual, kind⟩ := record
  cases owner with
  | defined id => exact (howner id rfl).elim
  | _ => rfl

theorem Program.exec_addMethod_defined {record : MethodRecord} {owner : TypeId} (howner : record.owner = .defined owner)
    (p : Program) : (addMethod record).exec p = (.ok (p.nextMethod record),
      { p with
        methods := p.methods.push record
        types := p.types.modify owner.index fun t => { t with methods := t.methods ++ [p.nextMethod record] } }) := by
  obtain ⟨_, name, params, ret, isStatic, isVirtual, kind⟩ := record
  subst howner
  rfl

theorem Program.of_nativeMethod {record : MethodRecord} (hkind : record.kind = .native)
    (howner : ∀ id, record.owner ≠ .defined id) (h : (nativeMethod record).exec p = (.ok m, q)) :
    q.NativeAt m record ∧ p.Notes (· = record) q := by
  unfold nativeMethod at h
  obtain ⟨p', p'', hget, h⟩ := Effect.exec_bind_ok.mp h
  cases hget
  simp only at h
  split at h
  · rename_i index hfound
    cases h
    refine ⟨⟨howner, rfl, ?_⟩, .refl p⟩
    obtain ⟨hlt, hsame, -⟩ := Array.findIdx?_eq_some_iff_getElem.mp hfound
    simp only [Bool.and_eq_true, beq_iff_eq] at hsame
    obtain ⟨⟨⟨⟨hnative, hown⟩, hname⟩, hparams⟩, hstatic⟩ := hsame
    refine ⟨p.methods[index], Array.getElem?_eq_getElem hlt, ?_, hown, hname, hparams, hstatic⟩
    cases hk : p.methods[index].kind with
    | native => rfl
    | _ =>
      rw [hk] at hnative
      cases hnative
  · rw [exec_addMethod_native howner] at h
    cases h
    refine ⟨⟨howner, rfl, record, by simp [nextMethod], hkind, rfl, rfl, rfl, rfl⟩, [record], ?_, by simp⟩
    simpa using ⟨hkind, howner⟩

/-- A method that a type lists. -/
theorem Program.of_findMethod (hp : p.Ranged) {params : List Ty} (h : p.findMethod id name params = some m) :
    ∃ r record, p.types[id.index]? = some r ∧ m ∈ r.methods ∧
      p.methods[m.index]? = some record ∧ record.name = name ∧ record.params = params := by
  have hmem := List.mem_of_find?_eq_some h
  have hsame := List.find?_some h
  simp only [Bool.and_eq_true, beq_iff_eq] at hsame
  unfold type at hmem
  rw [Array.getD_eq_getD_getElem?] at hmem
  cases htype : p.types[id.index]? with
  | none =>
    rw [htype] at hmem
    cases hmem
  | some r =>
    rw [htype] at hmem
    have hlt := hp.methods _ r htype m hmem
    have hrecord : p.methods[m.index]? = some (p.method m) := by
      rw [method, Array.getD_eq_getD_getElem?, Array.getElem?_eq_getElem hlt]
      rfl
    exact ⟨r, p.method m, rfl, hmem, hrecord, hsame.1, hsame.2⟩

theorem Program.of_findField (hp : p.Ranged) (h : p.findField id name = some f) :
    ∃ r record, p.types[id.index]? = some r ∧ f ∈ r.fields ∧ p.fields[f.index]? = some record ∧ record.name = name := by
  have hmem := List.mem_of_find?_eq_some h
  have hsame := List.find?_some h
  rw [beq_iff_eq] at hsame
  unfold type at hmem
  rw [Array.getD_eq_getD_getElem?] at hmem
  cases htype : p.types[id.index]? with
  | none =>
    rw [htype] at hmem
    cases hmem
  | some r =>
    rw [htype] at hmem
    have hlt := hp.fields _ r htype f hmem
    have hrecord : p.fields[f.index]? = some (p.field f) := by
      rw [field, Array.getD_eq_getD_getElem?, Array.getElem?_eq_getElem hlt]
      rfl
    exact ⟨r, p.field f, rfl, hmem, hrecord, hsame⟩

end Machine

/-! ## Members -/

section

variable {slots slots' : Slots handles} {p q : Program}

/-- A method of a type of the program that bears the name and takes the parameters. -/
def Machine.Program.OwnMethod (p : Program) (id : TypeId) (name : String) (params : List Ty) (m : MethodId) : Prop :=
  ∃ r record, p.types[id.index]? = some r ∧ m ∈ r.methods ∧ p.methods[m.index]? = some record ∧ record.name = name ∧
    record.params = params

theorem Machine.Program.OwnMethod.mono {params : List Ty} (h : p.OwnMethod id name params m) (hgrows : p.Grows q) :
    q.OwnMethod id name params m := by
  obtain ⟨r, record, hr, hm, hrecord, hname, hparams⟩ := h
  obtain ⟨r', hr', hg⟩ := hgrows.types _ r hr
  obtain ⟨record', hrecord', hg'⟩ := hgrows.methods _ record hrecord
  exact ⟨r', record', hr', hg.methods.subset hm, hrecord', hg'.name.trans hname, hg'.params.trans hparams⟩

/-- The record of an existing method that the machine provides. -/
def ExistingMethod.record (e : ExistingMethod) (owner : Ty) (params : List Ty) (ret : Ty) : MethodRecord :=
  { owner, name := e.name, params, ret, isStatic := !e.isInstance, isVirtual := false, kind := .native }

/-- The record of an existing constructor that the machine provides. -/
def ExistingConstructor.record (owner : Ty) (params : List Ty) : MethodRecord :=
  { owner, name := Program.constructorName, params, ret := .void, isStatic := false, isVirtual := false
    kind := .native }

/-- A class given by name is one that the program has under this name. -/
def TypeRef.NamesType (p : Program) (id : TypeId) (t : TypeRef) : Prop :=
  ∀ name, t = .named name → ∃ r, p.types[id.index]? = some r ∧ r.name = name

theorem TypeRef.NamesType.mono (h : t.NamesType p id) (hgrows : p.Grows q) : t.NamesType q id := by
  intro name hname
  obtain ⟨r, hr, rfl⟩ := h name hname
  obtain ⟨r', hr', hg⟩ := hgrows.types _ _ hr
  exact ⟨r', hr', hg.name⟩

theorem TypeRef.namesType_of_resolve (h : (t.resolve machine slots).exec p = (.ok (.defined id), q)) :
    t.NamesType p id := by
  rintro name rfl
  rw [TypeRef.resolve, Program.exec_namedType] at h
  have hknown : p.known name = .defined id := Except.ok.inj (congrArg Prod.fst h)
  unfold Program.known Program.findType at hknown
  cases hfind : p.types.findIdx? fun r => r.name == name with
  | none =>
    rw [hfind] at hknown
    cases hknown
  | some i =>
    rw [hfind] at hknown
    cases hknown
    obtain ⟨hlt, hname, -⟩ := Array.findIdx?_eq_some_iff_getElem.mp hfind
    exact ⟨_, Array.getElem?_eq_getElem hlt, beq_iff_eq.mp hname⟩

/-- What the type stands for, as a class that the program has under its name if it is given by name. -/
structure TypeRef.Denotes (slots : Slots handles) (p : Program) (t : TypeRef) (ty : Ty) :
    Prop extends t.Resolves slots ty where
  named : ∀ id, ty = .defined id → t.NamesType p id

theorem TypeRef.Denotes.mono (h : t.Denotes slots p ty) (hslots : slots.Grows slots') (hgrows : p.Grows q) :
    t.Denotes slots' q ty :=
  ⟨h.toResolves.mono hslots, fun id hid => (h.named id hid).mono hgrows⟩

theorem TypeRef.denotes_of_resolve (hnamed : slots.Named)
    (h : (t.resolve machine slots).exec p = (.ok ty, q)) : p = q ∧ t.Denotes slots p ty := by
  obtain ⟨hq, hty⟩ := t.of_resolve hnamed h
  refine ⟨hq, hty, ?_⟩
  rintro id rfl
  exact namesType_of_resolve h

theorem TypeRef.denotes_of_resolveAll (hnamed : slots.Named) : ∀ {ts : List TypeRef} {tys : List Ty} {q : Program},
    (TypeRef.resolveAll machine slots ts).exec p = (.ok tys, q) → p = q ∧ List.Forall₂ (TypeRef.Denotes slots p) ts tys
  | [], tys, q, h => by
    cases h
    exact ⟨rfl, .nil⟩
  | t :: ts, tys, q, h => by
    rw [TypeRef.resolveAll] at h
    obtain ⟨ty, q₁, ht, h⟩ := Effect.exec_bind_ok.mp h
    obtain ⟨tys', q₂, hts, h⟩ := Effect.exec_bind_ok.mp h
    obtain ⟨rfl, ht'⟩ := denotes_of_resolve hnamed ht
    obtain ⟨rfl, hts'⟩ := denotes_of_resolveAll hnamed hts
    cases h
    exact ⟨rfl, .cons ht' hts'⟩

/-- The method that a reference stands for. -/
inductive MethodRef.Resolves (slots : Slots handles) (p : Program) : MethodRef → MethodId → Prop
  | deferred {key m} : slots.read (.method key) = .ok m → Resolves slots p (.deferred key) m
  | own {e : ExistingMethod} {id : TypeId} {params : List Ty} {m : MethodId} : e.owner.Resolves slots (.defined id) →
      e.owner.NamesType p id → List.Forall₂ (TypeRef.Resolves slots) e.params params → p.OwnMethod id e.name params m →
      Resolves slots p (.existing e) m
  | native {e : ExistingMethod} {owner ret : Ty} {params : List Ty} {m : MethodId} : e.owner.Resolves slots owner →
      List.Forall₂ (TypeRef.Resolves slots) e.params params → e.returnType.Resolves slots ret →
      p.NativeAt m (e.record owner params ret) → Resolves slots p (.existing e) m

/-- The constructor that a reference stands for. -/
inductive ConstructorRef.Resolves (slots : Slots handles) (p : Program) : ConstructorRef → MethodId → Prop
  | deferred {key m} : slots.read (.constructor key) = .ok m → Resolves slots p (.deferred key) m
  | own {c : ExistingConstructor} {id : TypeId} {params : List Ty} {m : MethodId} :
    c.owner.Resolves slots (.defined id) →
      c.owner.NamesType p id → List.Forall₂ (TypeRef.Resolves slots) c.params params →
      p.OwnMethod id Program.constructorName params m → Resolves slots p (.existing c) m
  | native {c : ExistingConstructor} {owner : Ty} {params : List Ty} {m : MethodId} : c.owner.Resolves slots owner →
      List.Forall₂ (TypeRef.Resolves slots) c.params params → p.NativeAt m (ExistingConstructor.record owner params) →
      Resolves slots p (.existing c) m

/-- The field that a reference stands for. Existing fields are those of types of the program. -/
inductive FieldRef.Resolves (slots : Slots handles) (p : Program) : FieldRef → FieldId → Prop
  | deferred {key f} : slots.read (.field key) = .ok f → Resolves slots p (.deferred key) f
  | own {e : ExistingField} {id : TypeId} {f : FieldId} {r : TypeRecord} {record : FieldRecord} :
      e.owner.Resolves slots (.defined id) → p.types[id.index]? = some r → f ∈ r.fields →
        p.fields[f.index]? = some record →
      record.name = e.name → Resolves slots p (.existing e) f

theorem forall₂_resolves_mono (h : List.Forall₂ (TypeRef.Resolves slots) ts tys)
    (hslots : slots.Grows slots') : List.Forall₂ (TypeRef.Resolves slots') ts tys :=
  h.imp fun _ _ ht => ht.mono hslots

theorem MethodRef.Resolves.mono (h : ref.Resolves slots p m) (hslots : slots.Grows slots') (hgrows : p.Grows q) :
    ref.Resolves slots' q m := by
  cases h with
  | deferred hread => exact .deferred (hslots _ _ hread)
  | own howner hnames hparams hown =>
    exact .own (howner.mono hslots) (hnames.mono hgrows) (forall₂_resolves_mono hparams hslots) (hown.mono hgrows)
  | native howner hparams hret hnative =>
    exact .native (howner.mono hslots) (forall₂_resolves_mono hparams hslots) (hret.mono hslots) (hnative.mono hgrows)

theorem ConstructorRef.Resolves.mono {ref : ConstructorRef} (h : ref.Resolves slots p m) (hslots : slots.Grows slots')
    (hgrows : p.Grows q) : ref.Resolves slots' q m := by
  cases h with
  | deferred hread => exact .deferred (hslots _ _ hread)
  | own howner hnames hparams hown =>
    exact .own (howner.mono hslots) (hnames.mono hgrows) (forall₂_resolves_mono hparams hslots) (hown.mono hgrows)
  | native howner hparams hnative =>
    exact .native (howner.mono hslots) (forall₂_resolves_mono hparams hslots) (hnative.mono hgrows)

theorem FieldRef.Resolves.mono {ref : FieldRef} (h : ref.Resolves slots p f) (hslots : slots.Grows slots')
    (hgrows : p.Grows q) :
    ref.Resolves slots' q f := by
  cases h with
  | deferred hread => exact .deferred (hslots _ _ hread)
  | own howner hr hf hrecord hname =>
    obtain ⟨r', hr', hg⟩ := hgrows.types _ _ hr
    obtain ⟨record', hrecord', hg'⟩ := hgrows.fields _ _ hrecord
    exact .own (howner.mono hslots) hr' (hg.fields.subset hf) hrecord' (hg'.name.trans hname)

/-- The methods of the machine that are noted for a reference to a method. -/
def MethodRef.NotedFor (slots : Slots handles) (ref : MethodRef) (r : MethodRecord) : Prop :=
  ∃ e owner params ret, ref = .existing e ∧ e.owner.Resolves slots owner ∧
    List.Forall₂ (TypeRef.Resolves slots) e.params params ∧ e.returnType.Resolves slots ret ∧
      r = e.record owner params ret

/-- The methods of the machine that are noted for a reference to a constructor. -/
def ConstructorRef.NotedFor (slots : Slots handles) (ref : ConstructorRef) (r : MethodRecord) : Prop :=
  ∃ c owner params, ref = .existing c ∧ c.owner.Resolves slots owner ∧
    List.Forall₂ (TypeRef.Resolves slots) c.params params ∧ r = ExistingConstructor.record owner params

theorem MethodRef.of_resolve (hnamed : slots.Named) (hp : p.Ranged)
    (h : (ref.resolve machine slots).exec p = (.ok m, q)) :
    ref.Resolves slots q m ∧ p.Notes (ref.NotedFor slots) q := by
  cases ref with
  | deferred key =>
    cases congrArg Prod.snd h
    exact ⟨.deferred (congrArg Prod.fst h), .refl p⟩
  | existing e =>
    obtain ⟨owner, p₁, howner, h⟩ := Effect.exec_bind_ok.mp h
    obtain ⟨params, p₂, hparams, h⟩ := Effect.exec_bind_ok.mp h
    obtain ⟨ret, p₃, hret, h⟩ := Effect.exec_bind_ok.mp h
    obtain ⟨rfl, howner'⟩ := TypeRef.of_resolve hnamed _ howner
    obtain ⟨rfl, hparams'⟩ := TypeRef.of_resolveAll hnamed _ hparams
    obtain ⟨rfl, hret'⟩ := TypeRef.of_resolve hnamed _ hret
    by_cases hdefined : ∃ id, owner = .defined id
    · obtain ⟨id, rfl⟩ := hdefined
      obtain ⟨p', p'', hget, h⟩ := Effect.exec_bind_ok.mp h
      cases hget
      split at h
      · rename_i found hfound
        cases h
        exact ⟨.own howner' (TypeRef.namesType_of_resolve howner) hparams' (Program.of_findMethod hp hfound), .refl p⟩
      · cases h
    · have howner : ∀ id, owner ≠ .defined id := fun id hid => hdefined ⟨id, hid⟩
      have hnative : (Program.nativeMethod (e.record owner params ret)).exec p = (.ok m, q) := by
        rw [← h]
        cases owner with
        | defined id => exact (howner id rfl).elim
        | _ => rfl
      obtain ⟨hat, hnotes⟩ := Program.of_nativeMethod rfl howner hnative
      exact ⟨.native howner' hparams' hret' hat, hnotes.mono fun r hr =>
        ⟨e, owner, params, ret, rfl, howner', hparams', hret', hr⟩⟩

theorem ConstructorRef.of_resolve (hnamed : slots.Named) (hp : p.Ranged) {ref : ConstructorRef}
    (h : (ref.resolve machine slots).exec p = (.ok m, q)) :
    ref.Resolves slots q m ∧ p.Notes (ref.NotedFor slots) q := by
  cases ref with
  | deferred key =>
    cases congrArg Prod.snd h
    exact ⟨.deferred (congrArg Prod.fst h), .refl p⟩
  | existing c =>
    obtain ⟨owner, p₁, howner, h⟩ := Effect.exec_bind_ok.mp h
    obtain ⟨params, p₂, hparams, h⟩ := Effect.exec_bind_ok.mp h
    obtain ⟨rfl, howner'⟩ := TypeRef.of_resolve hnamed _ howner
    obtain ⟨rfl, hparams'⟩ := TypeRef.of_resolveAll hnamed _ hparams
    by_cases hdefined : ∃ id, owner = .defined id
    · obtain ⟨id, rfl⟩ := hdefined
      obtain ⟨p', p'', hget, h⟩ := Effect.exec_bind_ok.mp h
      cases hget
      split at h
      · rename_i found hfound
        cases h
        exact ⟨.own howner' (TypeRef.namesType_of_resolve howner) hparams' (Program.of_findMethod hp hfound), .refl p⟩
      · cases h
    · have howner : ∀ id, owner ≠ .defined id := fun id hid => hdefined ⟨id, hid⟩
      have hnative : (Program.nativeMethod (ExistingConstructor.record owner params)).exec p = (.ok m, q) := by
        rw [← h]
        cases owner with
        | defined id => exact (howner id rfl).elim
        | _ => rfl
      obtain ⟨hat, hnotes⟩ := Program.of_nativeMethod rfl howner hnative
      exact ⟨.native howner' hparams' hat, hnotes.mono fun r hr => ⟨c, owner, params, rfl, howner', hparams', hr⟩⟩

theorem FieldRef.of_resolve (hnamed : slots.Named) (hp : p.Ranged) {ref : FieldRef}
    (h : (ref.resolve machine slots).exec p = (.ok f, q)) : p = q ∧ ref.Resolves slots q f := by
  cases ref with
  | deferred key =>
    cases congrArg Prod.snd h
    exact ⟨rfl, .deferred (congrArg Prod.fst h)⟩
  | existing e =>
    obtain ⟨owner, p₁, howner, h⟩ := Effect.exec_bind_ok.mp h
    obtain ⟨type, p₂, htype, h⟩ := Effect.exec_bind_ok.mp h
    obtain ⟨rfl, howner'⟩ := TypeRef.of_resolve hnamed _ howner
    obtain ⟨rfl, -⟩ := TypeRef.of_resolve hnamed _ htype
    cases owner with
    | defined id =>
      obtain ⟨p', p'', hget, h⟩ := Effect.exec_bind_ok.mp h
      cases hget
      split at h
      · rename_i found hfound
        cases h
        obtain ⟨r, record, hr, hf, hrecord, hname⟩ := Program.of_findField hp hfound
        exact ⟨rfl, .own howner' hr hf hrecord hname⟩
      · cases h
    | _ => cases h

end

end Stackwright
