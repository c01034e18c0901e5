import Mathlib.Data.List.Nodup
import Stackwright.Proofs.Assembly

/-
  Stackwright.Proofs.Layouts — what types list, and where their fields are.

  A change of the program adds to the lists of one type and leaves the others alone. Completing a
  type gives its instance fields their places behind those of its base.
-/

namespace Stackwright

open Machine (Ty TypeId FieldId MethodId TypeRecord FieldRecord MethodRecord Program handles)

variable {r r' : TypeRecord} {f : TypeRecord → TypeRecord} {m : MethodId} {i j : Nat} {fs l : List FieldId}

/-! ## What types list -/

namespace Machine.Program

variable (p : Program)

/-- The type with the given number lists the field. -/
def Lists (i : Nat) (f : FieldId) : Prop := ∃ r, p.types[i]? = some r ∧ f ∈ r.fields

/-- The type with the given number lists the method. -/
def Calls (i : Nat) (m : MethodId) : Prop := ∃ r, p.types[i]? = some r ∧ m ∈ r.methods

/-- The type with the given number is complete, with the given layout. -/
def LaidOut (i : Nat) (l : List FieldId) : Prop := ∃ r, p.types[i]? = some r ∧ r.layout = some l

variable {p} {q : Program}

theorem type_eq {id : TypeId} (h : p.types[id.index]? = some r) : p.type id = r := by
  rw [type, Array.getD_eq_getD_getElem?, h]
  rfl

theorem field_eq {f : FieldId} {r : FieldRecord} (h : p.fields[f.index]? = some r) : p.field f = r := by
  rw [field, Array.getD_eq_getD_getElem?, h]
  rfl

theorem method_eq {r : MethodRecord} (h : p.methods[m.index]? = some r) : p.method m = r := by
  rw [method, Array.getD_eq_getD_getElem?, h]
  rfl

theorem Grows.lists (h : p.Grows q) {f : FieldId} (hf : p.Lists i f) : q.Lists i f := by
  obtain ⟨r, hr, hf⟩ := hf
  obtain ⟨r', hr', hg⟩ := h.types i r hr
  exact ⟨r', hr', hg.fields.subset hf⟩

theorem Grows.calls (h : p.Grows q) (hm : p.Calls i m) : q.Calls i m := by
  obtain ⟨r, hr, hm⟩ := hm
  obtain ⟨r', hr', hg⟩ := h.types i r hr
  exact ⟨r', hr', hg.methods.subset hm⟩

theorem Grows.laidOut (h : p.Grows q) (hl : p.LaidOut i l) : q.LaidOut i l := by
  obtain ⟨r, hr, hl⟩ := hl
  obtain ⟨r', hr', hg⟩ := h.types i r hr
  exact ⟨r', hr', hg.layout l hl⟩

/-! ## Changes, and what they leave alone -/

theorem types_modify (h : (p.types.modify i f)[j]? = some r') :
    ∃ r, p.types[j]? = some r ∧ r' = if i = j then f r else r := by
  rw [Array.getElem?_modify] at h
  by_cases hij : i = j
  · rw [if_pos hij] at h
    obtain ⟨r, hr, rfl⟩ := Option.map_eq_some_iff.mp h
    exact ⟨r, hr, by rw [if_pos hij]⟩
  · rw [if_neg hij] at h
    exact ⟨r', h, by rw [if_neg hij]⟩

theorem modify_types (h : p.types[j]? = some r) : (p.types.modify i f)[j]? = some (if i = j then f r else r) := by
  rw [Array.getElem?_modify]
  by_cases hij : i = j
  · rw [if_pos hij, if_pos hij, h]
    rfl
  · rw [if_neg hij, if_neg hij, h]

/-- A program whose types are the same up to a change of one of them. -/
theorem grows_of_modify {f : TypeRecord → TypeRecord} {i : Nat} (hf : ∀ r, p.types[i]? = some r → r.Grows (f r))
    (htypes : q.types = p.types.modify i f)
    (hfields : ∀ (j : Nat) (r : FieldRecord), p.fields[j]? = some r → ∃ r', q.fields[j]? = some r' ∧ r.Grows r')
    (hmethods : ∀ (j : Nat) (r : MethodRecord), p.methods[j]? = some r → ∃ r', q.methods[j]? = some r' ∧ r.Grows r') :
    p.Grows q where
  types j r hr := by
    refine ⟨_, by rw [htypes, modify_types hr], ?_⟩
    by_cases hij : i = j
    · rw [if_pos hij]
      exact hf r (hij ▸ hr)
    · rw [if_neg hij]
      exact .refl r
  fields := hfields
  methods := hmethods

theorem getElem?_push_of_some {α : Type} {xs : Array α} {x y : α} (h : xs[i]? = some x) : (xs.push y)[i]? = some x := by
  obtain ⟨hlt, rfl⟩ := Array.getElem?_eq_some_iff.mp h
  exact Array.getElem?_push_lt hlt

theorem withType_grows (r : TypeRecord) : p.Grows (p.withType r) where
  types _ r hr := ⟨r, getElem?_push_of_some hr, .refl r⟩
  fields _ r hr := ⟨r, hr, .refl r⟩
  methods _ r hr := ⟨r, hr, .refl r⟩

theorem withField_grows (i : Nat) (f : FieldId) (r : FieldRecord) : p.Grows (p.withField i f r) :=
  @grows_of_modify p _ (fun t => { t with fields := t.fields ++ [f] }) i
    (fun _ _ => ⟨rfl, rfl, rfl, rfl, List.prefix_append _ _, List.prefix_refl _, fun _ h => h⟩) rfl
    (fun _ r hr => ⟨r, getElem?_push_of_some hr, .refl r⟩) (fun _ r hr => ⟨r, hr, .refl r⟩)

theorem withMethod_grows (i : Nat) (m : MethodId) (r : MethodRecord) : p.Grows (p.withMethod i m r) :=
  @grows_of_modify p _ (fun t => { t with methods := t.methods ++ [m] }) i
    (fun _ _ => ⟨rfl, rfl, rfl, rfl, List.prefix_refl _, List.prefix_append _ _, fun _ h => h⟩) rfl
    (fun _ r hr => ⟨r, hr, .refl r⟩) (fun _ r hr => ⟨r, getElem?_push_of_some hr, .refl r⟩)

theorem withBody_grows {code : Code} (h : (p.method m).kind = .defined none) : p.Grows (p.withBody m code) where
  types _ r hr := ⟨r, hr, .refl r⟩
  fields _ r hr := ⟨r, hr, .refl r⟩
  methods i r hr := by
    unfold withBody
    simp only [Array.getElem?_modify]
    by_cases hm : m.index = i
    · subst hm
      rw [method_eq hr] at h
      rw [if_pos rfl, hr]
      exact ⟨_, rfl, rfl, rfl, rfl, rfl, rfl, rfl, .inr ⟨h, code, rfl⟩⟩
    · rw [if_neg hm]
      exact ⟨r, hr, .refl r⟩

/-! ### New or old -/

theorem withType_cases (h : (p.withType r).types[i]? = some r') :
    p.types[i]? = some r' ∨ i = p.types.size ∧ r' = r := by
  rw [withType, Array.getElem?_push] at h
  split at h
  · rename_i hi
    exact .inr ⟨hi, (Option.some.inj h).symm⟩
  · exact .inl h

theorem withField_lists {f g : FieldId} {r : FieldRecord} (h : (p.withField i f r).Lists j g) :
    p.Lists j g ∨ j = i ∧ g = f := by
  obtain ⟨r', hr', hg⟩ := h
  obtain ⟨t, ht, rfl⟩ := types_modify hr'
  by_cases hij : i = j
  · rw [if_pos hij] at hg
    rcases List.mem_append.mp hg with hg | hg
    · exact .inl ⟨t, ht, hg⟩
    · exact .inr ⟨hij.symm, List.mem_singleton.mp hg⟩
  · rw [if_neg hij] at hg
    exact .inl ⟨t, ht, hg⟩

theorem withMethod_calls {n : MethodId} {r : MethodRecord} (h : (p.withMethod i m r).Calls j n) :
    p.Calls j n ∨ j = i ∧ n = m := by
  obtain ⟨r', hr', hn⟩ := h
  obtain ⟨t, ht, rfl⟩ := types_modify hr'
  by_cases hij : i = j
  · rw [if_pos hij] at hn
    rcases List.mem_append.mp hn with hn | hn
    · exact .inl ⟨t, ht, hn⟩
    · exact .inr ⟨hij.symm, List.mem_singleton.mp hn⟩
  · rw [if_neg hij] at hn
    exact .inl ⟨t, ht, hn⟩

/-- A change that leaves the fields of all types alone. -/
theorem lists_of_modify {g : FieldId} (htypes : q.types = p.types.modify i f)
    (hf : ∀ r, (f r).fields = r.fields) (h : q.Lists j g) : p.Lists j g := by
  obtain ⟨r', hr', hg⟩ := h
  obtain ⟨r, hr, rfl⟩ := types_modify (htypes ▸ hr')
  refine ⟨r, hr, ?_⟩
  split at hg
  · rwa [hf] at hg
  · exact hg

/-- A change that leaves the methods of all types alone. -/
theorem calls_of_modify (htypes : q.types = p.types.modify i f)
    (hf : ∀ r, (f r).methods = r.methods) (h : q.Calls j m) : p.Calls j m := by
  obtain ⟨r', hr', hm⟩ := h
  obtain ⟨r, hr, rfl⟩ := types_modify (htypes ▸ hr')
  refine ⟨r, hr, ?_⟩
  split at hm
  · rwa [hf] at hm
  · exact hm

/-- A change that completes no type. -/
theorem laidOut_of_modify (htypes : q.types = p.types.modify i f)
    (hf : ∀ r, (f r).layout = r.layout) (h : q.LaidOut j l) : p.LaidOut j l := by
  obtain ⟨r', hr', hl⟩ := h
  obtain ⟨r, hr, rfl⟩ := types_modify (htypes ▸ hr')
  refine ⟨r, hr, ?_⟩
  split at hl
  · rwa [hf] at hl
  · exact hl

/-! ### Layouts -/

theorem placeFields_rest (fs : List FieldId) : ∀ (p : Program) (slot : Nat), (p.placeFields slot fs).types = p.types ∧
    (p.placeFields slot fs).methods = p.methods := by
  induction fs with
  | nil => exact fun _ _ => ⟨rfl, rfl⟩
  | cons f fs ih => exact fun p slot => ih _ _

theorem placeFields_of_not_mem (hi : i ∉ fs.map (·.index)) : ∀ (p : Program) (slot : Nat),
    (p.placeFields slot fs).fields[i]? = p.fields[i]? := by
  induction fs with
  | nil => exact fun _ _ => rfl
  | cons f fs ih =>
    intro p slot
    simp only [List.map_cons, List.mem_cons, not_or] at hi
    rw [placeFields, ih hi.2, Array.getElem?_modify, if_neg (Ne.symm hi.1)]

/-- Fields that come up once get their places in order. -/
theorem placeFields_of_mem (hfs : (fs.map (·.index)).Nodup) : ∀ {p : Program} {slot n : Nat} {f : FieldId}
    {r : FieldRecord}, fs[n]? = some f → p.fields[f.index]? = some r →
    (p.placeFields slot fs).fields[f.index]? = some { r with slot := some (slot + n) } := by
  induction fs with
  | nil => exact fun hf => by cases hf
  | cons g fs ih =>
    intro p slot n f r hf hr
    obtain ⟨hg, hfs⟩ := List.nodup_cons.mp hfs
    cases n with
    | zero =>
      cases hf
      rw [placeFields, placeFields_of_not_mem hg, Array.getElem?_modify, if_pos rfl, hr]
      rfl
    | succ n =>
      have hmem : f.index ∈ fs.map (·.index) := List.mem_map_of_mem (List.mem_of_getElem? hf)
      have hne : g.index ≠ f.index := by
        intro h
        rw [← h] at hmem
        exact hg hmem
      rw [placeFields, Nat.add_comm n, ← Nat.add_assoc]
      refine ih hfs hf ?_
      rw [Array.getElem?_modify, if_neg hne, hr]

theorem mem_ownFields {id : TypeId} (hr : p.types[id.index]? = some r) {f : FieldId} :
    f ∈ p.ownFields id ↔ p.Lists id.index f ∧ (p.field f).isStatic = false := by
  rw [ownFields, type_eq hr, List.mem_filter, Bool.not_eq_true']
  refine and_congr_left fun _ => ⟨fun hf => ⟨r, hr, hf⟩, fun hf => ?_⟩
  obtain ⟨r', hr', hf⟩ := hf
  cases hr.symm.trans hr'
  exact hf

/-- What is inherited is the layout of the base, or nothing. -/
theorem of_inheritedLayout {id : TypeId} {inherited : List FieldId} (h : p.inheritedLayout id = .ok inherited) :
    inherited = [] ∧ (∀ b, (p.type id).base ≠ some (.defined b)) ∨
      ∃ b, (p.type id).base = some (.defined b) ∧ p.LaidOut b.index inherited := by
  unfold inheritedLayout at h
  split at h
  · rename_i b hb
    right
    split at h
    · rename_i l hl
      cases h
      unfold type at hl
      rw [Array.getD_eq_getD_getElem?] at hl
      refine ⟨b, hb, ?_⟩
      cases hr : p.types[b.index]? with
      | none =>
        rw [hr] at hl
        cases hl
      | some r =>
        rw [hr] at hl
        exact ⟨r, hr, hl⟩
    · cases h
  · rename_i hb
    cases h
    exact .inl ⟨rfl, hb⟩

end Machine.Program

/-! ## Completion -/

/-- The field of a complete type is in the given place. -/
def Machine.Program.Placed (p : Program) (n : Nat) (f : FieldId) : Prop :=
  ∃ r, p.fields[f.index]? = some r ∧ r.slot = some n ∧ r.isStatic = false ∧ ∃ j l, p.Lists j f ∧ p.LaidOut j l

/-- A layout: the type's own instance fields and those of its base, each in its place. -/
structure Machine.Program.Laid (p : Program) (i : Nat) (l : List FieldId) : Prop where
  own : ∀ f, p.Lists i f → (p.field f).isStatic = false → f ∈ l
  placed : ∀ (n : Nat) (f : FieldId), l[n]? = some f → p.Placed n f
  base : ∀ r b, p.types[i]? = some r → r.base = some (.defined b) → ∃ inherited, p.LaidOut b.index inherited ∧
    inherited <+: l

/-- A type that can be completed: its fields are its own and have no places yet. -/
structure Machine.Program.Completable (p : Program) (id : TypeId) (inherited : List FieldId) : Prop where
  record : ∃ r, p.types[id.index]? = some r
  unfinished : ∀ l, ¬ p.LaidOut id.index l
  inherits : p.inheritedLayout id = .ok inherited
  once : ((p.ownFields id).map (·.index)).Nodup
  alone : ∀ j f g, p.Lists j f → g ∈ p.ownFields id → f.index = g.index → j = id.index
  unplaced : ∀ f ∈ p.ownFields id, ∃ r, p.fields[f.index]? = some r ∧ r.slot = none

namespace Machine.Program.Completable

variable {p : Program} {id : TypeId} {inherited : List FieldId}

theorem types (_ : p.Completable id inherited) : (p.withLayout id.index inherited (p.ownFields id)).types =
    p.types.modify id.index fun t => { t with layout := some (inherited ++ p.ownFields id) } := by
  rw [withLayout, (placeFields_rest _ p _).1]

theorem methods (_ : p.Completable id inherited) : (p.withLayout id.index inherited (p.ownFields id)).methods =
    p.methods :=
  (placeFields_rest _ p _).2

/-- The fields that other types list stay where they are. -/
theorem other (h : p.Completable id inherited) {j : Nat} {f : FieldId} (hf : p.Lists j f) (hj : j ≠ id.index) :
    (p.withLayout id.index inherited (p.ownFields id)).fields[f.index]? = p.fields[f.index]? := by
  refine placeFields_of_not_mem (fun hindex => ?_) _ _
  obtain ⟨g, hg, hindex⟩ := List.mem_map.mp hindex
  exact hj (h.alone j f g hf hg hindex.symm)

theorem grows (h : p.Completable id inherited) : p.Grows (p.withLayout id.index inherited (p.ownFields id)) := by
  refine grows_of_modify (fun r hr => ?_) h.types (fun j r hr => ?_) (fun j r hr => ⟨r, by rw [h.methods, hr], .refl r⟩)
  · exact ⟨rfl, rfl, rfl, rfl, List.prefix_refl _, List.prefix_refl _, fun l hl => (h.unfinished l ⟨r, hr, hl⟩).elim⟩
  · by_cases hj : j ∈ (p.ownFields id).map (·.index)
    · obtain ⟨f, hf, rfl⟩ := List.mem_map.mp hj
      obtain ⟨n, hn⟩ := List.mem_iff_getElem?.mp hf
      refine ⟨_, placeFields_of_mem h.once hn hr, rfl, rfl, rfl, rfl, fun m hm => ?_⟩
      obtain ⟨r', hr', hnone⟩ := h.unplaced f hf
      cases hr.symm.trans hr'
      cases hnone.symm.trans hm
    · exact ⟨r, (placeFields_of_not_mem hj p _).trans hr, .refl r⟩

theorem laidOut (h : p.Completable id inherited) :
    (p.withLayout id.index inherited (p.ownFields id)).LaidOut id.index (inherited ++ p.ownFields id) := by
  obtain ⟨r, hr⟩ := h.record
  exact ⟨_, h.types ▸ modify_types hr, by rw [if_pos rfl]⟩

theorem laidOut_cases (h : p.Completable id inherited) {j : Nat} {l : List FieldId}
    (hl : (p.withLayout id.index inherited (p.ownFields id)).LaidOut j l) :
    j = id.index ∧ l = inherited ++ p.ownFields id ∨ j ≠ id.index ∧ p.LaidOut j l := by
  obtain ⟨r', hr', hl⟩ := hl
  obtain ⟨r, hr, rfl⟩ := types_modify (h.types ▸ hr')
  by_cases hj : id.index = j
  · rw [if_pos hj] at hl
    exact .inl ⟨hj.symm, (Option.some.inj hl).symm⟩
  · rw [if_neg hj] at hl
    exact .inr ⟨Ne.symm hj, r, hr, hl⟩

theorem placed (h : p.Completable id inherited) {n : Nat} {f : FieldId} (hf : p.Placed n f) :
    (p.withLayout id.index inherited (p.ownFields id)).Placed n f := by
  obtain ⟨r, hr, hslot, hstatic, j, l, hj, hl⟩ := hf
  refine ⟨r, ?_, hslot, hstatic, j, l, h.grows.lists hj, h.grows.laidOut hl⟩
  rw [h.other hj fun hi => h.unfinished l (hi ▸ hl), hr]

/-- The layout of the type, and all others. -/
theorem laid (h : p.Completable id inherited) (hp : ∀ j f, p.Lists j f → f.index < p.fields.size)
    (hlaid : ∀ j l, p.LaidOut j l → p.Laid j l) (j : Nat) (l : List FieldId)
    (hl : (p.withLayout id.index inherited (p.ownFields id)).LaidOut j l) :
    (p.withLayout id.index inherited (p.ownFields id)).Laid j l := by
  obtain ⟨record, hrecord⟩ := h.record
  have hlists {f : FieldId} (hf : (p.withLayout id.index inherited (p.ownFields id)).Lists j f) : p.Lists j f :=
    lists_of_modify h.types (fun _ => rfl) hf
  have hstatic {f : FieldId} (hf : p.Lists j f)
      (hstatic : ((p.withLayout id.index inherited (p.ownFields id)).field f).isStatic = false) :
      (p.field f).isStatic = false := by
    have hfield := Array.getElem?_eq_getElem (hp j f hf)
    obtain ⟨r', hr', hg⟩ := h.grows.fields _ _ hfield
    rw [field_eq hr'] at hstatic
    rw [field_eq hfield, ← hg.isStatic, hstatic]
  rcases h.laidOut_cases hl with ⟨rfl, rfl⟩ | ⟨-, hold⟩
  · refine ⟨fun f hf hs => ?_, fun n f hf => ?_, fun r' b hr' hb => ?_⟩
    · exact List.mem_append_right _ ((mem_ownFields hrecord).mpr ⟨hlists hf, hstatic (hlists hf) hs⟩)
    · by_cases hn : n < inherited.length
      · rw [List.getElem?_append_left hn] at hf
        rcases of_inheritedLayout h.inherits with ⟨rfl, -⟩ | ⟨b, -, hb⟩
        · cases hf
        · exact h.placed ((hlaid _ _ hb).placed n f hf)
      · rw [List.getElem?_append_right (Nat.le_of_not_lt hn)] at hf
        have hmem := List.mem_of_getElem? hf
        obtain ⟨hlisted, hs⟩ := (mem_ownFields hrecord).mp hmem
        obtain ⟨r, hr, -⟩ := h.unplaced f hmem
        rw [field_eq hr] at hs
        refine ⟨_, placeFields_of_mem h.once hf hr, ?_, hs, _, _, h.grows.lists hlisted, h.laidOut⟩
        exact congrArg some (Nat.add_sub_cancel' (Nat.le_of_not_lt hn))
    · obtain ⟨r, hr, hg⟩ := h.grows.types _ record hrecord
      cases hr'.symm.trans hr
      rcases of_inheritedLayout h.inherits with ⟨-, hnone⟩ | ⟨b', hb', hbase⟩
      · rw [type_eq hrecord, ← hg.base] at hnone
        exact (hnone b hb).elim
      · rw [type_eq hrecord, ← hg.base, hb] at hb'
        cases hb'
        exact ⟨inherited, h.grows.laidOut hbase, List.prefix_append _ _⟩
  · have hlaid := hlaid j l hold
    refine ⟨fun f hf hs => hlaid.own f (hlists hf) (hstatic (hlists hf) hs), fun n f hf =>
      h.placed (hlaid.placed n f hf), fun r' b hr' hb => ?_⟩
    obtain ⟨r, hr, -⟩ := hold
    obtain ⟨r'', hr'', hg⟩ := h.grows.types j r hr
    cases hr'.symm.trans hr''
    obtain ⟨base, hbase, hprefix⟩ := hlaid.base r b hr (hg.base.symm.trans hb)
    exact ⟨base, h.grows.laidOut hbase, hprefix⟩

end Machine.Program.Completable

end Stackwright
