import Mathlib.Data.List.Perm.Basic
import Stackwright.Proofs.Extension
import Stackwright.Proofs.Recording
import Stackwright.Proofs.Schedulable

/-
  Stackwright.Proofs.DefinitionOrder — the order of a module's definitions.

  Declaring the same definitions in another order enters the same keys, and every definition has
  the same closures and the same steps. The steps can be planned in both cases, and on the
  recorder each adds the same lines. What is left is which closure is kept when several
  definitions contain a lambda under one key: the first one found, as long as the others compare
  equal to it. Comparing equal is not being the same: `0.0` equals `-0.0`.
-/

namespace Stackwright

variable {ds ds' : List TypeDefinition} {kept : Kept} {declared : Declared}
variable {t : Table} {found result : DefinitionMap} {s : Supply}

/-! ## Entering keys -/

theorem Table.toList_eq {t' : Table} (h : ∀ key, t'.get? key = t.get? key) : t'.toList = t.toList :=
  (Std.TreeMap.Equiv.of_forall_constGet?_eq h).toList_eq

namespace Declares

variable {t t' result : Table} {entries more : List Entry}

theorem split : ∀ {entries : List Entry} {t : Table}, Declares t (entries ++ more) result →
    ∃ middle, Declares t entries middle ∧ Declares middle more result
  | [], t, h => ⟨t, .nil, h⟩
  | _ :: entries, _, .cons hnew h => by
    obtain ⟨middle, hfirst, hrest⟩ := split h
    exact ⟨middle, .cons hnew hfirst, hrest⟩

/-- Entries under new keys can be added. -/
theorem of_distinct : ∀ {entries : List Entry} {t : Table}, (entries.map (·.1)).Nodup →
    (∀ entry ∈ entries, t.get? entry.1 = none) → ∃ result, Declares t entries result
  | [], t, _, _ => ⟨t, .nil⟩
  | (key, decl) :: entries, t, hnodup, hfresh => by
    rw [List.map_cons, List.nodup_cons] at hnodup
    rw [List.forall_mem_cons] at hfresh
    have hrest : ∀ entry ∈ entries, (t.insert key decl).get? entry.1 = none := by
      intro entry hentry
      rw [Table.get?_insert, if_neg]
      · exact hfresh.2 entry hentry
      · intro hkey
        exact hnodup.1 (List.mem_map.mpr ⟨entry, hentry, hkey.symm⟩)
    obtain ⟨result, hresult⟩ := of_distinct hnodup.2 hrest
    exact ⟨result, .cons hfresh.1 hresult⟩

/-- The same entries in another order. -/
theorem perm (h : Declares t entries result) (hsame : ∀ key, t'.get? key = t.get? key) (hperm : more.Perm entries) :
    ∃ result', Declares t' more result' ∧ ∀ key, result'.get? key = result.get? key := by
  obtain ⟨hnodup, hfresh⟩ := h.distinct
  obtain ⟨result', h'⟩ : ∃ result', Declares t' more result' := by
    refine of_distinct ((hperm.map _).nodup_iff.mpr hnodup) fun entry hentry => ?_
    rw [hsame]
    exact hfresh entry (hperm.mem_iff.mp hentry)
  refine ⟨result', h', fun key => Option.ext fun decl => ?_⟩
  rw [h.get?, h'.get?, hperm.mem_iff, hsame]

end Declares

theorem Table.declare_of_new {key : ItemKey} (h : t.get? key = none) (decl : Declaration) :
    t.declare key decl = .ok (t.insert key decl) := by
  have hcontains : t.contains key = false := by
    rw [Std.TreeMap.contains_eq_isSome_getElem?]
    show (t.get? key).isSome = false
    rw [h]
    rfl
  simp [declare, hcontains]

namespace TypeDefinition

variable {d : TypeDefinition} {t result : Table}

theorem declareMember_of_entry {m : Member} {entry : Entry} (hm : d.memberEntry m = .ok entry)
    (hnew : t.get? entry.1 = none) :
    d.declareMember t m = .ok (t.insert entry.1 entry.2) := by
  cases m with
  | field | property =>
    cases hm
    exact Table.declare_of_new hnew _
  | method | constructor =>
    obtain ⟨key, hkey, hm⟩ := except_bind_ok.mp hm
    cases hm
    exact except_bind_ok.mpr ⟨key, hkey, Table.declare_of_new hnew _⟩

theorem declareMembers_of_entries {ms : List Member} {entries : List Entry}
    (hms : List.Forall₂ (fun m entry => d.memberEntry m = .ok entry) ms entries) {t : Table}
    (h : Declares t entries result) :
    ms.foldlM d.declareMember t = .ok result := by
  induction hms generalizing t with
  | nil =>
    cases h
    rfl
  | cons hm _ ih =>
    cases h with
    | cons hnew h =>
      rw [List.foldlM_cons]
      exact except_bind_ok.mpr ⟨_, declareMember_of_entry hm hnew, ih h⟩

theorem declare_of_entries {entries : List Entry} (hd : d.HasEntries entries) (h : Declares t entries result) :
    d.declare t = .ok result := by
  obtain ⟨hmembers⟩ := hd
  cases h with
  | cons hnew h => exact except_bind_ok.mpr ⟨_, Table.declare_of_new hnew _, declareMembers_of_entries hmembers h⟩

end TypeDefinition

theorem declareAll_of_entries {entries : List (List Entry)} (hds : List.Forall₂ TypeDefinition.HasEntries ds entries)
    {result : Table} (h : Declares t entries.flatten result) : declareAll t ds = .ok result := by
  induction hds generalizing t with
  | nil =>
    cases h
    rfl
  | cons hd _ ih =>
    rw [List.flatten_cons] at h
    obtain ⟨middle, hfirst, hrest⟩ := h.split
    rw [declareAll, List.foldlM_cons]
    exact except_bind_ok.mpr ⟨middle, TypeDefinition.declare_of_entries hd hfirst, ih hrest⟩

/-- Definitions in another order enter the same keys. -/
theorem declareAll_perm (hperm : ds'.Perm ds) {t' result : Table} (hsame : ∀ key, t'.get? key = t.get? key)
    (h : declareAll t ds = .ok result) :
    ∃ result', declareAll t' ds' = .ok result' ∧ ∀ key, result'.get? key = result.get? key := by
  obtain ⟨entries, hentries, hdeclares⟩ := declares_all h
  obtain ⟨entries', hentries', hflat⟩ := List.perm_comp_forall₂ hperm hentries
  obtain ⟨result', hdeclares', hresult⟩ := hdeclares.perm hsame hflat.flatten
  exact ⟨result', declareAll_of_entries hentries' hdeclares', hresult⟩

/-! ## Keeping closures -/

/-- The definitions kept so far. -/
abbrev Kept := TypeKey → Option TypeDefinition

namespace Kept

/-- A definition is kept unless there is one under its key. -/
def add (kept : Kept) (d : TypeDefinition) : Kept := fun key => (kept key).or (if d.key = key then some d else none)

def addAll (kept : Kept) (ds : List TypeDefinition) : Kept := ds.foldl add kept

theorem addAll_append (kept : Kept) (ds ds' : List TypeDefinition) :
    kept.addAll (ds ++ ds') = (kept.addAll ds).addAll ds' :=
  List.foldl_append

/-- What is kept under a key is the first definition that was found. -/
theorem addAll_eq (kept : Kept) (ds : List TypeDefinition) (key : TypeKey) :
    kept.addAll ds key = (kept key).or (ds.find? fun d => d.key = key) := by
  induction ds generalizing kept with
  | nil => simp [addAll]
  | cons d ds ih =>
    show addAll (kept.add d) ds key = _
    rw [ih, add, List.find?_cons]
    by_cases hkey : d.key = key <;> cases kept key <;> simp [hkey]

/-- Definitions that can be added one by one: each compares equal to the one under its key. -/
def Fits : Kept → List TypeDefinition → Prop
  | _, [] => True
  | kept, d :: ds => (∀ known, kept d.key = some known → (known == d)) ∧ Fits (kept.add d) ds

theorem fits_append : Fits kept (ds ++ ds') ↔ Fits kept ds ∧ Fits (kept.addAll ds) ds' := by
  induction ds generalizing kept with
  | nil => simp [Fits, addAll]
  | cons d ds ih =>
    simp only [List.cons_append, Fits, ih, and_assoc]
    rfl

/-- Every definition compares equal to the first one under its key. -/
theorem fits_iff : Fits kept ds ↔ ∀ before d after, ds = before ++ d :: after →
    ∀ known, (kept d.key).or (before.find? fun c => c.key = d.key) = some known → (known == d) := by
  constructor
  · rintro hfits before d after rfl known hknown
    obtain ⟨hlast, -⟩ := (fits_append.mp hfits).2
    exact hlast known (by rwa [addAll_eq])
  · intro hall
    induction ds generalizing kept with
    | nil => trivial
    | cons d ds ih =>
      refine ⟨fun known hknown => hall [] d ds rfl known (by simp [hknown]),
        ih fun before c after hsplit known hknown => ?_⟩
      refine hall (d :: before) c after (by rw [hsplit]; rfl) known ?_
      rw [← hknown, add, List.find?_cons]
      by_cases hkey : d.key = c.key <;> cases kept c.key <;> simp [hkey]

/-- Definitions of two lists that are taken for each other are the same. -/
def Agree (ds ds' : List TypeDefinition) : Prop := ∀ d ∈ ds, ∀ d' ∈ ds', d.key = d'.key → (d == d') → d = d'

/-- Two lists that agree can be added in any order. -/
theorem fits_swap (hagree : Agree ds ds') (hfits : Fits kept (ds ++ ds')) :
    Fits kept (ds' ++ ds) ∧ kept.addAll (ds' ++ ds) = kept.addAll (ds ++ ds') := by
  obtain ⟨hfirst, hsecond⟩ := fits_append.mp hfits
  rw [fits_iff] at hfirst hsecond
  simp only [addAll_eq] at hsecond
  -- Under a new key, what the first list has first is whatever the second list has.
  have hmeet {key : TypeKey} {d d' : TypeDefinition} (hnone : kept key = none)
    (hd : ds.find? (fun c => c.key = key) = some d)
      (hd' : d' ∈ ds') (hkey : d'.key = key) : d = d' ∧ (d == d') := by
    obtain ⟨before, after, hsplit⟩ := List.append_of_mem hd'
    have hsame : (d == d') = true := hsecond before d' after hsplit d (by rw [hkey, hnone, hd]; rfl)
    have hdkey : d.key = key := by simpa using List.find?_some hd
    exact ⟨hagree d (List.mem_of_find?_eq_some hd) d' hd' (hdkey.trans hkey.symm) hsame, hsame⟩
  refine ⟨fits_append.mpr ⟨fits_iff.mpr ?_, fits_iff.mpr ?_⟩, funext fun key => ?_⟩
  · intro before c after hsplit known hknown
    have hc : c ∈ ds' := by simp [hsplit]
    cases hkept : kept c.key with
    | some v =>
      rw [hkept] at hknown
      cases hknown
      exact hsecond before c after hsplit _ (by rw [hkept]; rfl)
    | none =>
      rw [hkept, Option.none_or] at hknown
      cases hfirst' : ds.find? fun d => d.key = c.key with
      | none => exact hsecond before c after hsplit known (by rw [hkept, hfirst']; exact hknown)
      | some d =>
        have hmem : known ∈ ds' := by
          rw [hsplit]
          exact List.mem_append_left _ (List.mem_of_find?_eq_some hknown)
        obtain ⟨rfl, -⟩ := hmeet hkept hfirst' hmem (by simpa using List.find?_some hknown)
        exact (hmeet hkept hfirst' hc rfl).2
  · intro before c after hsplit known hknown
    rw [addAll_eq] at hknown
    cases hkept : kept c.key with
    | some v =>
      rw [hkept] at hknown
      cases hknown
      exact hfirst before c after hsplit _ (by rw [hkept]; rfl)
    | none =>
      rw [hkept, Option.none_or] at hknown
      cases hother : ds'.find? fun d => d.key = c.key with
      | none =>
        rw [hother, Option.none_or] at hknown
        exact hfirst before c after hsplit known (by rw [hkept]; exact hknown)
      | some d' =>
        rw [hother] at hknown
        cases hknown
        have hd' := List.mem_of_find?_eq_some hother
        have hkey : known.key = c.key := by simpa using List.find?_some hother
        cases hearlier : before.find? fun d => d.key = c.key with
        | some e =>
          have he : ds.find? (fun d => d.key = c.key) = some e := by rw [hsplit, List.find?_append, hearlier]; rfl
          obtain ⟨rfl, -⟩ := hmeet hkept he hd' hkey
          exact hfirst before c after hsplit e (by rw [hkept]; exact hearlier)
        | none =>
          have hc : ds.find? (fun d => d.key = c.key) = some c := by
            rw [hsplit, List.find?_append, hearlier, List.find?_cons]
            simp
          obtain ⟨rfl, hsame⟩ := hmeet hkept hc hd' hkey
          exact hsame
  · rw [addAll_eq, addAll_eq, List.find?_append, List.find?_append]
    cases hkept : kept key with
    | some v => rfl
    | none =>
      cases hd : ds.find? fun c => c.key = key with
      | none => simp
      | some d =>
        cases hd' : ds'.find? fun c => c.key = key with
        | none => rfl
        | some d' =>
          obtain ⟨rfl, -⟩ := hmeet hkept hd (List.mem_of_find?_eq_some hd') (by simpa using List.find?_some hd')
          rfl

/-- Lists that agree with each other can be added in any order. -/
theorem fits_perm {css css' : List (List TypeDefinition)} (hperm : css.Perm css')
    (hagree : css.Pairwise fun ds ds' => Agree ds ds' ∧ Agree ds' ds) :
    ∀ {kept : Kept}, Fits kept css.flatten → Fits kept css'.flatten ∧
      kept.addAll css'.flatten = kept.addAll css.flatten := by
  induction hperm with
  | nil => exact fun h => ⟨h, rfl⟩
  | @cons ds css css' _ ih =>
    intro kept hfits
    rw [List.flatten_cons, fits_append] at hfits
    obtain ⟨hrest, hsame⟩ := ih hagree.tail hfits.2
    refine ⟨by rw [List.flatten_cons, fits_append]; exact ⟨hfits.1, hrest⟩, ?_⟩
    rw [List.flatten_cons, List.flatten_cons, addAll_append, addAll_append, hsame]
  | swap ds ds' css =>
    intro kept hfits
    simp only [List.flatten_cons, ← List.append_assoc] at hfits ⊢
    obtain ⟨hfirst, hrest⟩ := fits_append.mp hfits
    obtain ⟨hswap, hsame⟩ := fits_swap ((List.rel_of_pairwise_cons hagree List.mem_cons_self).1) hfirst
    refine ⟨fits_append.mpr ⟨hswap, hsame ▸ hrest⟩, ?_⟩
    rw [addAll_append _ (ds ++ ds'), addAll_append _ (ds' ++ ds), hsame]
  | trans hfirst hsecond ih ih' =>
    intro kept hfits
    obtain ⟨hmiddle, hsame⟩ := ih hagree hfits
    obtain ⟨hlast, hsame'⟩ := ih' ((hfirst.pairwise_iff fun h => h.symm).mp hagree) hmiddle
    exact ⟨hlast, hsame'.trans hsame⟩

end Kept

namespace DefinitionMap

theorem get?_insert (found : DefinitionMap) (d : TypeDefinition) (key : TypeKey) :
    (found.insert d.key d).get? key = if d.key = key then some d else found.get? key := by
  show (found.insert d.key d)[key]? = _
  rw [Std.TreeMap.getElem?_insert]
  simp only [Std.LawfulEqCmp.compare_eq_iff_eq]
  rfl

/-- Adding keeps the definition that is there, which has to compare equal. -/
theorem add_cases (found : DefinitionMap) (d : TypeDefinition) :
    (found.get? d.key = none ∧ found.add d = .ok (found.insert d.key d)) ∨
    ∃ known, found.get? d.key = some known ∧
      found.add d = if (known == d) = true then .ok found else .error (.declaration (.type d.key)) := by
  unfold add
  split
  · exact .inl ⟨‹_›, rfl⟩
  · rename_i known hknown
    refine .inr ⟨known, hknown, ?_⟩
    cases hsame : known == d <;> simp only [bne, hsame] <;> rfl

theorem add_iff {d : TypeDefinition} :
    (∃ result, found.add d = .ok result) ↔ ∀ known, found.get? d.key = some known → (known == d) := by
  rcases add_cases found d with ⟨hnone, hadd⟩ | ⟨known, hknown, hadd⟩
  · rw [hadd, hnone]
    simp
  · rw [hadd, hknown]
    by_cases hsame : (known == d) = true <;> simp [hsame]

theorem get?_add {d : TypeDefinition} (h : found.add d = .ok result) : result.get? = Kept.add found.get? d := by
  funext key
  unfold Kept.add
  rcases add_cases found d with ⟨hnone, hadd⟩ | ⟨known, hknown, hadd⟩
  · rw [hadd] at h
    cases h
    rw [get?_insert]
    by_cases hkey : d.key = key
    · subst hkey
      rw [if_pos rfl, if_pos rfl, hnone]
      rfl
    · rw [if_neg hkey, if_neg hkey, Option.or_none]
  · rw [hadd] at h
    split at h
    · cases h
      by_cases hkey : d.key = key
      · subst hkey
        rw [hknown]
        rfl
      · rw [if_neg hkey, Option.or_none]
    · cases h

theorem addAll_iff : (∃ result, ds.foldlM add found = .ok result) ↔ Kept.Fits found.get? ds := by
  induction ds generalizing found with
  | nil => exact ⟨fun _ => trivial, fun _ => ⟨found, rfl⟩⟩
  | cons d ds ih =>
    rw [List.foldlM_cons, Kept.Fits]
    constructor
    · rintro ⟨result, h⟩
      obtain ⟨middle, hmiddle, h⟩ := except_bind_ok.mp h
      refine ⟨add_iff.mp ⟨middle, hmiddle⟩, ?_⟩
      rw [← get?_add hmiddle]
      exact ih.mp ⟨result, h⟩
    · rintro ⟨hfits, hrest⟩
      obtain ⟨middle, hmiddle⟩ := add_iff.mpr hfits
      rw [← get?_add hmiddle] at hrest
      obtain ⟨result, h⟩ := ih.mpr hrest
      exact ⟨result, except_bind_ok.mpr ⟨_, hmiddle, h⟩⟩

theorem get?_addAll (h : ds.foldlM add found = .ok result) : result.get? = Kept.addAll found.get? ds := by
  induction ds generalizing found with
  | nil =>
    cases h
    rfl
  | cons d ds ih =>
    rw [List.foldlM_cons] at h
    obtain ⟨middle, hmiddle, h⟩ := except_bind_ok.mp h
    rw [ih h, get?_add hmiddle]
    rfl

/-- Closures are added one after the other. -/
theorem addClosures_iff {h : Hierarchy} :
    ds.foldlM (addClosures h) found = .ok result ↔
      ∃ css, List.Forall₂ (fun d cs => d.closures h = .ok cs) ds css ∧ css.flatten.foldlM add found = .ok result := by
  induction ds generalizing found with
  | nil =>
    constructor
    · exact fun h => ⟨[], .nil, h⟩
    · rintro ⟨css, hcss, h⟩
      cases hcss
      exact h
  | cons d ds ih =>
    rw [List.foldlM_cons]
    constructor
    · intro hall
      obtain ⟨middle, hd, hall⟩ := except_bind_ok.mp hall
      obtain ⟨cs, hcs, hd⟩ := except_bind_ok.mp hd
      obtain ⟨css, hcss, hall⟩ := ih.mp hall
      refine ⟨cs :: css, .cons hcs hcss, ?_⟩
      rw [List.flatten_cons, List.foldlM_append]
      exact except_bind_ok.mpr ⟨middle, hd, hall⟩
    · rintro ⟨css, hcss, hall⟩
      cases hcss with | cons hcs hcss => ?_
      rw [List.flatten_cons, List.foldlM_append] at hall
      obtain ⟨middle, hd, hall⟩ := except_bind_ok.mp hall
      exact except_bind_ok.mpr ⟨middle, except_bind_ok.mpr ⟨_, hcs, hd⟩, ih.mpr ⟨_, hcss, hall⟩⟩

end DefinitionMap

/-! ## Declaring -/

/-- Tables that hold the same are as good as each other. -/
theorem Hierarchy.extends_of_same {table table' : Table} (h : ∀ key, table'.get? key = table.get? key)
    (catalog : Metadata) :
    Hierarchy.Extends { table, catalog } { table := table', catalog } where
  catalog := rfl
  keeps key decl hget := (h key).trans hget
  plain key decl htype := by
    refine .inl ?_
    rw [← htype, Table.type?, Table.type?, h]

/-- The types that the lambdas of different definitions turn into: those that are taken for each other are the same. -/
def Module.LambdasAgree (m : Module) (catalog : Metadata) : Prop :=
  ∀ table, declareAll ∅ m.types = .ok table → ∀ d ∈ m.types, ∀ d' ∈ m.types, d.key ≠ d'.key →
    ∀ cs cs', d.closures { table, catalog } = .ok cs → d'.closures { table, catalog } = .ok cs' → Kept.Agree cs cs'

theorem keys_distinct {result : Table} (h : declareAll t ds = .ok result) : ds.Pairwise fun d d' => d.key ≠ d'.key := by
  obtain ⟨entries, hentries, hdeclares⟩ := declares_all h
  have hnodup := (TypeDefinition.types_sublist hentries).nodup hdeclares.distinct.1
  rw [List.Nodup, List.pairwise_map] at hnodup
  exact hnodup.imp fun hne heq => hne (congrArg ItemKey.type heq)

namespace Module

variable {m m' : Module} {catalog : Metadata}

theorem LambdasAgree.perm (hperm : m'.types.Perm m.types) (hagree : m.LambdasAgree catalog) :
    m'.LambdasAgree catalog := by
  intro table' htable' d hd d' hd' hne cs cs' hcs hcs'
  obtain ⟨table, htable, hsame⟩ := declareAll_perm hperm.symm (fun _ => rfl) htable'
  have hext := Hierarchy.extends_of_same hsame catalog
  exact hagree table htable d (hperm.mem_iff.mp hd) d' (hperm.mem_iff.mp hd') hne cs cs'
    (TypeDefinition.closures_extend hext hcs) (TypeDefinition.closures_extend hext hcs')

/-- A module in another order declares the same. -/
theorem declare_perm (hperm : m'.types.Perm m.types) (hagree : m.LambdasAgree catalog)
    (h : m.declare catalog = .ok declared) : ∃ declared', m'.declare catalog = .ok declared' ∧
      (∀ key, declared'.table.get? key = declared.table.get? key) ∧
      declared'.definitions.Perm declared.definitions := by
  obtain ⟨table, htypes, h⟩ := except_bind_ok.mp h
  obtain ⟨closures, hclosures, h⟩ := except_bind_ok.mp h
  obtain ⟨all, hrest, h⟩ := except_bind_ok.mp h
  cases h
  obtain ⟨table', htypes', hsame⟩ := declareAll_perm hperm (fun _ => rfl) htypes
  have hext := Hierarchy.extends_of_same hsame catalog
  obtain ⟨css, hcss, hadd⟩ := DefinitionMap.addClosures_iff.mp hclosures
  obtain ⟨css', hcss', hflat⟩ := List.perm_comp_forall₂ hperm hcss
  have hcss'' : List.Forall₂ (fun d cs => d.closures { table := table', catalog } = .ok cs) m'.types css' :=
    hcss'.imp fun d cs hcs => TypeDefinition.closures_extend hext hcs
  have hpairwise : css.Pairwise fun cs cs' => Kept.Agree cs cs' ∧ Kept.Agree cs' cs := by
    refine forall₂_pairwise hcss (keys_distinct htypes) fun d hd d' hd' hne cs cs' hcs hcs' => ?_
    exact ⟨hagree table htypes d hd d' hd' hne cs cs' hcs hcs',
      hagree table htypes d' hd' d hd hne.symm cs' cs hcs' hcs⟩
  obtain ⟨hfits, hkept⟩ := Kept.fits_perm hflat.symm hpairwise (DefinitionMap.addAll_iff.mp ⟨closures, hadd⟩)
  obtain ⟨closures', hadd'⟩ := DefinitionMap.addAll_iff.mpr hfits
  have hvalues : closures'.values = closures.values := by
    refine (Std.TreeMap.Equiv.of_forall_constGet?_eq fun key => ?_).values_eq
    have hget := (DefinitionMap.get?_addAll hadd').trans (hkept.trans (DefinitionMap.get?_addAll hadd).symm)
    exact congrFun hget key
  obtain ⟨all', hrest', hall⟩ := declareAll_perm (.refl closures.values) hsame hrest
  refine ⟨{ table := all', definitions := m'.types ++ closures.values }, ?_, hall, hperm.append_right _⟩
  refine except_bind_ok.mpr ⟨table', htypes', except_bind_ok.mpr ⟨closures', ?_, ?_⟩⟩
  · exact DefinitionMap.addClosures_iff.mpr ⟨css', hcss'', hadd'⟩
  · rw [hvalues]
    exact except_bind_ok.mpr ⟨all', hrest', rfl⟩

end Module

/-! ## Steps -/

section Steps

variable {T : Target} {h : Hierarchy} {options : BuildOptions}

/-- The steps of all definitions are those of each, whatever the supply. -/
theorem stepsOfAll_iff {steps : List (Step T)} :
    ((stepsOfAll T h options ds).exec s).1 = .ok steps ↔
      ∃ parts, List.Forall₂ (fun d own => ((d.steps T h options).exec {}).1 = .ok own) ds parts ∧
        steps = parts.flatten := by
  induction ds generalizing s steps with
  | nil =>
    constructor
    · intro hs
      cases hs
      exact ⟨[], .nil, rfl⟩
    · rintro ⟨parts, hparts, rfl⟩
      cases hparts
      rfl
  | cons d ds ih =>
    have hd (s : Supply) : ((d.steps T h options).exec s).1 = ((d.steps T h options).exec {}).1 :=
      Steady.fst_exec (fun n => d.steps_shifts (.refl _ h) options) s {}
    constructor
    · intro hs
      rcases hexec : (stepsOfAll T h options (d :: ds)).exec s with ⟨r, t⟩
      rw [hexec] at hs
      obtain rfl : r = .ok steps := hs
      obtain ⟨first, s₁, hfirst, hexec⟩ := Effect.exec_bind_ok.mp hexec
      obtain ⟨rest, s₂, hrest, hexec⟩ := Effect.exec_bind_ok.mp hexec
      cases hexec
      obtain ⟨parts, hparts, rfl⟩ := ih.mp (congrArg Prod.fst hrest)
      exact ⟨first :: parts, .cons ((hd s).symm.trans (congrArg Prod.fst hfirst)) hparts, rfl⟩
    · rintro ⟨_, hparts, rfl⟩
      cases hparts with | @cons _ first _ parts hfirst hparts => ?_
      rcases hexec : (d.steps T h options).exec s with ⟨r, s₁⟩
      obtain rfl : r = .ok first := by rw [← hfirst, ← hd s, hexec]
      have hrest : ((stepsOfAll T h options ds).exec s₁).1 = .ok parts.flatten := ih.mpr ⟨parts, hparts, rfl⟩
      rcases hexec' : (stepsOfAll T h options ds).exec s₁ with ⟨r, s₂⟩
      rw [hexec'] at hrest
      obtain rfl : r = .ok parts.flatten := hrest
      rw [stepsOfAll, Effect.exec_bind, hexec]
      simp only [Effect.exec_bind, hexec']
      rfl

/-- Definitions in another order, and tables that hold the same, give the same steps. -/
theorem Declared.steps_perm {declared' : Declared} {catalog : Metadata}
    (htable : ∀ key, declared'.table.get? key = declared.table.get? key)
      (hperm : declared'.definitions.Perm declared.definitions)
    {steps : List (Step T)} (hs : ((declared.steps T catalog options).exec s).1 = .ok steps) (s' : Supply) :
    ∃ steps', ((declared'.steps T catalog options).exec s').1 = .ok steps' ∧ steps'.Perm steps := by
  obtain ⟨parts, hparts, rfl⟩ := stepsOfAll_iff.mp hs
  obtain ⟨parts', hparts', hflat⟩ := List.perm_comp_forall₂ hperm hparts
  refine ⟨parts'.flatten, stepsOfAll_iff.mpr ⟨parts', hparts'.imp fun d own hown => ?_, rfl⟩, hflat.flatten⟩
  rcases hexec : (d.steps T { table := declared.table, catalog } options).exec {} with ⟨r, t⟩
  rw [hexec] at hown
  obtain rfl : r = .ok own := hown
  rw [d.steps_extend (Hierarchy.extends_of_same htable catalog) options hexec]

end Steps

namespace Task

section

variable {tasks : List Task} {order : List Nat}

open Classical in
/-- The turn of a task in a schedule. -/
noncomputable def turn (tasks : List Task) (order : List Nat) (t : Task) :
    Nat := order.findIdx fun i => tasks[i]? = some t

/-- A task has its turn somewhere. -/
theorem Schedule.turn_spec (hschedule : Schedule tasks order) {t : Task} (ht : t ∈ tasks) :
    ∃ i, order[turn tasks order t]? = some i ∧ tasks[i]? = some t := by
  classical
  obtain ⟨before, i, after, hsplit, hi⟩ := hschedule.split ht
  have hlt : turn tasks order t < order.length :=
    List.findIdx_lt_length_of_exists ⟨i, by simp [hsplit], by simpa using hi⟩
  refine ⟨order[turn tasks order t], List.getElem?_eq_getElem hlt, ?_⟩
  exact of_decide_eq_true (List.findIdx_getElem (w := hlt))

/-- A task has its turn no later than at any of its places. -/
theorem turn_le {t : Task} {n i : Nat} (hn : order[n]? = some i) (hi : tasks[i]? = some t) :
    turn tasks order t ≤ n := by
  classical
  obtain ⟨hlt, rfl⟩ := List.getElem?_eq_some_iff.mp hn
  refine Nat.le_of_not_lt fun hearly => ?_
  exact absurd hi (by simpa using List.not_of_lt_findIdx hearly)

end

/-- Tasks in another order can be planned as well. -/
theorem plan_perm {tasks tasks' : List Task} (hperm : tasks'.Perm tasks) {order : List Nat}
    (h : plan tasks = .ok order) :
    ∃ order', plan tasks' = .ok order' := by
  obtain ⟨hone, hschedule⟩ := plan_completes h
  have hone' : OneMaker tasks' := by
    rw [oneMaker_iff_pairwise] at hone ⊢
    exact (hperm.pairwise_iff fun hne key hu ht => hne key ht hu).mpr hone
  -- The old turns rank the tasks, so a schedule for the new order exists.
  obtain ⟨order', hschedule'⟩ : ∃ order', Schedule tasks' order' := by
    refine exists_schedule (turn tasks order) (fun t ht u hu hle => ?_) fun t ht key hkey => ?_
    · obtain ⟨i, hi, hit⟩ := hschedule.turn_spec (hperm.mem_iff.mp ht)
      obtain ⟨j, hj, hju⟩ := hschedule.turn_spec (hperm.mem_iff.mp hu)
      rcases Nat.lt_or_eq_of_le hle with hlt | heq
      · obtain ⟨hni, rfl⟩ := List.getElem?_eq_some_iff.mp hi
        obtain ⟨hnj, rfl⟩ := List.getElem?_eq_some_iff.mp hj
        exact List.pairwise_iff_getElem.mp hschedule.ascending _ _ hni hnj hlt t u hit hju
      · rw [heq, hj] at hi
        cases hi
        rw [hju] at hit
        cases hit
        exact Nat.le_refl _
    · obtain ⟨i, hi, hit⟩ := hschedule.turn_spec (hperm.mem_iff.mp ht)
      obtain ⟨hlt, rfl⟩ := List.getElem?_eq_some_iff.mp hi
      have hsplit : order = order.take (turn tasks order t) ++ order[turn tasks order t] :: order.drop
          (turn tasks order t + 1) := by
        rw [List.getElem_cons_drop, List.take_append_drop]
      obtain ⟨j, hj, u, hu, hout⟩ := hschedule.fed _ _ _ t hsplit hit key hkey
      refine ⟨u, hperm.mem_iff.mpr (List.mem_of_getElem? hu), hout, ?_⟩
      obtain ⟨n, hn, hnj⟩ := List.mem_take_iff_getElem.mp hj
      refine Nat.lt_of_le_of_lt (turn_le (List.getElem?_eq_some_iff.mpr ⟨by omega, hnj⟩) hu) (by omega)
  obtain ⟨least, hplan, -⟩ := plan_least hone' hschedule'
  exact ⟨least, hplan⟩

end Task

/-! ## Completed types -/

namespace Slots

variable {H : Handles} {s s' : Slots H}

theorem mem_completedTypes_iff {key : TypeKey} {v : H.Completed} :
    (key, v) ∈ s.completedTypes ↔ s.completed key = .ok v := by
  rw [completedTypes_eq, List.mem_filterMap, completed, read]
  constructor
  · rintro ⟨⟨item, slot⟩, hslot, hentry⟩
    obtain ⟨rfl, -⟩ := completed?_eq_some hentry
    rw [Std.DTreeMap.mem_toList_iff_get?_eq_some.mp hslot]
    obtain ⟨w, hw, hkey⟩ := Option.map_eq_some_iff.mp hentry
    cases hkey
    simp only [Slot.read, hw]
    rfl
  · intro h
    split at h
    · rename_i slot hslot
      refine ⟨⟨.completed key, slot⟩, Std.DTreeMap.mem_toList_iff_get?_eq_some.mpr hslot, ?_⟩
      unfold Slot.read at h
      split at h
      · rename_i hcontent
        cases h
        exact Option.map_eq_some_iff.mpr ⟨v, hcontent, rfl⟩
      · cases h
    · cases h

/-- The completed types are listed in the order of their keys, so they are told by their handles. -/
theorem completedTypes_ext (h : ∀ key v, s.completed key = .ok v ↔ s'.completed key = .ok v) :
    s.completedTypes = s'.completedTypes := by
  have hsorted (s : Slots H) : s.completedTypes.Pairwise fun a b => ItemKey.order (.completed a.1)
      (.completed b.1) = .lt := by
    rw [completedTypes_eq, List.pairwise_filterMap]
    refine Std.DTreeMap.ordered_keys_toList.imp fun {a b} hlt c hc c' hc' => ?_
    rwa [(completed?_eq_some hc).1, (completed?_eq_some hc').1] at hlt
  have hnodup (s : Slots H) : s.completedTypes.Nodup := .of_map _ s.nodup_completedTypes
  refine List.Perm.eq_of_pairwise (fun a b _ _ hab hba => ?_) (hsorted s) (hsorted s') ?_
  · rw [Std.OrientedCmp.gt_of_lt hba] at hab
    cases hab
  · rw [List.perm_ext_iff_of_nodup (hnodup s) (hnodup s')]
    rintro ⟨key, v⟩
    rw [mem_completedTypes_iff, mem_completedTypes_iff, h]

end Slots

/-! ## Builds -/

/-- Two finished builds on the recorder, with what was recorded, that differ in order only. -/
structure SameUpToOrder (built built' : Built recorder) (log log' : Recorder.Log) : Prop where
  table : built.table.toList = built'.table.toList
  completed : built.slots.completedTypes = built'.slots.completedTypes
  events : log.events.toList.Perm log'.events.toList
  bodies : log.bodies.toList.Perm log'.bodies.toList

namespace Module

open Recorder

variable {m m' : Module} {catalog : Metadata} {options : BuildOptions}

theorem steps_recordable {t : Supply} {steps : List (Step recorder)}
    (hsteps : (declared.steps recorder catalog options).exec s = (.ok steps, t)) : ∀ step ∈ steps, step.Recordable := by
  intro step hstep
  obtain ⟨d, -, s', own, t', hown, hstep⟩ := of_mem_stepsOfAll hsteps step hstep
  exact TypeDefinition.steps_recordable hown step hstep

/-- Slots that hold the handles of the same keys hold the same completed types. -/
theorem completedTypes_of_canonical {slots slots' : Slots recorder.toHandles} (hslots : Canonical slots)
    (hslots' : Canonical slots')
    (h : ∀ key, slots.isWritten key ↔ slots'.isWritten key) : slots.completedTypes = slots'.completedTypes := by
  have hread {slots slots' : Slots recorder.toHandles} (hslots : Canonical slots) (hslots' : Canonical slots')
      (h : ∀ key, slots.isWritten key → slots'.isWritten key) {key : TypeKey} {v : recorder.Completed}
      (hv : slots.completed key = .ok v) : slots'.completed key = .ok v := by
    obtain rfl : v = handleOf (.completed key) := hslots (.completed key) v hv
    exact hslots'.read (h _ (Slots.isWritten_iff.mpr (Slots.state?_of_read hv)))
  exact Slots.completedTypes_ext fun key v =>
    ⟨hread hslots hslots' fun key => (h key).mp, hread hslots' hslots fun key => (h key).mpr⟩

/-- A module that is built in one order is built in every order, with the same outcome. -/
theorem build_perm (hperm : m'.types.Perm m.types) (hagree : m.LambdasAgree catalog) {built : Built recorder}
    {after : BuildState recorder} (h : (m.build recorder catalog options).exec ⟨s, {}⟩ = (.ok built, after))
    (s' : Supply) :
    ∃ built' after', (m'.build recorder catalog options).exec ⟨s', {}⟩ = (.ok built', after') ∧
      SameUpToOrder built built' after.program after'.program := by
  obtain ⟨declared, steps, t, texts, w, hdeclare, hsteps, hexecute, hslots, htable, hprogram⟩ := of_build_ok h
  obtain ⟨declared', hdeclare', hsame, hdefinitions⟩ := declare_perm hperm hagree hdeclare
  obtain ⟨steps', hok, hstepsPerm⟩ := declared.steps_perm hsame hdefinitions (congrArg Prod.fst hsteps) s'
  have hsteps' : (declared'.steps recorder catalog options).exec s' = (.ok steps', _) := Prod.ext hok rfl
  obtain ⟨order, hplan, -⟩ := Effect.exec_lift_bind_ok.mp hexecute
  obtain ⟨order', hplan'⟩ := Task.plan_perm (hstepsPerm.map (·.toTask)) hplan
  obtain ⟨r, log, slots, hrun, hiff, hdone⟩ := Step.execute_recorded (steps_recordable hsteps) hplan
  obtain ⟨r', log', slots', hrun', hiff', hdone'⟩ := Step.execute_recorded (steps_recordable hsteps') hplan'
  have hworkspace : (r, whileBuilding log slots) = (.ok texts, w) := hrun.symm.trans hexecute
  obtain ⟨rfl, rfl⟩ := Prod.mk.inj hworkspace
  have hrecords := hiff.mp ⟨texts, rfl⟩
  obtain ⟨texts', rfl⟩ : ∃ texts', r' = .ok texts' := hiff'.mpr fun step hstep =>
    hrecords step (hstepsPerm.mem_iff.mp hstep)
  obtain ⟨hwritten, hcanonical, hevents, hbodies⟩ := hdone ⟨texts, rfl⟩
  obtain ⟨hwritten', hcanonical', hevents', hbodies'⟩ := hdone' ⟨texts', rfl⟩
  have hmakes : (Step.makes steps').Perm (Step.makes steps) := hstepsPerm.flatMap_right _
  refine ⟨_, _, exec_build hdeclare' hsteps' hrun', ?_⟩
  rw [hprogram]
  refine ⟨?_, ?_, ?_, ?_⟩
  · rw [htable]
    exact (Table.toList_eq hsame).symm
  · rw [hslots]
    exact completedTypes_of_canonical hcanonical hcanonical' fun key =>
      (hwritten key).trans (hmakes.mem_iff.symm.trans (hwritten' key).symm)
  · exact hevents.trans ((hstepsPerm.flatMap_right _).symm.trans hevents'.symm)
  · exact hbodies.trans ((hstepsPerm.flatMap_right _).symm.trans hbodies'.symm)

/-- When lambdas of different definitions that are taken for each other are the same, the order of the definitions
    does not matter: a module is built on the recorder in one order exactly when it is built in another, and then both
    have the same table and the same completed types, and recorded the same events and the same bodies, up to order. -/
theorem build_ignores_order (hperm : m'.types.Perm m.types) (hagree : m.LambdasAgree catalog) (options : BuildOptions)
    (s s' : Supply) :
    ((∃ built after, (m.build recorder catalog options).exec ⟨s, {}⟩ = (.ok built, after)) ↔
      ∃ built after, (m'.build recorder catalog options).exec ⟨s', {}⟩ = (.ok built, after)) ∧
    ∀ built after built' after', (m.build recorder catalog options).exec ⟨s, {}⟩ = (.ok built, after) →
      (m'.build recorder catalog options).exec ⟨s', {}⟩ = (.ok built', after') →
      SameUpToOrder built built' after.program after'.program := by
  refine ⟨⟨?_, ?_⟩, fun built after built' after' h h' => ?_⟩
  · rintro ⟨built, after, h⟩
    obtain ⟨built', after', h', -⟩ := build_perm hperm hagree h s'
    exact ⟨built', after', h'⟩
  · rintro ⟨built', after', h'⟩
    obtain ⟨built, after, h, -⟩ := build_perm hperm.symm (hagree.perm hperm) h' s
    exact ⟨built, after, h⟩
  · obtain ⟨built₂, after₂, h₂, hsame⟩ := build_perm hperm hagree h s'
    rw [h₂] at h'
    cases h'
    exact hsame

/-- A class with a method that returns a function which returns the number. The function has the
    same name whatever the class. -/
def constant (name : String) (v : Float) : TypeDefinition where
  key := ⟨name⟩
  attributes := { isPublic := true }
  members := [
    .method {
      name := "make", attributes := { isPublic := true, isStatic := true }
      returnType := .delegate [] (.primitive .f64)
      body := .expr { params := [], body := .lambda (.named "shared") [] (.literal (.f64 v)) } }]

def constants (a b : Float) : Module where
  types := [constant "A" a, constant "B" b]

def constantLayout (v : Float) : ClosureLayout := ⟨closureKey (.named "shared"), [], [], .primitive .f64,
    .literal (.f64 v)⟩

theorem closures_constants (v : Float) (h : Hierarchy) {cs : List TypeDefinition} :
    ∀ d ∈ (constants v v).types, d.closures h = .ok cs → cs = [(constantLayout v).definition] := by
  have hclosures : ∀ d ∈ (constants v v).types, d.closures h = .ok [(constantLayout v).definition] := by
    simp only [constants, List.forall_mem_cons]
    exact ⟨rfl, rfl, by simp⟩
  exact fun d hd hcs => Except.ok.inj (hcs.symm.trans (hclosures d hd))

/-- Functions that return the same number are the same. -/
theorem constants_agree (v : Float) (catalog : Metadata) : (constants v v).LambdasAgree catalog := by
  intro table _ d hd d' hd' _ cs cs' hcs hcs' c hc c' hc' _ _
  rw [closures_constants v _ d hd hcs] at hc
  rw [closures_constants v _ d' hd' hcs'] at hc'
  rw [List.mem_singleton.mp hc, List.mem_singleton.mp hc']

theorem constants_build_either_way : ∃ built after built' after',
    ((constants 1.0 1.0).build recorder ∅ {}).exec ⟨{}, {}⟩ = (.ok built, after) ∧
    (build recorder { types := (constants 1.0 1.0).types.reverse } ∅ {}).exec ⟨{}, {}⟩ = (.ok built', after') ∧
    SameUpToOrder built built' after.program after'.program := by
  have hbuilt : (((constants 1.0 1.0).build recorder ∅ {}).exec ⟨{}, {}⟩).1.isOk = true := by decide +kernel
  rcases h : ((constants 1.0 1.0).build recorder ∅ {}).exec ⟨{}, {}⟩ with ⟨r, after⟩
  rw [h] at hbuilt
  cases r with
  | error e => cases hbuilt
  | ok built =>
    have hperm : (constants 1.0 1.0).types.reverse.Perm (constants 1.0 1.0).types := List.reverse_perm _
    obtain ⟨hiff, hsame⟩ := @build_ignores_order (constants 1.0 1.0)
      { types := (constants 1.0 1.0).types.reverse } ∅ hperm
      (constants_agree 1.0 ∅) {} {} {}
    obtain ⟨built', after', h'⟩ := hiff.mp ⟨built, after, h⟩
    exact ⟨built, after, built', after', rfl, h', hsame built after built' after' h h'⟩

/-- The bodies that a build from nothing records, if it succeeds. -/
def recordedBodies (m : Module) : Option (List (String × Array String)) :=
  match (m.build recorder ∅ {}).exec ⟨{}, ({} : Log)⟩ with
  | (.ok _, ⟨_, (log : Log)⟩) => some log.bodies.toList
  | (.error _, _) => none

/-- Functions that return `0.0` and `-0.0` compare equal, so the one that is found first stands for
    both: the order of the definitions decides what the program returns. -/
theorem signed_zeros_depend_on_order : ∃ bodies bodies', (constants 0.0 (-0.0)).recordedBodies = some bodies ∧
    recordedBodies { types := (constants 0.0 (-0.0)).types.reverse } = some bodies' ∧ ¬ bodies.Perm bodies' := by
  let zero : String × Array String := ("<closure>shared::Invoke", #["ldc.r8 0", "ret"])
  have hfirst : (constants 0.0 (-0.0)).recordedBodies.any (·.contains zero) = true := by decide +kernel
  have hsecond : (recordedBodies { types := (constants 0.0 (-0.0)).types.reverse }).any (!·.contains zero) = true := by
    decide +kernel
  rw [Option.any_eq_true] at hfirst hsecond
  obtain ⟨bodies, hbodies, hzero⟩ := hfirst
  obtain ⟨bodies', hbodies', hother⟩ := hsecond
  refine ⟨bodies, bodies', hbodies, hbodies', fun hperm => ?_⟩
  rw [hperm.contains_eq] at hzero
  rw [hzero] at hother
  cases hother

end Module

end Stackwright
