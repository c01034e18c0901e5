import Stackwright.Proofs.Related
import Stackwright.Proofs.Lambdas
import Stackwright.Module.Declare

/-
  Stackwright.Proofs.Declared — what a module declares.

  Every definition enters its own key and those of its members into the table, each with what
  is declared under it; no key is entered twice.

  - `Module.of_declare`: the definitions of a module that was declared, and its table.
  - `Module.Declares.found`, `Module.Declares.only`: the definitions that are added for lambdas.
-/

namespace Stackwright

variable {layouts : List ClosureLayout} {h : Hierarchy}
variable {α β : Type} {m : Member} {d : TypeDefinition}

/-! ## Answers for lists -/

theorem forall₂_of_mapM {α β : Type} {f : α → Except BuildError β} : ∀ {as : List α} {bs : List β},
    as.mapM f = .ok bs → List.Forall₂ (fun a b => f a = .ok b) as bs
  | [], bs, h => by
    cases h
    exact .nil
  | a :: as, bs, h => by
    rw [List.mapM_cons] at h
    obtain ⟨b, hb, h⟩ := except_bind_ok.mp h
    obtain ⟨rest, hrest, h⟩ := except_bind_ok.mp h
    cases h
    exact .cons hb (forall₂_of_mapM hrest)

theorem exists_of_foldlM {α β : Type} {f : β → α → Except BuildError β} : ∀ {as : List α} {b c : β},
    as.foldlM f b = .ok c → ∀ {a : α}, a ∈ as → ∃ b' c', f b' a = .ok c'
  | [], _, _, _, _, ha => by cases ha
  | a :: as, b, c, h, a', ha => by
    rw [List.foldlM_cons] at h
    obtain ⟨b', hb, h⟩ := except_bind_ok.mp h
    rcases List.mem_cons.mp ha with rfl | ha
    · exact ⟨b, b', hb⟩
    · exact exists_of_foldlM h ha

/-! ## Tables -/

/-- A key with what is declared under it. -/
abbrev Entry := ItemKey × Declaration

theorem Table.get?_insert (t : Table) (key k : ItemKey) (decl : Declaration) :
    (t.insert key decl).get? k = if key = k then some decl else t.get? k := by
  show (t.insert key decl)[k]? = _
  rw [Std.TreeMap.getElem?_insert]
  simp only [Std.LawfulEqCmp.compare_eq_iff_eq]
  rfl

/-- Entries that were added to a table one by one, each under a new key. -/
inductive Declares : Table → List Entry → Table → Prop
  | nil {t} : Declares t [] t
  | cons {t key decl entries result} : t.get? key = none → Declares (t.insert key decl) entries result →
      Declares t ((key, decl) :: entries) result

namespace Declares

variable {t middle result : Table} {entries more : List Entry} {key : ItemKey} {decl : Declaration}

theorem of_declare (h : t.declare key decl = .ok result) : Declares t [(key, decl)] result := by
  unfold Table.declare at h
  split at h
  · cases h
  · rename_i hnew
    cases h
    refine .cons ?_ .nil
    rw [Std.TreeMap.contains_eq_isSome_getElem?] at hnew
    exact Option.not_isSome_iff_eq_none.mp hnew

theorem append (h : Declares t entries middle) (hmore : Declares middle more result) :
    Declares t (entries ++ more) result := by
  induction h with
  | nil => exact hmore
  | cons hnew _ ih => exact .cons hnew (ih hmore)

theorem get? (h : Declares t entries result) :
    result.get? key = some decl ↔ (key, decl) ∈ entries ∨ t.get? key = some decl := by
  induction h with
  | nil => simp
  | @cons t k d entries result hnew _ ih =>
    rw [ih, Table.get?_insert, List.mem_cons, Prod.mk.injEq]
    by_cases hk : k = key
    · subst hk
      rw [if_pos rfl, hnew]
      grind
    · rw [if_neg hk]
      grind

/-- No key is added twice, and none that was there. -/
theorem distinct (h : Declares t entries result) : (entries.map (·.1)).Nodup ∧ ∀ entry ∈ entries,
    t.get? entry.1 = none := by
  induction h with
  | nil => simp
  | @cons t k d entries result hnew _ ih =>
    obtain ⟨hnodup, hfresh⟩ := ih
    have hother : ∀ entry ∈ entries, k ≠ entry.1 ∧ t.get? entry.1 = none := by
      intro entry hentry
      have := hfresh entry hentry
      rw [Table.get?_insert] at this
      split at this
      · cases this
      · exact ⟨‹_›, this⟩
    refine ⟨List.nodup_cons.mpr ⟨?_, hnodup⟩, List.forall_mem_cons.mpr ⟨hnew, fun entry he => (hother entry he).2⟩⟩
    intro hk
    obtain ⟨entry, hentry, rfl⟩ := List.mem_map.mp hk
    exact (hother entry hentry).1 rfl

end Declares

/-! ## Definitions -/

namespace TypeDefinition

variable (d : TypeDefinition)

/-- What a member enters into the table. -/
def memberEntry : Member → Except BuildError Entry
  | .field f => .ok (.field (d.fieldKey f), .field ⟨f.attributes, f.fieldType⟩)
  | .method m => do
    let key ← d.methodKey m
    .ok (.method key, .method ⟨m.attributes, m.returnType⟩)
  | .constructor c => do
    let key ← d.constructorKey c
    .ok (.constructor key, .constructor ⟨c.attributes⟩)
  | .property p =>
    .ok (.property (d.propertyKey p), .property ⟨p.attributes, p.propertyType, p.getter, p.setter⟩)

/-- What a definition enters into the table: its own key, then those of its members. -/
inductive HasEntries : List Entry → Prop
  | intro {entries : List Entry} : List.Forall₂ (fun m entry => d.memberEntry m = .ok entry) d.members entries →
      HasEntries ((.type d.key, .type ⟨d.attributes, d.base, d.interfaces⟩) :: entries)

variable {d}

theorem declares_member {t result : Table} (h : d.declareMember t m = .ok result) :
    ∃ entry, d.memberEntry m = .ok entry ∧ Declares t [entry] result := by
  cases m with
  | field f | property p => exact ⟨_, rfl, .of_declare h⟩
  | method m | constructor c =>
    obtain ⟨key, hkey, h⟩ := except_bind_ok.mp h
    refine ⟨_, ?_, .of_declare h⟩
    simp only [memberEntry, hkey]
    rfl

theorem declares_members : ∀ {ms : List Member} {t result : Table}, ms.foldlM d.declareMember t = .ok result →
    ∃ entries, List.Forall₂ (fun m entry => d.memberEntry m = .ok entry) ms entries ∧ Declares t entries result
  | [], t, result, h => by
    cases h
    exact ⟨[], .nil, .nil⟩
  | m :: ms, t, result, h => by
    rw [List.foldlM_cons] at h
    obtain ⟨middle, hm, h⟩ := except_bind_ok.mp h
    obtain ⟨entry, hentry, hfirst⟩ := declares_member hm
    obtain ⟨entries, hentries, hrest⟩ := declares_members h
    exact ⟨entry :: entries, .cons hentry hentries, hfirst.append hrest⟩

theorem declares {t result : Table} (h : d.declare t = .ok result) :
    ∃ entries, d.HasEntries entries ∧ Declares t entries result := by
  obtain ⟨middle, htype, h⟩ := except_bind_ok.mp h
  obtain ⟨entries, hentries, hrest⟩ := declares_members h
  exact ⟨_, .intro hentries, (Declares.of_declare htype).append hrest⟩

end TypeDefinition

theorem declares_all : ∀ {ds : List TypeDefinition} {t result : Table}, declareAll t ds = .ok result →
    ∃ entries, List.Forall₂ TypeDefinition.HasEntries ds entries ∧ Declares t entries.flatten result
  | [], t, result, h => by
    cases h
    exact ⟨[], .nil, .nil⟩
  | d :: ds, t, result, h => by
    rw [declareAll, List.foldlM_cons] at h
    obtain ⟨middle, hd, h⟩ := except_bind_ok.mp h
    obtain ⟨first, hfirst, hdeclares⟩ := TypeDefinition.declares hd
    obtain ⟨rest, hrest, hmore⟩ := declares_all h
    exact ⟨first :: rest, .cons hfirst hrest, hdeclares.append hmore⟩

/-! ## Closures -/

theorem Gathers.foldlM {ι α β : Type} [BEq α] {key : α → TypeKey} {item : ι → Except BuildError α}
    {holds : β → ι → Prop} {step : Gathered α → β → Except BuildError (Gathered α)}
    (hstep : ∀ b found result, step found b = .ok result → Gathers key item (holds b) found result) :
    ∀ {bs : List β} {found result : Gathered α}, bs.foldlM step found = .ok result →
      Gathers key item (fun i => ∃ b ∈ bs, holds b i) found result
  | [], found, result, h => by
    cases h
    exact .refl (by simp)
  | b :: bs, found, result, h => by
    rw [List.foldlM_cons] at h
    obtain ⟨middle, hb, h⟩ := except_bind_ok.mp h
    exact ((hstep b found middle hb).trans (foldlM hstep h)).congr (by simp)

/-- The expressions of a member, each with the types of the variables around it. -/
def Member.roots (h : Hierarchy) : Member → List (Expr × TypeEnv)
  | .method { body := .expr body, .. } => [(body.body, body.typeEnv h)]
  | .constructor { body := .expr body base, .. } =>
    (base.toList.flatMap (·.args) ++ [body.body]).map fun e => (e, body.typeEnv h)
  | _ => []

/-- A lambda in one of the expressions of a definition. -/
def TypeDefinition.Holds (d : TypeDefinition) (h : Hierarchy) (l : Lambda) (types : TypeEnv) : Prop :=
  ∃ m ∈ d.members, ∃ root ∈ m.roots h, root.1.Holds root.2 l types

/-- Collecting in one expression. -/
theorem Expr.closures_spec {e : Expr} {env : TypeEnv} (h : e.closures env = .ok layouts) :
    (∀ l types, e.Holds env l types → ∃ layout, l.layout types = .ok layout ∧
      ∃ known ∈ layouts, known.key = layout.key ∧ (known = layout ∨ (known == layout))) ∧
    ∀ layout ∈ layouts, ∃ l types, e.Holds env l types ∧ l.layout types = .ok layout := by
  obtain ⟨found, hfound, h⟩ := except_bind_ok.mp h
  cases h
  have hcollects := e.collect_collects hfound
  have hempty (k : TypeKey) : (∅ : Closures).get? k = none := Std.TreeMap.getElem?_emptyc
  constructor
  · intro l types hl
    obtain ⟨layout, hlayout, known, hknown, hsame⟩ := hcollects.finds (l, types) hl
    refine ⟨layout, hlayout, known, Gathered.mem_values.mpr ⟨_, hknown⟩, ?_, hsame⟩
    rcases hcollects.only _ _ hknown with h | ⟨hkey, -⟩
    · rw [hempty] at h
      cases h
    · exact hkey
  · intro layout hlayout
    obtain ⟨key, hkey⟩ := Gathered.mem_values.mp hlayout
    rcases hcollects.only _ _ hkey with h | ⟨-, ⟨l, types⟩, hl, hlayout⟩
    · rw [hempty] at h
      cases h
    · exact ⟨l, types, hl, hlayout⟩

/-- Collecting in one member goes through its expressions. -/
theorem Member.closures_spec (hm : m.closures h = .ok layouts) :
    ∃ found, List.Forall₂ (fun root layouts => root.1.closures root.2 = .ok layouts) (m.roots h) found ∧
      layouts = found.flatten := by
  unfold closures at hm
  split at hm
  · exact ⟨[layouts], .cons hm .nil, by simp⟩
  · obtain ⟨found, hfound, hm⟩ := except_bind_ok.mp hm
    cases hm
    refine ⟨found, ?_, rfl⟩
    rw [roots, List.forall₂_map_left_iff]
    exact forall₂_of_mapM hfound
  · rename_i hmethod hconstructor
    cases hm
    refine ⟨[], ?_, rfl⟩
    unfold roots
    split
    · exact absurd rfl (hmethod _ _ _ _)
    · exact absurd rfl (hconstructor _ _ _)
    · exact .nil

theorem TypeDefinition.closures_spec {ds : List TypeDefinition} (hd : d.closures h = .ok ds) :
    (∀ l types, d.Holds h l types → ∃ layout, l.layout types = .ok layout ∧
      ∃ known : ClosureLayout, known.definition ∈ ds ∧ known.key = layout.key ∧ (known = layout ∨ (known == layout))) ∧
    ∀ c ∈ ds, ∃ l types layout, d.Holds h l types ∧ l.layout types = .ok layout ∧ c = layout.definition := by
  obtain ⟨layouts, hlayouts, hd⟩ := except_bind_ok.mp hd
  cases hd
  have hmembers := forall₂_of_mapM hlayouts
  constructor
  · rintro l types ⟨m, hm, root, hroot, hl⟩
    obtain ⟨found, hfound, hmfound⟩ := exists_of_forall₂_left hmembers hm
    obtain ⟨parts, hparts, rfl⟩ := Member.closures_spec hmfound
    obtain ⟨part, hpart, hclosures⟩ := exists_of_forall₂_left hparts hroot
    obtain ⟨layout, hlayout, known, hknown, hsame⟩ := (Expr.closures_spec hclosures).1 l types hl
    refine ⟨layout, hlayout, known, List.mem_map_of_mem ?_, hsame⟩
    exact List.mem_flatten.mpr ⟨_, hfound, List.mem_flatten.mpr ⟨part, hpart, hknown⟩⟩
  · intro c hc
    obtain ⟨layout, hlayout, rfl⟩ := List.mem_map.mp hc
    obtain ⟨found, hfound, hlayout⟩ := List.mem_flatten.mp hlayout
    obtain ⟨m, hm, hmfound⟩ := exists_of_forall₂_right hmembers hfound
    obtain ⟨parts, hparts, rfl⟩ := Member.closures_spec hmfound
    obtain ⟨part, hpart, hlayout⟩ := List.mem_flatten.mp hlayout
    obtain ⟨root, hroot, hclosures⟩ := exists_of_forall₂_right hparts hpart
    obtain ⟨l, types, hl, hlayout⟩ := (Expr.closures_spec hclosures).2 layout hlayout
    exact ⟨l, types, layout, ⟨m, hm, root, hroot, hl⟩, hlayout, rfl⟩

theorem DefinitionMap.add_gathers {found result : DefinitionMap} {d : TypeDefinition} (h : found.add d = .ok result) :
    Gathers TypeDefinition.key Except.ok (· = d) found result := by
  unfold add at h
  split at h
  · rename_i hfree
    cases h
    exact .insert rfl hfree
  · rename_i known hknown
    split at h
    · cases h
    · rename_i hsame
      cases h
      exact .known rfl hknown (by simpa [bne] using hsame)

theorem DefinitionMap.addClosures_gathers {found result : DefinitionMap} (hd : found.addClosures h d = .ok result) :
    ∃ ds, d.closures h = .ok ds ∧ Gathers TypeDefinition.key Except.ok (· ∈ ds) found result := by
  obtain ⟨ds, hds, hd⟩ := except_bind_ok.mp hd
  refine ⟨ds, hds, (Gathers.foldlM (fun d found result => @add_gathers found result d) hd).congr fun c => ?_⟩
  simp

/-! ## Modules -/

/-- A lambda in one of the expressions of a module. -/
def Module.Holds (m : Module) (h : Hierarchy) (l : Lambda) (types : TypeEnv) : Prop := ∃ d ∈ m.types, d.Holds h l types

/-- The stages of declaring a module: the table of its own types, then the closures that are
    found with it, then the table of everything. -/
structure Module.Declares (m : Module) (catalog : Metadata) (table : Table) (closures : DefinitionMap)
    (declared : Declared) : Prop where
  types : declareAll ∅ m.types = .ok table
  collected : ∀ d ∈ m.types, ∃ ds, d.closures { table, catalog } = .ok ds
  gathers : Gathers TypeDefinition.key Except.ok
    (fun c => ∃ d ∈ m.types, ∃ ds, d.closures { table, catalog } = .ok ds ∧ c ∈ ds) ∅ closures
  rest : declareAll table closures.values = .ok declared.table
  definitions : declared.definitions = m.types ++ closures.values

theorem Module.of_declare {m : Module} {catalog : Metadata} {declared : Declared}
    (h : m.declare catalog = .ok declared) :
    ∃ table closures, m.Declares catalog table closures declared := by
  obtain ⟨table, htypes, h⟩ := except_bind_ok.mp h
  obtain ⟨closures, hclosures, h⟩ := except_bind_ok.mp h
  obtain ⟨all, hrest, h⟩ := except_bind_ok.mp h
  cases h
  refine ⟨table, closures, htypes, ?_, ?_, hrest, rfl⟩
  · intro d hd
    obtain ⟨found, result, hstep⟩ := exists_of_foldlM hclosures hd
    obtain ⟨ds, hds, -⟩ := DefinitionMap.addClosures_gathers hstep
    exact ⟨ds, hds⟩
  · refine Gathers.foldlM (fun d found result hstep => ?_) hclosures
    obtain ⟨ds, hds, hgathers⟩ := DefinitionMap.addClosures_gathers hstep
    refine hgathers.congr fun c => ⟨?_, fun hc => ⟨ds, hds, hc⟩⟩
    rintro ⟨ds', hds', hc⟩
    rw [hds] at hds'
    cases hds'
    exact hc

namespace Module.Declares

variable {m : Module} {catalog : Metadata} {table : Table} {closures : DefinitionMap} {declared : Declared}

/-- Every lambda has a layout, and a definition that agrees with it is added. -/
theorem found (h : m.Declares catalog table closures declared) {l : Lambda} {types : TypeEnv}
    (hl : m.Holds { table, catalog } l types) :
    ∃ layout known d, l.layout types = .ok layout ∧ known.key = layout.key ∧ (known = layout ∨ (known == layout)) ∧
      d ∈ closures.values ∧ d.key = layout.key ∧ (d = known.definition ∨ (d == known.definition)) := by
  obtain ⟨t, ht, hl⟩ := hl
  obtain ⟨ds, hds⟩ := h.collected t ht
  obtain ⟨layout, hlayout, known, hknown, hkey, hsame⟩ := (TypeDefinition.closures_spec hds).1 l types hl
  obtain ⟨_, hc, d, hd, hd'⟩ := h.gathers.finds known.definition ⟨t, ht, ds, hds, hknown⟩
  cases hc
  refine ⟨layout, known, d, hlayout, hkey, hsame, Gathered.mem_values.mpr ⟨_, hd⟩, ?_, hd'⟩
  rcases h.gathers.only _ _ hd with h | ⟨hdkey, -⟩
  · cases (Std.TreeMap.getElem?_emptyc : (∅ : DefinitionMap)[_]? = none).symm.trans h
  · exact hdkey.trans hkey

/-- Only definitions for lambdas are added. -/
theorem only (h : m.Declares catalog table closures declared) (hd : d ∈ closures.values) :
    ∃ l types layout, m.Holds { table, catalog } l types ∧ l.layout types = .ok layout ∧ d = layout.definition := by
  obtain ⟨key, hd⟩ := Gathered.mem_values.mp hd
  rcases h.gathers.only _ _ hd with h | ⟨-, c, ⟨t, ht, ds, hds, hc⟩, hcd⟩
  · cases (Std.TreeMap.getElem?_emptyc : (∅ : DefinitionMap)[_]? = none).symm.trans h
  · cases hcd
    obtain ⟨l, types, layout, hl, hlayout, rfl⟩ := (TypeDefinition.closures_spec hds).2 d hc
    exact ⟨l, types, layout, ⟨t, ht, hl⟩, hlayout, rfl⟩

/-- The table holds the entries of all definitions. -/
theorem entries (h : m.Declares catalog table closures declared) :
    ∃ own added, List.Forall₂ TypeDefinition.HasEntries m.types own ∧
      List.Forall₂ TypeDefinition.HasEntries closures.values added ∧ Stackwright.Declares ∅ own.flatten table ∧
      Stackwright.Declares table added.flatten declared.table := by
  obtain ⟨own, hown, htypes⟩ := declares_all h.types
  obtain ⟨added, hadded, hrest⟩ := declares_all h.rest
  exact ⟨own, added, hown, hadded, htypes, hrest⟩

end Module.Declares

end Stackwright
