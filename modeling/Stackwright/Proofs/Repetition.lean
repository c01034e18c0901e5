import Stackwright.Proofs.DefinitionOrder

/-
  Stackwright.Proofs.Repetition — lambdas that occur more than once.

  A lambda that is met again has to need the same type as before, and the two are compared as wholes, with the numbers
  in their bodies. A number that does not equal itself makes a lambda differ from itself, so it can occur only once;
  the two zeros are equal without being the same, so a further occurrence may change which of two lambdas is kept.

  - `Expr.closures_twice`: an expression that stands twice in a row.
  - `Module.declare_repeated`: a method that repeats the body of another one.
-/

namespace Stackwright

/-! ## Expressions -/

namespace Expr

/-- What is there already does not have to be added. -/
theorem add_of_has {found : Closures} {layout : ClosureLayout} (hhas : Gathered.Has found layout.key layout)
    (hself : layout == layout) : found.add layout = .ok found := by
  obtain ⟨known, hknown, hsame⟩ := hhas
  have hequal : (known == layout) = true := hsame.elim (fun h => h ▸ hself) id
  rw [Closures.add, hknown]
  simp [bne, hequal]

variable {e : Expr} {env : TypeEnv} {layouts : List ClosureLayout}

theorem closures_twice (h : e.closures env = .ok layouts)
    (hself : ∀ l types layout, e.Holds env l types → l.layout types = .ok layout → (layout == layout)) :
    (seq [e, e]).closures env = .ok layouts := by
  obtain ⟨found, hfound, h⟩ := except_bind_ok.mp h
  have hcollects := e.collect_collects hfound
  -- The second run starts where the first one ends, and stays there.
  obtain ⟨_, hagain, rfl⟩ : ∃ again, e.collect env found = .ok again ∧ again = found := by
    refine (e.collect_joins (R := fun _ again => again = found) (Hierarchy.Widens.refl True _).extend
      (fun l types hl layout hlayout => ?_) rfl).found found hfound
    rintro f _ rfl
    refine ⟨fun _ _ => ?_, f.add_orderly layout⟩
    obtain ⟨_, hlayout', hhas⟩ := hcollects.finds (l, types) hl
    cases Except.ok.inj (hlayout.symm.trans hlayout')
    exact ⟨_, add_of_has hhas (hself l types layout hl hlayout), rfl⟩
  refine except_bind_ok.mpr ⟨_, ?_, h⟩
  rw [collect, collectAll]
  exact except_bind_ok.mpr ⟨_, hfound, except_bind_ok.mpr ⟨_, hagain, rfl⟩⟩

end Expr

/-! ## Definitions under one key -/

namespace Kept

variable {ds ds' : List TypeDefinition}

/-- Definitions under one key are the same. -/
def Unique (ds : List TypeDefinition) : Prop := ∀ d ∈ ds, ∀ d' ∈ ds, d.key = d'.key → d = d'

theorem Unique.find? (h : Unique ds) {key : TypeKey} {d : TypeDefinition} :
    ds.find? (fun d => d.key = key) = some d ↔ d ∈ ds ∧ d.key = key := by
  constructor
  · exact fun hfind => ⟨List.mem_of_find?_eq_some hfind, by simpa using List.find?_some hfind⟩
  · rintro ⟨hd, rfl⟩
    cases hfind : ds.find? fun c => c.key = d.key with
    | none => simpa using List.find?_eq_none.mp hfind d hd
    | some first =>
      have hkey : first.key = d.key := by simpa using List.find?_some hfind
      rw [h first (List.mem_of_find?_eq_some hfind) d hd hkey]

/-- Definitions that can be added, and compare equal only to themselves. -/
theorem unique_of_fits (hfits : Fits (fun _ => none) ds)
    (hcompare : ∀ d ∈ ds, ∀ d' ∈ ds, d.key = d'.key → (d == d') → d = d') : Unique ds := by
  have hfirst (d : TypeDefinition) (hd : d ∈ ds) : ds.find? (fun c => c.key = d.key) = some d := by
    obtain ⟨before, after, rfl⟩ := List.append_of_mem hd
    rw [List.find?_append]
    cases hknown : before.find? fun c => c.key = d.key with
    | none => simp
    | some known =>
      have hkey : known.key = d.key := by simpa using List.find?_some hknown
      have hsame := fits_iff.mp hfits before d after rfl known (by simpa using hknown)
      rw [hcompare known (List.mem_append_left _ (List.mem_of_find?_eq_some hknown)) d hd hkey hsame]
      rfl
  intro d hd d' hd' hkey
  have hd := hfirst d hd
  rw [hkey, hfirst d' hd'] at hd
  exact (Option.some.inj hd).symm

/-- What can be added once can be added as often as one likes. -/
theorem Unique.fits (h : Unique ds) (hself : ∀ d ∈ ds, (d == d)) (hsame : ∀ d, d ∈ ds' ↔ d ∈ ds) :
    Fits (fun _ => none) ds' ∧ addAll (fun _ => none) ds' = addAll (fun _ => none) ds := by
  have h' : Unique ds' := fun d hd d' hd' => h d ((hsame d).mp hd) d' ((hsame d').mp hd')
  refine ⟨fits_iff.mpr fun before d after hsplit known hknown => ?_, funext fun key => ?_⟩
  · rw [Option.none_or] at hknown
    have hd : d ∈ ds' := by simp [hsplit]
    have hmem : known ∈ ds' := by simp [hsplit, List.mem_of_find?_eq_some hknown]
    rw [h' known hmem d hd (by simpa using List.find?_some hknown)]
    exact hself d ((hsame d).mp hd)
  · rw [addAll_eq, addAll_eq]
    refine congrArg _ (Option.ext fun d => ?_)
    rw [h'.find?, h.find?, hsame]

end Kept

/-! ## Modules -/

namespace Module

/-- Each type that a lambda turns into compares equal to itself, and to no other one under its key. -/
def LambdasCompare (m : Module) (catalog : Metadata) : Prop :=
  ∀ table, declareAll ∅ m.types = .ok table → ∀ d ∈ m.types, ∀ d' ∈ m.types, ∀ cs cs',
    d.closures { table, catalog } = .ok cs →
    d'.closures { table, catalog } = .ok cs' → ∀ c ∈ cs, ∀ c' ∈ cs', c.key = c'.key → ((c == c') ↔ c = c')

/-- A static method with the parameters and the body of a method of the module is put between the members of a type,
    where the table has no such method yet. -/
inductive Repeats (m : Module) (table : Table) : Module → Prop
  | intro {before after d first last source extra owner body} :
    m.types = before ++ d :: after → d.members = first ++ last →
      owner ∈ m.types → .method source ∈ owner.members → source.body = .expr body → extra.body = .expr body →
      extra.attributes.isStatic →
      table.get? (.method (d.key.method extra.name (body.params.map (·.type)) false)) = none →
      Repeats m table ⟨before ++ { d with members := first ++ .method extra :: last } :: after⟩

variable {m m' : Module} {catalog : Metadata} {declared : Declared}

/-- One more method in the table. -/
theorem extends_of_method {table table' : Table} {key : MethodKey} {decl : Declaration}
    (hnew : table.get? (.method key) = none)
    (hsame : ∀ k, table'.get? k = (table.insert (.method key) decl).get? k) (catalog : Metadata) :
    Hierarchy.Extends { table, catalog } { table := table', catalog } where
  catalog := rfl
  keeps k decl hget := by
    rw [hsame, Table.get?_insert, if_neg]
    · exact hget
    · rintro rfl
      cases hnew.symm.trans hget
  plain k decl htype := by
    refine .inl ?_
    rw [← htype, Table.type?, Table.type?, hsame, Table.get?_insert, if_neg (by simp)]

section Extra

variable {before after : List TypeDefinition} {d : TypeDefinition} {first last : List Member} {extra : Member}
  (hmembers : d.members = first ++ last)

include hmembers

/-- One more member, one more entry. -/
theorem declareAll_extra {table : Table} {entry : Entry} (h : declareAll ∅ (before ++ d :: after) = .ok table)
    (hentry : d.memberEntry extra = .ok entry) (hnew : table.get? entry.1 = none) : ∃ table',
      declareAll ∅ (before ++ { d with members := first ++ extra :: last } :: after) = .ok table' ∧
      ∀ key, table'.get? key = (table.insert entry.1 entry.2).get? key := by
  obtain ⟨own, hown, htable⟩ := declares_all h
  obtain ⟨_, hown, hflat⟩ := List.perm_comp_forall₂ List.perm_middle.symm hown
  cases hown with | @cons _ _ _ others hd hothers => ?_
  obtain @⟨entries, hentries⟩ := hd
  rw [hmembers] at hentries
  obtain ⟨entries', hentries', hmore⟩ := List.perm_comp_forall₂ (List.perm_middle (a := extra))
    (List.Forall₂.cons (R := fun m entry => d.memberEntry m = .ok entry) hentry hentries)
  obtain ⟨own', hown', hflat'⟩ := List.perm_comp_forall₂ List.perm_middle
    (List.Forall₂.cons (@TypeDefinition.HasEntries.intro { d with members := first ++ extra :: last } _ hentries')
      hothers)
  have hperm : own'.flatten.Perm (own.flatten ++ [entry]) := by
    refine hflat'.flatten.trans ((((hmore.cons _).trans (.swap _ _ _)).append_right _).trans ?_)
    exact (hflat.flatten.cons entry).trans (List.perm_append_singleton _ _).symm
  obtain ⟨table', htable', hsame⟩ := (htable.append (.cons hnew .nil)).perm (fun _ => rfl) hperm
  exact ⟨table', declareAll_of_entries hown' htable', hsame⟩

/-- One more member, and the types that its lambdas turn into. -/
theorem closures_extra {h : Hierarchy} {css : List (List TypeDefinition)} {layouts : List ClosureLayout}
    (hcss : List.Forall₂ (fun d cs => d.closures h = .ok cs) (before ++ d :: after) css)
    (hextra : extra.closures h = .ok layouts) :
    ∃ css', List.Forall₂ (fun d cs => TypeDefinition.closures d h = .ok cs)
        (before ++ { d with members := first ++ extra :: last } :: after) css' ∧
      ∀ c, c ∈ css'.flatten ↔ c ∈ layouts.map (·.definition) ∨ c ∈ css.flatten := by
  obtain ⟨_, hcss, hflat⟩ := List.perm_comp_forall₂ List.perm_middle.symm hcss
  cases hcss with | @cons _ cs _ others hcs hothers => ?_
  obtain ⟨found, hfound, hcs⟩ := except_bind_ok.mp hcs
  cases hcs
  rw [hmembers, List.mapM_append] at hfound
  obtain ⟨found₁, hfirst, hfound⟩ := except_bind_ok.mp hfound
  obtain ⟨found₂, hlast, hfound⟩ := except_bind_ok.mp hfound
  cases hfound
  have hmapM : (first ++ extra :: last).mapM (·.closures h) = .ok (found₁ ++ layouts :: found₂) := by
    rw [List.mapM_append, List.mapM_cons]
    exact except_bind_ok.mpr ⟨found₁, hfirst, except_bind_ok.mpr ⟨_, except_bind_ok.mpr ⟨layouts, hextra,
      except_bind_ok.mpr ⟨found₂, hlast, rfl⟩⟩, rfl⟩⟩
  obtain ⟨css', hcss', hflat'⟩ := List.perm_comp_forall₂ List.perm_middle (List.Forall₂.cons
    (R := fun d cs => TypeDefinition.closures d h = .ok cs) (a := { d with members := first ++ extra :: last })
    (except_bind_ok.mpr ⟨_, hmapM, rfl⟩) hothers)
  refine ⟨css', hcss', fun c => ?_⟩
  rw [hflat'.flatten.mem_iff, ← hflat.flatten.mem_iff]
  simp only [List.flatten_append, List.flatten_cons, List.map_append, List.mem_append, or_assoc]
  exact or_left_comm

end Extra

/-- The same types, however often each of them is met. -/
theorem addAll_same {ds ds' : List TypeDefinition} {closures : DefinitionMap}
    (hadd : ds.foldlM DefinitionMap.add ∅ = .ok closures)
    (hcompare : ∀ c ∈ ds, ∀ c' ∈ ds, c.key = c'.key → ((c == c') ↔ c = c')) (hsame : ∀ c, c ∈ ds' ↔ c ∈ ds) :
    ∃ closures', ds'.foldlM DefinitionMap.add ∅ = .ok closures' ∧ closures'.values = closures.values := by
  have hempty : (∅ : DefinitionMap).get? = fun _ => none := funext fun _ => Std.TreeMap.getElem?_emptyc
  have hfits := DefinitionMap.addAll_iff.mp ⟨closures, hadd⟩
  rw [hempty] at hfits
  have hunique := Kept.unique_of_fits hfits fun c hc c' hc' hkey => (hcompare c hc c' hc' hkey).mp
  obtain ⟨hfits', hkept⟩ := hunique.fits (fun c hc => (hcompare c hc c hc rfl).mpr rfl) hsame
  rw [← hempty] at hfits' hkept
  obtain ⟨closures', hadd'⟩ := DefinitionMap.addAll_iff.mpr hfits'
  refine ⟨closures', hadd', (Std.TreeMap.Equiv.of_forall_constGet?_eq fun key => ?_).values_eq⟩
  exact congrFun ((DefinitionMap.get?_addAll hadd').trans (hkept.trans (DefinitionMap.get?_addAll hadd).symm)) key

theorem declare_repeated (h : m.declare catalog = .ok declared) (hcompare : m.LambdasCompare catalog)
    (hrepeats : m.Repeats declared.table m') : ∃ closures declared', declared.definitions = m.types ++ closures ∧
      m'.declare catalog = .ok declared' ∧ declared'.definitions = m'.types ++ closures := by
  obtain ⟨table, htypes, h⟩ := except_bind_ok.mp h
  obtain ⟨closures, hclosures, h⟩ := except_bind_ok.mp h
  obtain ⟨all, hrest, h⟩ := except_bind_ok.mp h
  cases h
  obtain @⟨before, after, d, first, last, source, extra, owner, body, hsplit, hmembers, howner, hsource, hbody,
    hextra, hstatic, hfree⟩ := hrepeats
  obtain ⟨key, hkey⟩ : ∃ key, key = d.key.method extra.name (body.params.map (·.type)) false := ⟨_, rfl⟩
  have hentry : d.memberEntry (.method extra) = .ok (.method key, .method ⟨extra.attributes, extra.returnType⟩) := by
    simp only [TypeDefinition.memberEntry, TypeDefinition.methodKey, hextra, MethodDefinition.isInstance, hstatic, hkey]
    rfl
  rw [← hkey] at hfree
  obtain ⟨added, hadded, hdeclares⟩ := declares_all hrest
  have hnew : table.get? (.method key) = none := by
    cases hget : table.get? (.method key) with
    | none => rfl
    | some decl => cases hfree.symm.trans (hdeclares.get?.mpr (.inr hget))
  obtain ⟨table', htypes', hsame⟩ := declareAll_extra hmembers (hsplit ▸ htypes) hentry hnew
  have hext := extends_of_method hnew hsame catalog
  -- The lambdas of the new method are those of the old one.
  obtain ⟨css, hcss, hadd⟩ := DefinitionMap.addClosures_iff.mp hclosures
  obtain ⟨cs, hcs, howned⟩ := exists_of_forall₂_left hcss howner
  obtain ⟨found, hfound, howned⟩ := except_bind_ok.mp howned
  cases howned
  obtain ⟨layouts, hlayouts, hmethod⟩ := exists_of_forall₂_left (forall₂_of_mapM hfound) hsource
  have hagain : (Member.method extra).closures { table := table', catalog } = .ok layouts := by
    have hmethod := Member.closures_extend hext hmethod
    obtain ⟨_, _, _, _⟩ := source
    obtain ⟨_, _, _, _⟩ := extra
    cases hbody
    cases hextra
    exact hmethod
  obtain ⟨css', hcss', hmem⟩ := closures_extra hmembers
    (hsplit ▸ hcss.imp fun d cs hcs => TypeDefinition.closures_extend hext hcs) hagain
  obtain ⟨closures', hadd', hvalues⟩ := @addAll_same _ css'.flatten _ hadd
    (fun c hc c' hc' hkey => by
      obtain ⟨cs, hcs, hc⟩ := List.mem_flatten.mp hc
      obtain ⟨cs', hcs', hc'⟩ := List.mem_flatten.mp hc'
      obtain ⟨d, hd, hcs⟩ := exists_of_forall₂_right hcss hcs
      obtain ⟨d', hd', hcs'⟩ := exists_of_forall₂_right hcss hcs'
      exact hcompare table htypes d hd d' hd' cs cs' hcs hcs' c hc c' hc' hkey)
    fun c => (hmem c).trans (or_iff_right_of_imp fun hc => by
      obtain ⟨layout, hlayout, rfl⟩ := List.mem_map.mp hc
      exact List.mem_flatten.mpr ⟨_, hcs, List.mem_map_of_mem (List.mem_flatten.mpr ⟨layouts, hlayouts, hlayout⟩)⟩)
  -- None of the keys of closures is that of the new method.
  obtain ⟨hnodup, hfresh⟩ := hdeclares.distinct
  obtain ⟨all', hdeclares'⟩ : ∃ all', Stackwright.Declares table' added.flatten all' := by
    refine Declares.of_distinct hnodup fun entry hentry => ?_
    rw [hsame, Table.get?_insert, if_neg, hfresh entry hentry]
    obtain ⟨k, decl⟩ := entry
    rintro rfl
    cases hfree.symm.trans (hdeclares.get?.mpr (.inl hentry))
  refine ⟨closures.values, ⟨all', _⟩, rfl, except_bind_ok.mpr ⟨table', htypes', except_bind_ok.mpr ⟨closures',
    DefinitionMap.addClosures_iff.mpr ⟨css', hcss', hadd'⟩, ?_⟩⟩, rfl⟩
  rw [hvalues]
  exact except_bind_ok.mpr ⟨all', declareAll_of_entries hadded hdeclares', rfl⟩

/-- An expression that stands twice in a row has the closures that it has, when each of its lambdas compares equal to
    itself; and a module where a static method repeats the body of another method declares the same closures, when
    each compares equal to itself and to no other one under its key. -/
theorem sharing_lambdas_is_harmless (e : Expr) (env : TypeEnv) (m m' : Module) (catalog : Metadata) :
    (∀ layouts, e.closures env = .ok layouts →
      (∀ l types layout, e.Holds env l types → l.layout types = .ok layout → (layout == layout) = true) →
      (Expr.seq [e, e]).closures env = .ok layouts) ∧
    ∀ declared, m.declare catalog = .ok declared → m.LambdasCompare catalog → m.Repeats declared.table m' →
      ∃ closures declared', declared.definitions = m.types ++ closures ∧ m'.declare catalog = .ok declared' ∧
        declared'.definitions = m'.types ++ closures :=
  ⟨fun _ h hself => Expr.closures_twice h hself, fun _ h hcompare hrepeats => declare_repeated h hcompare hrepeats⟩

/-- A function that returns the number. -/
def returning (v : Float) : Expr := .lambda (.named "shared") [] (.literal (.f64 v))

def nowhere : TypeEnv := { hierarchy := { table := ∅, catalog := ∅ } }

/-- Another method that makes the function. -/
def makeAgain (v : Float) : MethodDefinition where
  name := "makeAgain"
  attributes := { isStatic := true }
  returnType := .delegate [] (.primitive .f64)
  body := .expr { params := [], body := returning v }

def constantsAgain (v : Float) : Module where
  types := [{ constant "A" v with members := (constant "A" v).members ++ [.method (makeAgain v)] }, constant "B" v]

/-- Functions that return one can be made anywhere. -/
theorem ones_are_shared : (Expr.seq [returning 1.0, returning 1.0]).closures nowhere = .ok [constantLayout 1.0] ∧
    ∃ closures declared', (constantsAgain 1.0).declare ∅ = .ok declared' ∧
      declared'.definitions = (constantsAgain 1.0).types ++ closures := by
  have hself : (constantLayout 1.0 == constantLayout 1.0) = true := by decide +kernel
  have hdefinition : ((constantLayout 1.0).definition == (constantLayout 1.0).definition) = true := by decide +kernel
  have hshared := sharing_lambdas_is_harmless (returning 1.0) nowhere (constants 1.0 1.0) (constantsAgain 1.0) ∅
  refine ⟨hshared.1 _ rfl fun l types layout hl hlayout => ?_, ?_⟩
  · rcases Expr.holds_lambda.mp hl with ⟨rfl, rfl⟩ | hbody
    · cases hlayout
      exact hself
    · obtain ⟨_, hpart, -⟩ := (Expr.holds_iff_parts (by simp) (by simp)).mp hbody
      cases hpart
  · have hfree : (match (constants 1.0 1.0).declare ∅ with
        | .ok declared => (declared.table.get? (.method (TypeKey.method ⟨"A"⟩ "makeAgain" [] false))).isNone
        | .error _ => false) = true := by decide +kernel
    cases hdeclare : (constants 1.0 1.0).declare ∅ with
    | error e =>
      rw [hdeclare] at hfree
      cases hfree
    | ok declared =>
      rw [hdeclare] at hfree
      have hcompare : (constants 1.0 1.0).LambdasCompare ∅ := by
        intro table _ d hd d' hd' cs cs' hcs hcs' c hc c' hc' _
        rw [closures_constants 1.0 _ d hd hcs] at hc
        rw [closures_constants 1.0 _ d' hd' hcs'] at hc'
        rw [List.mem_singleton.mp hc, List.mem_singleton.mp hc', hdefinition]
        simp
      have hrepeats : (constants 1.0 1.0).Repeats declared.table (constantsAgain 1.0) :=
        @Repeats.intro _ _ [] _ _ _ [] _ _ _ _ rfl (List.append_nil _).symm (List.mem_cons_self)
          (List.mem_cons_self) rfl rfl rfl
          (Option.isNone_iff_eq_none.mp hfree)
      obtain ⟨closures, declared', -, h⟩ := hshared.2 _ hdeclare hcompare hrepeats
      exact ⟨closures, declared', h⟩

/-- A function whose number is no number can be made once, but not twice. -/
theorem nan_lambda_is_not_shared : ((returning (0.0 / 0.0)).closures nowhere).isOk = true ∧
    ((Expr.seq [returning (0.0 / 0.0), returning (0.0 / 0.0)]).closures nowhere).isOk = false := by
  decide +kernel

end Module

end Stackwright
