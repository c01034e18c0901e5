import Stackwright.Proofs.Builds
import Stackwright.Proofs.Sameness

/-
  Stackwright.Proofs.ClosureAgreement — lambdas are lowered for the closures that are declared.

  Closures are found with the table of a module's own types, and lambdas are lowered with the
  full one; inside a closure the variables are reached through its fields. Both see a lambda with
  the same types for its free variables, so that they agree on its closure.
-/

namespace Stackwright

variable {x : Symbol} {usages : Usages} {scope : Scope} {s t : Supply} {b : Block} {bs : List (Symbol × Expr)}
  {e : Expr}
  {l : Lambda} {layout : ClosureLayout} {env : TypeEnv}
variable {result : TypeEnv} {d : TypeDefinition} {α β γ : Type}

/-! ## Scopes -/

namespace Scope

/-- The types of the variables are those of their storages. -/
def Coherent (scope : Scope) : Prop := scope.types.vars = scope.vars.map fun entry => (entry.1, entry.2.type)

variable {scope inner : Scope}

theorem Coherent.bind (h : scope.Coherent) (x : Symbol) (storage : Storage) : (scope.bind x storage).Coherent :=
  congrArg ((x, storage.type) :: ·) h

/-- The storage of a variable. -/
def find? (scope : Scope) (x : Symbol) : Option Storage := (scope.vars.find? fun entry => entry.1 == x).map (·.2)

theorem find?_eq_of_storage {whole : Expr} {storage : Storage} (hx : scope.storage x whole = .ok storage) :
    scope.find? x = some storage := by
  obtain ⟨y, hfind⟩ := find?_of_storage hx
  rw [find?, hfind]
  rfl

theorem find?_congr {y : Symbol} (h : x == y) : scope.find? x = scope.find? y := by
  unfold find?
  congr 2
  funext entry
  rw [Bool.eq_iff_iff]
  exact ⟨fun he => BEq.trans he h, fun he => BEq.trans he (BEq.symm h)⟩

theorem Coherent.lookup (h : scope.Coherent) {whole : Expr} {storage : Storage}
    (hx : scope.storage x whole = .ok storage) :
    scope.types.lookup x = some storage.type := by
  obtain ⟨y, hfind⟩ := find?_of_storage hx
  rw [TypeEnv.lookup, h, List.find?_map]
  show ((scope.vars.find? fun entry => entry.1 == x).map _).map _ = _
  rw [hfind]
  rfl

end Scope

theorem Enters.types {index : Nat} {params : List Param} {inner : Scope}
    (h : Enters usages index params scope s b inner t)
    (hscope : scope.Coherent) : inner.types = scope.types.bindParams params ∧ inner.Coherent := by
  induction h with
  | nil => exact ⟨rfl, hscope⟩
  | cell _ _ _ ih | plain _ _ _ ih => exact ih (hscope.bind _ _)

theorem enterCaptures_types {table : Table} {receiver : Storage} : ∀ {captures : List Capture} {scope inner : Scope},
    enterCaptures table receiver captures scope = .ok inner → scope.Coherent →
      inner.types = captures.foldl (fun env c => env.bind c.name c.type) scope.types ∧ inner.Coherent
  | [], scope, inner, h, hscope => by
    cases h
    exact ⟨rfl, hscope⟩
  | c :: captures, scope, inner, h, hscope => by
    rw [enterCaptures] at h
    obtain ⟨info, -, h⟩ := except_bind_ok.mp h
    split at h
    · have hrest := enterCaptures_types h (hscope.bind _ _)
      exact hrest
    · cases h

/-- A body is entered with the types that were used to look for its lambdas. -/
theorem Body.enter_types {body : Body} {h : Hierarchy} (he : (body.enter h usages).exec s = (.ok (b, scope), t)) :
    scope.types = body.typeEnv h ∧ scope.Coherent := by
  obtain ⟨outer, hparams, hrest⟩ := of_enter he
  obtain ⟨htypes, hcoherent⟩ := hparams.types rfl
  rcases hrest with ⟨hnone, rfl⟩ | ⟨receiver, params, storage, -, -, hcaptures⟩
  · rw [typeEnv, hnone]
    exact ⟨htypes, hcoherent⟩
  · rw [typeEnv, ← htypes]
    exact enterCaptures_types hcaptures hcoherent

/-! ## Where lambdas are lowered -/

namespace Expr

/-- The lambda `l` is lowered with the expression `e`: it stands in `e`, outside of other lambdas, at a place where
    the variables are stored as `place` says when those around `e` are stored as `scope` says. -/
inductive Lowered (options : BuildOptions) : Expr → Scope → Lambda → Scope → Prop
  | self (l : Lambda) (scope : Scope) : Lowered options l.expr scope l scope
  | part {e part scope l place} : part ∈ parts e → Lowered options part scope l place → Lowered options e scope l place
  | letBody {bs body scope inner l place s vb t} : Lowers options (.bindings body.usages bs scope inner) scope s vb t →
      Lowered options body inner l place → Lowered options (.letIn bs body) scope l place

/-! ## Where lambdas are collected -/

/-- Closures can be collected from the expression. -/
def Collected (e : Expr) (env : TypeEnv) : Prop := ∃ found result, e.collect env found = .ok result

variable {env : TypeEnv}

theorem collected_of_collectAll : ∀ {es : List Expr} {found result : Closures}, collectAll es env found = .ok result →
    ∀ e ∈ es, e.Collected env
  | [], _, _, _ => by simp
  | e :: es, found, result, h => by
    rw [collectAll] at h
    obtain ⟨middle, he, h⟩ := except_bind_ok.mp h
    exact List.forall_mem_cons.mpr ⟨⟨_, _, he⟩, collected_of_collectAll h⟩

theorem collected_of_collectCases : ∀ {cs : List (CaseValues × Expr)} {found result : Closures},
    collectCases cs env found = .ok result → ∀ e ∈ cs.map (·.2), e.Collected env
  | [], _, _, _ => by simp
  | (_, e) :: cs, found, result, h => by
    rw [collectCases] at h
    obtain ⟨middle, he, h⟩ := except_bind_ok.mp h
    exact List.forall_mem_cons.mpr ⟨⟨_, _, he⟩, collected_of_collectCases h⟩

theorem collected_of_collectBindings : ∀ {bs : List (Symbol × Expr)} {inner types : TypeEnv} {found result : Closures},
    collectBindings bs env inner found = .ok (types, result) → ∀ e ∈ bs.map (·.2), e.Collected env
  | [], _, _, _, _, _ => by simp
  | (_, e) :: bs, inner, types, found, result, h => by
    rw [collectBindings] at h
    obtain ⟨middle, he, h⟩ := except_bind_ok.mp h
    obtain ⟨type, -, h⟩ := except_bind_ok.mp h
    exact List.forall_mem_cons.mpr ⟨⟨_, _, he⟩, collected_of_collectBindings h⟩

namespace Collected

theorem part {e part : Expr} (h : e.Collected env) (hpart : part ∈ e.parts) : part.Collected env := by
  obtain ⟨found, result, h⟩ := h
  cases e with
  | literal v | var x | getStatic f | lambda x ps body => cases hpart
  | assign x e | unary op e | getField e f | setStatic f e =>
    rw [collect] at h
    rw [List.mem_singleton.mp hpart]
    exact ⟨_, _, h⟩
  | seq es | and es | or es | new ctor es | callStatic m es =>
    rw [collect] at h
    exact collected_of_collectAll h part hpart
  | ite c t f =>
    rw [collect] at h
    obtain ⟨found₁, hc, h⟩ := except_bind_ok.mp h
    obtain ⟨found₂, ht, h⟩ := except_bind_ok.mp h
    have hall : ∀ e ∈ [c, t, f], e.Collected env := by simpa using ⟨⟨_, _, hc⟩, ⟨_, _, ht⟩, _, _, h⟩
    exact hall part hpart
  | switch value cases fallback =>
    rw [collect] at h
    obtain ⟨found₁, hv, h⟩ := except_bind_ok.mp h
    obtain ⟨found₂, hc, h⟩ := except_bind_ok.mp h
    rcases List.mem_append.mp hpart with hpart | hpart
    · rcases List.mem_cons.mp hpart with rfl | hpart
      · exact ⟨_, _, hv⟩
      · exact collected_of_collectCases hc part hpart
    · rw [List.mem_singleton.mp hpart]
      exact ⟨_, _, h⟩
  | letIn bs body =>
    rw [collect] at h
    obtain ⟨⟨inner, found₁⟩, hbs, h⟩ := except_bind_ok.mp h
    exact collected_of_collectBindings hbs part hpart
  | invoke f es | call f m es =>
    rw [collect] at h
    obtain ⟨found₁, hf, h⟩ := except_bind_ok.mp h
    rcases List.mem_cons.mp hpart with rfl | hpart
    · exact ⟨_, _, hf⟩
    · exact collected_of_collectAll h part hpart
  | binary op a b | setField a f b =>
    rw [collect] at h
    obtain ⟨found₁, ha, h⟩ := except_bind_ok.mp h
    have hall : ∀ e ∈ [a, b], e.Collected env := by simpa using ⟨⟨_, _, ha⟩, _, _, h⟩
    exact hall part hpart

theorem letBody {body : Expr} (h : (letIn bs body).Collected env) :
    ∃ inner, Binds env bs env inner ∧ body.Collected inner := by
  obtain ⟨found, result, h⟩ := h
  rw [collect] at h
  obtain ⟨⟨inner, found₁⟩, hbs, h⟩ := except_bind_ok.mp h
  exact ⟨inner, (collectBindings_collects bs hbs).1, _, _, h⟩

theorem lambdaBody {ps : List Param} {body : Expr} (h : (lambda x ps body).Collected env) :
    body.Collected (env.bindParams ps) := by
  obtain ⟨found, result, h⟩ := h
  rw [collect] at h
  obtain ⟨layout, -, h⟩ := except_bind_ok.mp h
  obtain ⟨found₁, -, h⟩ := except_bind_ok.mp h
  exact ⟨_, _, h⟩

/-- Closures were collected from every lambda, with the types of the variables at its place. -/
theorem held {types : TypeEnv} (h : e.Collected env) (hl : e.Holds env l types) : l.expr.Collected types := by
  induction hl with
  | self => exact h
  | part hpart _ ih => exact ih (h.part hpart)
  | letBody hbinds _ ih =>
    obtain ⟨inner, hbinds', hbody⟩ := h.letBody
    rw [hbinds.unique hbinds'] at ih
    exact ih hbody
  | lambdaBody _ ih => exact ih h.lambdaBody

end Collected

/-! ## The two meet -/

variable {options : BuildOptions}

/-- Bindings that are lowered get the types that they were collected with. -/
theorem bindings_agree (hextends : env.hierarchy.Extends scope.types.hierarchy)
    (hvars : ∀ x, (∃ e ∈ bs.map (·.2), e.Uses x) → scope.types.lookup x = env.lookup x) {types : TypeEnv}
    (hbinds : Binds env bs types result) {inner outcome : Scope}
    (hl : Lowers options (.bindings usages bs inner outcome) scope s b t) (hinner : inner.Coherent) :
    outcome.Coherent ∧ outcome.types.hierarchy = inner.types.hierarchy ∧ result.hierarchy = types.hierarchy ∧
      ∀ x, ((bs.map (·.1)).contains x = false → inner.types.lookup x = types.lookup x) →
        outcome.types.lookup x = result.lookup x := by
  induction hbinds generalizing inner s b with
  | nil =>
    cases hl
    exact ⟨hinner, rfl, rfl, fun x hx => hx rfl⟩
  | @cons x value bs type types result hvalue _ ih =>
    cases hl with
    | @bindingsCons _ _ _ _ _ _ _ _ type' v s₁ b s₂ boxed hlowered _ _ hrest =>
      obtain ⟨hfirst, hvars⟩ := agree_cons hvars
      have hsame : type' = type := by
        rw [typeOf_retype hextends hfirst hvalue] at hlowered
        cases hlowered
        rfl
      subst hsame
      obtain ⟨hcoherent, houter, hresult, hagree⟩ := ih hvars hrest (hinner.bind _ _)
      refine ⟨hcoherent, houter, hresult, fun y hy => hagree y fun hfree => ?_⟩
      rw [Scope.bind, TypeEnv.lookup_bind, TypeEnv.lookup_bind]
      split
      · rfl
      · rename_i hxy
        refine hy ?_
        rw [List.map_cons, List.contains_cons, hfree, BEq.comm]
        simpa using hxy

/-- A lambda that is lowered was collected, with the same types for the variables it uses. -/
theorem Lowered.held {place : Scope} (h : e.Lowered options scope l place) (hscope : scope.Coherent)
    (hcollected : e.Collected env) (hextends : env.hierarchy.Extends scope.types.hierarchy)
    (hvars : ∀ x, e.Uses x → scope.types.lookup x = env.lookup x) :
    ∃ types, e.Holds env l types ∧ place.Coherent ∧ types.hierarchy.Extends place.types.hierarchy ∧
      ∀ x, l.expr.Uses x → place.types.lookup x = types.lookup x := by
  induction h generalizing env with
  | self l scope => exact ⟨env, .self l env, hscope, hextends, hvars⟩
  | part hpart _ ih =>
    obtain ⟨types, hholds, hrest⟩ := ih hscope (hcollected.part hpart) hextends (agree_part hvars hpart)
    exact ⟨types, .part hpart hholds, hrest⟩
  | letBody hbindings _ ih =>
    obtain ⟨inner, hbinds, hbody⟩ := hcollected.letBody
    obtain ⟨hcoherent, houter, hinner, hagree⟩ :=
      bindings_agree hextends (agree_parts hvars (List.Subset.refl _)) hbinds hbindings hscope
    obtain ⟨types, hholds, hrest⟩ := ih hcoherent hbody (by rwa [houter, hinner]) fun x hx =>
      hagree x fun hfree => hvars x (uses_letIn.mpr (.inr ⟨hfree, hx⟩))
    exact ⟨types, .letBody hbinds hholds, hrest⟩

end Expr

/-! ## Layouts -/

/-- What a layout takes from its lambda. -/
structure Lambda.HasLayout (l : Lambda) (types : TypeEnv) (layout : ClosureLayout) : Prop where
  key : layout.key = closureKey l.closure
  params : layout.params = l.params
  body : layout.body = l.body
  type : l.expr.typeOf types = .ok layout.delegateType
  captures : List.Forall₂ (fun x c => c.1 = x ∧ types.lookup x = some c.2) l.expr.usages.keys layout.captures

theorem forall₂_of_captureTypes {whole : Expr} {env : TypeEnv} :
    ∀ {xs : List Symbol} {captures : List (Symbol × TypeRef)},
    ClosureLayout.captureTypes whole env xs = .ok captures →
      List.Forall₂ (fun x c => c.1 = x ∧ env.lookup x = some c.2) xs captures
  | [], captures, h => by
    cases h
    exact .nil
  | x :: xs, captures, h => by
    rw [ClosureLayout.captureTypes] at h
    split at h
    · cases h
    rename_i type hx
    obtain ⟨rest, hrest, h⟩ := except_bind_ok.mp h
    cases h
    exact .cons ⟨rfl, hx⟩ (forall₂_of_captureTypes hrest)

theorem Lambda.of_layout {types : TypeEnv} (h : l.layout types = .ok layout) : l.HasLayout types layout := by
  obtain ⟨captures, hcaptures, h⟩ := except_bind_ok.mp h
  obtain ⟨type, htype, h⟩ := except_bind_ok.mp h
  cases h
  obtain ⟨ret, -, rfl⟩ := Expr.typeOf_lambda htype
  exact ⟨rfl, rfl, rfl, htype, forall₂_of_captureTypes hcaptures⟩

instance : Std.LawfulBEqCmp Symbol.order := ⟨Symbol.beq_iff.symm⟩

theorem Expr.uses_of_mem_keys (hx : x ∈ e.usages.keys) : e.Uses x :=
  Std.TreeMap.contains_iff_mem.mpr (Std.TreeMap.mem_of_mem_keys hx)

theorem Expr.Uses.mem_keys (hx : e.Uses x) : ∃ y ∈ e.usages.keys, (x == y) := by
  have hkeys : e.usages.keys.contains x := by
    rw [Std.TreeMap.contains_keys]
    exact hx
  exact List.contains_iff_exists_mem_beq.mp hkeys

/-- A layout depends on the types of the variables that the lambda uses. -/
theorem Lambda.HasLayout.retype {types place : TypeEnv} (h : l.HasLayout types layout)
    (hextends : types.hierarchy.Extends place.hierarchy)
    (hvars : ∀ x, l.expr.Uses x → place.lookup x = types.lookup x) :
    l.HasLayout place layout where
  key := h.key
  params := h.params
  body := h.body
  type := Expr.typeOf_retype hextends hvars h.type
  captures := by
    have hall := (List.forall₂_and_left _ _).mpr ⟨fun x hx => Expr.uses_of_mem_keys hx, h.captures⟩
    refine hall.imp fun x c hc => ⟨hc.2.1, ?_⟩
    rw [hvars x hc.1, hc.2.2]

/-- The cells that are pushed for some variables, each from the storage of its variable. -/
theorem forall₂_of_captureCells {scope : Scope} {whole : Expr} : ∀ {xs : List Symbol} {cells : List Instr}
    {types : List TypeRef}, captureCells scope whole xs = .ok (cells, types) →
      ∃ storages : List Storage, List.Forall₂ (fun x storage => scope.storage x whole = .ok storage ∧ storage.isBoxed)
        xs storages ∧ cells = storages.flatMap Storage.loadSlot ∧ types = storages.map fun storage => .cell storage.type
  | [], cells, types, h => by
    cases h
    exact ⟨[], .nil, rfl, rfl⟩
  | x :: xs, cells, types, h => by
    rw [captureCells] at h
    obtain ⟨storage, hstorage, h⟩ := except_bind_ok.mp h
    obtain ⟨code, hcode, h⟩ := except_bind_ok.mp h
    obtain ⟨⟨rest, restTypes⟩, hrest, h⟩ := except_bind_ok.mp h
    cases h
    obtain ⟨storages, hstorages, rfl, rfl⟩ := forall₂_of_captureCells hrest
    unfold Storage.fetchBox at hcode
    split at hcode
    · rename_i hboxed
      cases hcode
      refine ⟨storage :: storages, .cons ⟨hstorage, hboxed⟩ hstorages, rfl, ?_⟩
      simp [Storage.slotType, hboxed]
    · cases hcode

/-! ## Inside a closure -/

namespace TypeEnv

variable {env : TypeEnv} {x y : Symbol}

theorem lookup_congr (h : x == y) : env.lookup x = env.lookup y := by
  unfold lookup
  congr 2
  funext entry
  rw [Bool.eq_iff_iff]
  exact ⟨fun he => BEq.trans he h, fun he => BEq.trans he (BEq.symm h)⟩

/-- Binding one name after another leads to a type that all who bind the name agree on. -/
theorem lookup_foldl_bind {α : Type} {name : α → Symbol} {type : α → TypeRef} {want : Option TypeRef} :
    ∀ {as : List α} {env : TypeEnv}, (∀ a ∈ as, (name a == x) → some (type a) = want) →
      ((∀ a ∈ as, (name a == x) = false) → env.lookup x = want) →
      (as.foldl (fun env a => env.bind (name a) (type a)) env).lookup x = want
  | [], env, _, henv => henv (by simp)
  | a :: as, env, has, henv => by
    obtain ⟨ha, has⟩ := List.forall_mem_cons.mp has
    rw [List.foldl_cons]
    refine lookup_foldl_bind has fun hnone => ?_
    rw [lookup_bind]
    split
    · rename_i hx
      exact ha hx
    · rename_i hx
      exact henv (List.forall_mem_cons.mpr ⟨by simpa using hx, hnone⟩)

end TypeEnv

/-- Inside a closure the free variables of the body have the types that they have in the lambda. -/
theorem Lambda.HasLayout.lookup_invoke {types : TypeEnv} (h : l.HasLayout types layout) (hierarchy : Hierarchy)
    (hx : l.body.Uses x) : (layout.invokeBody.typeEnv hierarchy).lookup x = (types.bindParams l.params).lookup x := by
  have hcapture : ∀ c ∈ layout.captures, l.expr.Uses c.1 ∧ types.lookup c.1 = some c.2 := by
    intro c hc
    obtain ⟨y, hy, rfl, hlookup⟩ := exists_of_forall₂_right h.captures hc
    exact ⟨Expr.uses_of_mem_keys hy, hlookup⟩
  unfold Body.typeEnv ClosureLayout.invokeBody
  rw [List.foldl_map]
  refine TypeEnv.lookup_foldl_bind (fun c hc hcx => ?_) fun hnone => ?_
  · -- a captured variable is no parameter
    obtain ⟨huses, hlookup⟩ := hcapture c hc
    have hparams := (Expr.uses_lambda.mp huses).1
    refine Eq.symm (TypeEnv.lookup_foldl_bind (fun p hp hpx => ?_) fun _ => ?_)
    · have hmem : (l.params.map (·.name)).contains c.1 :=
        List.contains_iff_exists_mem_beq.mpr ⟨p.name, List.mem_map_of_mem hp, BEq.trans hcx (BEq.symm hpx)⟩
      rw [hmem] at hparams
      cases hparams
    · rw [← TypeEnv.lookup_congr hcx, hlookup]
  · -- what is not captured is a parameter
    rw [h.params]
    refine TypeEnv.lookup_bindParams l.params fun hfree => ?_
    obtain ⟨y, hy, hxy⟩ := Expr.Uses.mem_keys (e := l.expr) (Expr.uses_lambda.mpr ⟨hfree, hx⟩)
    obtain ⟨c, hc, rfl, -⟩ := exists_of_forall₂_left h.captures hy
    have hother : (c.1 == x) = false := hnone c hc
    rw [BEq.symm hxy] at hother
    cases hother

/-! ## Declared modules -/

namespace TypeDefinition.HasEntries

variable {d : TypeDefinition} {entries : List Entry}

theorem of_type (h : d.HasEntries entries) {key : TypeKey} {decl : Declaration} (hmem : (.type key, decl) ∈ entries) :
    decl = .type ⟨d.attributes, d.base, d.interfaces⟩ := by
  obtain ⟨hmembers⟩ := h
  rcases List.mem_cons.mp hmem with heq | hmem
  · cases heq
    rfl
  obtain ⟨m, -, hm⟩ := exists_of_forall₂_right hmembers hmem
  cases m with
  | field | property => cases hm
  | method | constructor =>
    obtain ⟨_, -, hm⟩ := except_bind_ok.mp hm
    cases hm

theorem of_member (h : d.HasEntries entries) {m : Member} (hm : m ∈ d.members) :
    ∃ entry ∈ entries, d.memberEntry m = .ok entry := by
  obtain ⟨hmembers⟩ := h
  obtain ⟨entry, hentry, hm⟩ := exists_of_forall₂_left hmembers hm
  exact ⟨entry, List.mem_cons_of_mem _ hentry, hm⟩

end TypeDefinition.HasEntries

theorem ClosureLayout.methodKey_invokeMethod (l : ClosureLayout) :
    l.definition.methodKey l.invokeMethod = .ok l.invoke := by
  have hreceiver : l.invokeBody.paramsAfterReceiver l.key ("method " ++ invokeName) = .ok (l.params.map (·.type)) :=
    if_pos (beq_self_eq_true _)
  exact except_bind_ok.mpr ⟨_, hreceiver, rfl⟩

namespace Module.Declares

variable {m : Module} {catalog : Metadata} {table : Table} {closures : DefinitionMap} {declared : Declared}
  (h : m.Declares catalog table closures declared)

include h

/-- Declaring the closures adds plain classes only. -/
theorem hierarchyExtends : Hierarchy.Extends { table, catalog } { table := declared.table, catalog } := by
  obtain ⟨own, added, -, hadded, -, hrest⟩ := h.entries
  refine ⟨rfl, fun key decl hget => hrest.get?.mpr (.inr hget), fun key decl hdecl => ?_⟩
  rcases hrest.get?.mp (Table.get?_of_type? hdecl) with hmem | hold
  · right
    obtain ⟨entries, hentries, hmem⟩ := List.mem_flatten.mp hmem
    obtain ⟨d, hd, hentries⟩ := exists_of_forall₂_right hadded hentries
    obtain ⟨l, types, layout, -, -, rfl⟩ := h.only hd
    cases hentries.of_type hmem
    exact ⟨rfl, rfl⟩
  · left
    show Table.type? table key = some decl
    unfold Table.type?
    rw [hold]

/-- What a member enters is in the table. -/
theorem get?_of_member (hd : d ∈ declared.definitions) {member : Member} (hmember : member ∈ d.members) {entry : Entry}
    (hentry : d.memberEntry member = .ok entry) : declared.table.get? entry.1 = some entry.2 := by
  obtain ⟨all, hentries⟩ := h.hasEntries
  obtain ⟨entries, hmem, hd⟩ := exists_of_forall₂_left hentries hd
  obtain ⟨entry', hin, hentry'⟩ := hd.of_member hmember
  rw [hentry] at hentry'
  cases hentry'
  exact (h.entered hentries).get?.mpr (.inl (List.mem_flatten.mpr ⟨entries, hmem, hin⟩))

/-- The table has the constructor and the method of every closure that is defined. -/
theorem closure_declared (hlayout : layout.definition ∈ declared.definitions) :
    declared.table.constructor? layout.constructor = some ⟨layout.maker.attributes⟩ ∧
      declared.table.method? layout.invoke = some ⟨layout.invokeMethod.attributes, layout.returnType⟩ := by
  have hmaker : Member.constructor layout.maker ∈ layout.definition.members := by simp [layout.definition_members]
  have hinvoke : Member.method layout.invokeMethod ∈ layout.definition.members := by simp [layout.definition_members]
  constructor
  · have hget : declared.table.get? (.constructor layout.constructor) = some (.constructor ⟨layout.maker.attributes⟩) :=
      h.get?_of_member hlayout hmaker rfl
    unfold Table.constructor?
    rw [hget]
  · have hget : declared.table.get? (.method layout.invoke) =
        some (.method ⟨layout.invokeMethod.attributes, layout.returnType⟩) :=
      h.get?_of_member hlayout hinvoke (except_bind_ok.mpr ⟨_, layout.methodKey_invokeMethod, rfl⟩)
    unfold Table.method?
    rw [hget]

/-- Every lambda has a layout, and a closure with an agreeing layout is defined. -/
theorem closure_found {types : TypeEnv} (hl : m.Holds { table, catalog } l types) :
    ∃ layout closure : ClosureLayout, l.layout types = .ok layout ∧ closure.Alike layout ∧
      closure.definition ∈ closures.values := by
  obtain ⟨layout, known, d, hlayout, -, hknown, hd, -, hdefinition⟩ := h.found hl
  obtain ⟨-, -, closure, -, -, rfl⟩ := h.only hd
  have hfirst : closure.Alike known := by
    rcases hdefinition with heq | hsame
    · rw [ClosureLayout.definition_injective heq]
      exact .refl known
    · exact ClosureLayout.alike_of_definition hsame
  have hsecond : known.Alike layout := by
    rcases hknown with rfl | hsame
    · exact .refl known
    · exact ClosureLayout.alike_of_beq hsame
  exact ⟨layout, closure, hlayout, hfirst.trans hsecond, hd⟩

/-- No two closures have the same key. -/
theorem closure_unique {c : TypeDefinition} (hc : c ∈ closures.values) (hd : d ∈ closures.values)
    (hkey : c.key = d.key) :
    c = d := by
  have hfind {c : TypeDefinition} (hc : c ∈ closures.values) : closures.get? c.key = some c := by
    obtain ⟨key, hget⟩ := Gathered.mem_values.mp hc
    rcases h.gathers.only _ _ hget with hnone | ⟨rfl, -⟩
    · cases (Std.TreeMap.getElem?_emptyc : (∅ : DefinitionMap)[_]? = none).symm.trans hnone
    · exact hget
  have hget := hfind hc
  rw [hkey, hfind hd] at hget
  exact (Option.some.inj hget).symm

end Module.Declares

/-! ## The expressions of a module -/

theorem Body.typeEnv_eq (b : Body) (h h₀ : Hierarchy) : b.typeEnv h = { b.typeEnv h₀ with hierarchy := h } := by
  have hcaptures : ∀ (cs : List Capture) (env : TypeEnv),
      cs.foldl (fun env c => env.bind c.name c.type) { env with hierarchy := h } =
        { cs.foldl (fun env c => env.bind c.name c.type) env with hierarchy := h } := by
    intro cs
    induction cs with
    | nil => exact fun _ => rfl
    | cons c cs ih => exact fun env => ih (env.bind c.name c.type)
  have hparams : ∀ (ps : List Param) (env : TypeEnv),
      TypeEnv.bindParams { env with hierarchy := h } ps = { env.bindParams ps with hierarchy := h } := by
    intro ps
    induction ps with
    | nil => exact fun _ => rfl
    | cons p ps ih => exact fun env => ih (env.bind p.name p.type)
  unfold typeEnv
  rw [← hcaptures, ← hparams]

theorem Body.typeEnv_hierarchy (b : Body) (h : Hierarchy) : (b.typeEnv h).hierarchy = h :=
  congrArg TypeEnv.hierarchy (b.typeEnv_eq h h)

/-- An expression of a member, with the scope in which it is lowered. -/
inductive Member.Entered (h : Hierarchy) : Member → Expr → Scope → Prop
  | method {m body s b scope t} : m.body = .expr body → (body.enter h body.body.usages).exec s = (.ok (b, scope), t) →
      Entered h (.method m) body.body scope
  | constructor {c body base usages s b e scope t} : c.body = .expr body base →
      (body.enter h usages).exec s = (.ok (b, scope), t) → e ∈ base.toList.flatMap (·.args) ++ [body.body] →
      Entered h (.constructor c) e scope

theorem Member.Entered.root {h : Hierarchy} {m : Member} (he : m.Entered h e scope) :
    scope.Coherent ∧ ∀ h₀, ∃ env, (e, env) ∈ m.roots h₀ ∧ scope.types = { env with hierarchy := h } := by
  cases he with
  | @method m body s b scope t hbody henter =>
    obtain ⟨htypes, hcoherent⟩ := Body.enter_types henter
    obtain ⟨name, attributes, returnType, _⟩ := m
    subst hbody
    exact ⟨hcoherent, fun h₀ => ⟨body.typeEnv h₀, List.mem_singleton_self _, htypes.trans (body.typeEnv_eq h h₀)⟩⟩
  | @constructor c body base usages s b e scope t hbody henter he =>
    obtain ⟨htypes, hcoherent⟩ := Body.enter_types henter
    obtain ⟨attributes, _⟩ := c
    subst hbody
    exact ⟨hcoherent, fun h₀ => ⟨body.typeEnv h₀, List.mem_map_of_mem he, htypes.trans (body.typeEnv_eq h h₀)⟩⟩

theorem Member.roots_hierarchy {h : Hierarchy} {m : Member} : ∀ root ∈ m.roots h, root.2.hierarchy = h := by
  intro root hroot
  unfold roots at hroot
  split at hroot
  · rw [List.mem_singleton.mp hroot]
    exact Body.typeEnv_hierarchy _ h
  · obtain ⟨e, -, rfl⟩ := List.mem_map.mp hroot
    exact Body.typeEnv_hierarchy _ h
  · cases hroot

theorem Binds.hierarchy {inner : TypeEnv} (h : Binds env bs inner result) : result.hierarchy = inner.hierarchy := by
  induction h with
  | nil => rfl
  | cons _ _ ih => exact ih

theorem Expr.Holds.hierarchy {types : TypeEnv} (h : e.Holds env l types) : types.hierarchy = env.hierarchy := by
  induction h with
  | self => rfl
  | part _ _ ih => exact ih
  | letBody hbinds _ ih => exact ih.trans hbinds.hierarchy
  | lambdaBody _ ih => exact ih.trans (TypeEnv.bindParams_hierarchy _)

/-- A lambda inside a lambda inside an expression is inside the expression. -/
theorem Expr.Holds.trans {types types' : TypeEnv} {l' : Lambda} (h : e.Holds env l types)
    (h' : l.expr.Holds types l' types') :
    e.Holds env l' types' := by
  induction h with
  | self => exact h'
  | part hpart _ ih => exact .part hpart (ih h')
  | letBody hbinds _ ih => exact .letBody hbinds (ih h')
  | lambdaBody _ ih => exact .lambdaBody (ih h')

namespace Module.Declares

variable {m : Module} {catalog : Metadata} {table : Table} {closures : DefinitionMap} {declared : Declared}
  (h : m.Declares catalog table closures declared)

include h

/-- The expressions of the module's own types were searched for lambdas. -/
theorem collected_own (hd : d ∈ m.types) {member : Member} (hmember : member ∈ d.members) :
    ∀ root ∈ member.roots { table, catalog }, root.1.Collected root.2 := by
  intro root hroot
  obtain ⟨ds, hds⟩ := h.collected d hd
  obtain ⟨layouts, hlayouts, -⟩ := except_bind_ok.mp hds
  obtain ⟨found, -, hfound⟩ := exists_of_forall₂_left (forall₂_of_mapM hlayouts) hmember
  obtain ⟨parts, hparts, -⟩ := Member.closures_spec hfound
  obtain ⟨part, -, hpart⟩ := exists_of_forall₂_left hparts hroot
  obtain ⟨result, hresult, -⟩ := except_bind_ok.mp hpart
  exact ⟨_, _, hresult⟩

/-- Every expression of a definition, those of closures included, was searched for lambdas, with the same types for the
    variables it uses. -/
theorem collected_root (hd : d ∈ declared.definitions) {member : Member} (hmember : member ∈ d.members)
    (he : member.Entered { table := declared.table, catalog } e scope) :
    ∃ env, e.Collected env ∧ env.hierarchy.Extends scope.types.hierarchy ∧
      (∀ x, e.Uses x → scope.types.lookup x = env.lookup x) ∧
      ∀ l types, e.Holds env l types → m.Holds { table, catalog } l types := by
  obtain ⟨-, hroot⟩ := he.root
  rw [h.definitions] at hd
  rcases List.mem_append.mp hd with hd | hd
  · obtain ⟨env, hroot, htypes⟩ := hroot { table, catalog }
    refine ⟨env, h.collected_own hd hmember _ hroot, ?_, fun x _ => ?_, fun l types hl =>
      ⟨d, hd, member, hmember, _, hroot, hl⟩⟩
    · rw [Member.roots_hierarchy _ hroot, htypes]
      exact h.hierarchyExtends
    · rw [htypes]
      rfl
  · obtain ⟨l, types, layout, ⟨d, hown, owner, howner, root, hin, hl⟩, hlayout, rfl⟩ := h.only hd
    have hhas := Lambda.of_layout hlayout
    have hlambda : l.expr.Collected types := (h.collected_own hown howner root hin).held hl
    have hhierarchy : types.hierarchy = { table, catalog } := hl.hierarchy.trans (Member.roots_hierarchy _ hin)
    have hinside {l' : Lambda} {types' : TypeEnv} (hl' : l.body.Holds (types.bindParams l.params) l' types') :
        m.Holds { table, catalog } l' types' :=
      ⟨d, hown, owner, howner, root, hin, hl.trans (.lambdaBody hl')⟩
    simp only [layout.definition_members, List.mem_append, List.mem_map, List.mem_singleton] at hmember
    rcases hmember with (⟨f, -, rfl⟩ | rfl) | rfl
    · cases he
    · cases he with
      | constructor hbody => cases hbody
    · cases he with
      | method hbody henter =>
        cases hbody
        obtain ⟨htypes, -⟩ := Body.enter_types henter
        have hbody : layout.invokeBody.body = l.body := hhas.body
        rw [hbody, htypes]
        refine ⟨types.bindParams l.params, hlambda.lambdaBody, ?_, fun x hx => hhas.lookup_invoke _ hx,
          fun _ _ => hinside⟩
        rw [TypeEnv.bindParams_hierarchy, hhierarchy, Body.typeEnv_hierarchy]
        exact h.hierarchyExtends

end Module.Declares

/-! ## Lambdas and their closures -/

/-- The code that makes a closure, in a scope where the variables are stored as `place` says, and the definition of the
    closure in a module that was declared. -/
structure ClosureLayout.MadeBy (layout : ClosureLayout) (declared : Declared) (place : Scope) (cells : List Instr)
    (ctor : ConstructorRef) (delegate : TypeRef) (method : MethodRef) : Prop where
  defined : layout.definition ∈ declared.definitions
  constructor : ctor = .deferred layout.constructor
  constructorDeclared : (declared.table.constructor? layout.constructor).isSome = true
  invoke : method = .deferred layout.invoke
  /-- The delegate's result is that of the method in the table. -/
  result : ∃ decl, declared.table.method? layout.invoke = some decl ∧
    delegate = .delegate (layout.params.map (·.type)) decl.returnType
  /-- The cells are those of the captured variables, in the order of the fields that take them. -/
  cells : ∃ storages : List Storage, cells = storages.flatMap Storage.loadSlot ∧
    List.Forall₂ (fun c storage => place.find? c.1 = some storage ∧ storage.isBoxed ∧ storage.type = c.2)
      layout.captures storages

/-- A lambda that is lowered where its variables have the types it was collected with makes the closure that is
    defined. -/
theorem Module.Declares.madeBy {m : Module} {catalog : Metadata} {table : Table} {closures : DefinitionMap}
    {declared : Declared} (h : m.Declares catalog table closures declared) {types : TypeEnv} {place : Scope}
      (hl : m.Holds { table, catalog } l types)
    (hplace : place.Coherent) (hextends : types.hierarchy.Extends place.types.hierarchy)
    (hvars : ∀ x, l.expr.Uses x → place.types.lookup x = types.lookup x) {delegate : TypeRef} {cells : List Instr}
    {cellTypes : List TypeRef} (htype : l.expr.typeOf place.types = .ok delegate)
    (hcells : captureCells place l.expr l.expr.usages.keys = .ok (cells, cellTypes)) :
    ∃ layout closure : ClosureLayout, l.HasLayout place.types layout ∧ closure.Alike layout ∧
      closure.MadeBy declared place cells (.deferred ((closureKey l.closure).constructor cellTypes)) delegate
        (.deferred ((closureKey l.closure).method invokeName (l.params.map (·.type)) true)) := by
  obtain ⟨layout, closure, hlayout, halike, hdefined⟩ := h.closure_found hl
  have hhas := (Lambda.of_layout hlayout).retype hextends hvars
  have hdefined : closure.definition ∈ declared.definitions := by
    rw [h.definitions]
    exact List.mem_append_right _ hdefined
  obtain ⟨hconstructor, hmethod⟩ := h.closure_declared hdefined
  obtain ⟨storages, hstorages, rfl, rfl⟩ := forall₂_of_captureCells hcells
  have hkey : closure.key = closureKey l.closure := halike.key.trans hhas.key
  have hparams : closure.params.map (·.type) = l.params.map (·.type) := by
    rw [← hhas.params]
    exact map_eq_of_forall₂ halike.params fun _ _ hp => hp.2
  have hfields : List.Forall₂ (fun c storage => place.find? c.1 = some storage ∧ storage.isBoxed ∧ storage.type = c.2)
      closure.captures storages := by
    refine (forall₂_comp halike.captures (forall₂_comp hhas.captures.flip hstorages)).imp fun c storage hc => ?_
    obtain ⟨d, -, ⟨hname, hsame⟩, x, -, ⟨rfl, hlookup⟩, hstorage, hboxed⟩ := hc
    have hfind := Scope.find?_eq_of_storage hstorage
    rw [Scope.find?_congr hname]
    have htype := hplace.lookup hstorage
    rw [hlookup] at htype
    exact ⟨hfind, hboxed, (Option.some.inj htype).symm.trans hsame.symm⟩
  have hcellTypes : closure.cellTypes = storages.map fun storage => .cell storage.type :=
    map_eq_of_forall₂ hfields fun c storage hc => by rw [hc.2.2]
  have hdelegate : delegate = closure.delegateType := by
    rw [Except.ok.inj (htype.symm.trans hhas.type)]
    simp only [ClosureLayout.delegateType, hparams, hhas.params, halike.returnType]
  refine ⟨layout, closure, hhas, halike, hdefined, ?_, ?_, ?_, ⟨_, hmethod, hdelegate⟩, storages, rfl, hfields⟩
  · rw [ClosureLayout.constructor, hkey, hcellTypes]
  · rw [hconstructor]
    rfl
  · rw [ClosureLayout.invoke, hkey, hparams]

end Stackwright
