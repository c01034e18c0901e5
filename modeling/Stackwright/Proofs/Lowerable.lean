import Stackwright.Proofs.Boxing
import Stackwright.Proofs.Dispatch

/-
  Stackwright.Proofs.Lowerable — typing decides whether a body can be lowered.

  In a scope that gives each variable the type of its storage and keeps captured variables in
  cells, lowering a typed expression can stop at one thing only: a switch that code is made for
  and whose table cannot be laid out.

  - `checkDispatch_ok_iff`: which tables can be laid out.
  - `admits_hosts`, `Lowers.dispatches`: what can go wrong, and what is known when nothing does.
-/

namespace Stackwright

variable {env : TypeEnv}
variable {claims : List CaseValues} {options : BuildOptions} {x : Symbol} {type : TypeRef} {scope : Scope}
variable {bs : List (Symbol × Expr)} {s t : Supply} {b : Block}

/-! ## Tables -/

/-- The cases of a switch do not overlap, and fit into a table of the permitted size. -/
structure Dispatchable (options : BuildOptions) (claims : List CaseValues) : Prop where
  disjoint : claims.Pairwise fun first second => ∀ v ∈ second, v ∉ first
  bounded : ∀ values ∈ claims, ∀ v ∈ values, v.toNat + 1 ≤ options.maxSwitchCases

/-- No value is claimed twice when the cases overlap neither with earlier ones nor with each other. -/
theorem claimedTwice?_eq_none : ∀ {earlier : List CaseValues},
    claimedTwice? earlier claims = none ↔ (∀ first ∈ earlier, ∀ second ∈ claims, ∀ v ∈ second, v ∉ first) ∧
      claims.Pairwise fun first second => ∀ v ∈ second, v ∉ first := by
  induction claims with
  | nil => simp [claimedTwice?]
  | cons values claims ih =>
    intro earlier
    have hclash : (values.toList.findSome? fun v =>
        (earlier.findIdx? (·.contains v)).map fun i => (v.toNat, i, earlier.length)) = none ↔
          ∀ first ∈ earlier, ∀ v ∈ values, v ∉ first := by
      simp only [List.findSome?_eq_none_iff, Option.map_eq_none_iff, List.findIdx?_eq_none_iff, Std.TreeSet.mem_toList]
      simp only [← Bool.not_eq_true, Std.TreeSet.contains_iff_mem]
      exact ⟨fun h first hfirst v hv => h v hv first hfirst, fun h v hv first hfirst => h first hfirst v hv⟩
    rw [claimedTwice?, List.pairwise_cons]
    split
    · rename_i found hfound
      rw [hfound] at hclash
      simp only [reduceCtorEq, false_iff] at hclash ⊢
      exact fun h => hclash fun first hfirst => h.1 first hfirst values List.mem_cons_self
    · rename_i hfound
      rw [ih]
      have hnew := hclash.mp hfound
      simp only [List.mem_append, List.mem_cons, List.not_mem_nil, or_false]
      constructor
      · rintro ⟨hearlier, hrest⟩
        refine ⟨?_, fun second hsecond => hearlier values (.inr rfl) second hsecond, hrest⟩
        rintro first hfirst second (rfl | hsecond)
        exacts [hnew first hfirst, hearlier first (.inl hfirst) second hsecond]
      · rintro ⟨hearlier, hvalues, hrest⟩
        refine ⟨?_, hrest⟩
        rintro first (hfirst | rfl) second hsecond
        exacts [hearlier first hfirst second (.inr hsecond), hvalues second hsecond]

theorem checkDispatch_ok_iff : checkDispatch options claims = .ok () ↔ Dispatchable options claims := by
  have hdisjoint : claimedTwice? [] claims = none ↔ claims.Pairwise fun first second => ∀ v ∈ second, v ∉ first := by
    simp [claimedTwice?_eq_none]
  unfold checkDispatch
  split
  · rename_i value first second htwice
    rw [htwice] at hdisjoint
    simp only [reduceCtorEq, false_iff] at hdisjoint ⊢
    exact fun h => hdisjoint h.disjoint
  · rename_i hnone
    split
    · rename_i hlarge
      simp only [reduceCtorEq, false_iff]
      exact fun h => absurd (tableSize_le_iff.mpr h.bounded) (by omega)
    · rename_i hsize
      simp only [true_iff]
      exact ⟨hdisjoint.mp hnone, tableSize_le_iff.mp (by omega)⟩

/-- Errors about the table of a switch. -/
def BuildError.isDispatch : BuildError → Bool
  | .structural (.switchValueTwice _ _ _) | .structural (.switchTooLarge _ _) => true
  | _ => false

theorem isDispatch_of_checkDispatch {e : BuildError} (h : checkDispatch options claims = .error e) : e.isDispatch := by
  unfold checkDispatch at h
  split at h
  · cases h
    rfl
  · split at h <;> cases h
    rfl

/-! ## Switches that code is made for -/

namespace Expr

/-- Code for the first expression contains code for the second. -/
inductive Reaches : Expr → Expr → Prop
  | self (e : Expr) : Reaches e e
  | child {e c inner} : c ∈ e.compiled → Reaches c inner → Reaches e inner

/-- The table of every switch that code is made for can be laid out. -/
def Dispatches (options : BuildOptions) (e : Expr) : Prop :=
  ∀ value cases fallback, e.Reaches (.switch value cases fallback) → Dispatchable options (cases.map (·.1))

variable {options : BuildOptions} {e : Expr}

theorem dispatches_iff : e.Dispatches options ↔
    (∀ value cases fallback, e = .switch value cases fallback → Dispatchable options (cases.map (·.1))) ∧
      ∀ c ∈ e.compiled, c.Dispatches options := by
  constructor
  · intro h
    refine ⟨?_, fun c hc value cases fallback hreach => h value cases fallback (.child hc hreach)⟩
    rintro value cases fallback rfl
    exact h value cases fallback (.self _)
  · rintro ⟨hself, hparts⟩ value cases fallback hreach
    cases hreach with
    | self => exact hself value cases fallback rfl
    | child hc hreach => exact hparts _ hc value cases fallback hreach

theorem dispatches_switch {value fallback : Expr} {cases : List (CaseValues × Expr)} :
    (switch value cases fallback).Dispatches options ↔ Dispatchable options (cases.map (·.1)) ∧
    value.Dispatches options ∧
      fallback.Dispatches options ∧ ∀ c ∈ liveCases cases, c.Dispatches options := by
  rw [dispatches_iff, compiled, List.forall_mem_cons, List.forall_mem_cons]
  refine and_congr_left fun _ => ⟨fun h => h value cases fallback rfl, ?_⟩
  rintro h _ _ _ ⟨⟩
  exact h

theorem Dispatches.part {c : Expr} (h : e.Dispatches options) (hc : c ∈ e.compiled) : c.Dispatches options :=
  (dispatches_iff.mp h).2 c hc

/-- Only a switch adds a condition of its own. -/
theorem dispatches_of_ne (hne : ∀ value cases fallback, e ≠ .switch value cases fallback) :
    e.Dispatches options ↔ ∀ c ∈ e.compiled, c.Dispatches options := by
  rw [dispatches_iff]
  exact and_iff_right fun value cases fallback he => absurd he (hne value cases fallback)

end Expr

/-! ## Scopes for typed expressions -/

/-- Binding other names leaves a variable as it was. -/
theorem Typed.lookup_of_unbound : ∀ {seen : List Symbol}
    {inner result : TypeEnv}, Typed env (.bindings seen bs inner result) → (bs.map (·.1)).contains x = false →
      result.lookup x = inner.lookup x := by
  induction bs with
  | nil =>
    intro seen inner result h _
    cases h
    rfl
  | cons b bs ih =>
    intro seen inner result h hx
    cases h with
    | bindingsCons _ _ _ hbs =>
      rw [List.map_cons, List.contains_cons, Bool.or_eq_false_iff, BEq.comm] at hx
      rw [ih hbs hx.2, TypeEnv.lookup_bind, hx.1]
      rfl

theorem TypeEnv.lookup_bindParams_of_unbound {ps : List Param} (hx : (ps.map (·.name)).contains x = false) :
    (env.bindParams ps).lookup x = env.lookup x := by
  induction ps generalizing env with
  | nil => rfl
  | cons p ps ih =>
    rw [List.map_cons, List.contains_cons, Bool.or_eq_false_iff, BEq.comm] at hx
    refine (ih hx.2).trans ?_
    rw [lookup_bind, hx.1]
    rfl

/-- Variables that occur free in a typed expression are in scope. -/
theorem Typed.lookup_of_freeAt {e : Expr} {role : Role} {depth : Nat} (hx : e.FreeAt x role depth)
    (h : Typed env (.expr e type))
    : ∃ found, env.lookup x = some found := by
  induction hx generalizing env type with
  | read hy =>
    cases h with
    | var hlookup => exact ⟨_, by rw [← TypeEnv.lookup_congr hy, hlookup]⟩
  | write hy =>
    cases h with
    | assign hlookup _ _ => exact ⟨_, by rw [← TypeEnv.lookup_congr hy, hlookup]⟩
  | part hpart _ ih =>
    obtain ⟨partType, hpart⟩ := h.part hpart
    exact ih hpart
  | letBody hbound _ ih =>
    cases h with
    | letIn hbs hbody =>
      obtain ⟨found, hfound⟩ := ih hbody
      exact ⟨found, by rw [← hbs.lookup_of_unbound hbound, hfound]⟩
  | lambdaBody hbound _ ih =>
    cases h with
    | lambda hbody =>
      obtain ⟨found, hfound⟩ := ih hbody
      exact ⟨found, by rw [← TypeEnv.lookup_bindParams_of_unbound hbound, hfound]⟩

theorem Typed.lookup_of_uses {e : Expr} (h : Typed env (.expr e type)) (hx : e.Uses x) :
    ∃ found, env.lookup x = some found := by
  obtain ⟨role, depth, hfree⟩ := Expr.uses_iff_freeAt.mp hx
  exact lookup_of_freeAt hfree h

namespace Scope

/-- The expression is typed, each variable has the type of its storage, and captured variables have cells. -/
structure Hosts (scope : Scope) (e : Expr) : Prop where
  coherent : scope.Coherent
  typed : scope.types.Types e
  boxes : scope.Boxes e.usages

variable {scope : Scope} {e : Expr}

theorem Hosts.part (h : scope.Hosts e) {c : Expr} (hc : c ∈ e.parts) : scope.Hosts c := by
  obtain ⟨type, htyped⟩ := h.typed
  exact ⟨h.coherent, htyped.part hc, h.boxes.part hc⟩

theorem Hosts.typeOf (h : scope.Hosts e) : ∃ type, e.typeOf scope.types = .ok type := by
  obtain ⟨type, htyped⟩ := h.typed
  exact ⟨type, Typed.iff_typeOf.mpr htyped⟩

/-- A variable that has a type has a storage. -/
theorem Coherent.storage_of_lookup (h : scope.Coherent) (hx : scope.types.lookup x = some type) (whole : Expr) :
    ∃ storage, scope.storage x whole = .ok storage := by
  rw [TypeEnv.lookup, h, List.find?_map] at hx
  unfold storage
  cases hfind : scope.vars.find? fun entry => entry.1 == x with
  | some entry => exact ⟨entry.2, rfl⟩
  | none =>
    have hnone : scope.vars.find? ((fun entry : Symbol × TypeRef => entry.1 == x) ∘ fun entry =>
        (entry.1, entry.2.type)) = none :=
      hfind
    rw [hnone] at hx
    cases hx

theorem Hosts.storage (h : scope.Hosts e) (hx : e.Uses x) (whole : Expr) :
    ∃ storage, scope.storage x whole = .ok storage := by
  obtain ⟨type, htyped⟩ := h.typed
  obtain ⟨found, hfound⟩ := htyped.lookup_of_uses hx
  exact h.coherent.storage_of_lookup hfound whole

end Scope

/-- Cells can be pushed for variables that have them. -/
theorem captureCells_ok {scope : Scope} {whole : Expr} : ∀ {xs : List Symbol},
    (∀ x ∈ xs, ∃ storage, scope.storage x whole = .ok storage ∧ storage.isBoxed) →
      ∃ cells, captureCells scope whole xs = .ok cells
  | [], _ => ⟨_, rfl⟩
  | x :: xs, h => by
    obtain ⟨⟨storage, hstorage, hboxed⟩, h⟩ := List.forall_mem_cons.mp h
    obtain ⟨cells, hcells⟩ := captureCells_ok h
    refine ⟨(storage.loadSlot ++ cells.1, storage.slotType :: cells.2), ?_⟩
    have hbox : storage.fetchBox = .ok storage.loadSlot := if_pos hboxed
    rw [captureCells, hstorage, hcells]
    simp [bind, Except.bind, hbox]

/-! ## Lowering -/

/-- Code is made for switches whose tables can be laid out. -/
theorem Lowers.dispatches {e : Expr} {tail : Bool} (h : Lowers options (.expr e tail) scope s b t) :
    e.Dispatches options := by
  intro value cases fallback hreach
  generalize hswitch : Expr.switch value cases fallback = inner at hreach
  induction hreach generalizing tail scope s b t with
  | self =>
    subst hswitch
    cases h with
    | switch hclaims _ _ hcheck => exact checkDispatch_ok_iff.mp (hclaims ▸ hcheck)
  | child hc _ ih =>
    obtain ⟨place, code, inner, s₁, s₂, hc⟩ := h.child hc
    exact ih hc hswitch

theorem LetBound.types {usages : Usages} {inner result : Scope} (h : LetBound usages scope bs inner result)
    : ∀ {seen : List Symbol} {types : TypeEnv},
      Typed scope.types (.bindings seen bs inner.types types) → inner.Coherent → result.Coherent ∧
        result.types = types := by
  induction h with
  | nil =>
    intro seen types htyped hinner
    cases htyped
    exact ⟨hinner, rfl⟩
  | cons htype _ ih =>
    intro seen types htyped hinner
    cases htyped with
    | bindingsCons _ hvalue _ hrest =>
      cases Except.ok.inj ((Typed.iff_typeOf.mpr hvalue).symm.trans htype)
      exact ih hrest (hinner.bind _ _)

/-- In a scope that hosts an expression, lowering it goes wrong only over a switch. -/
theorem admits_hosts (options : BuildOptions) (whole : Prop) :
    Admits options (fun err => err.isDispatch = true ∧ ¬ whole)
    fun scope e => scope.Hosts e ∧ (whole → e.Dispatches options) where
  boxes h := h.1.boxes
  part h hc := ⟨h.1.part (Expr.lowered_subset_parts hc), fun hwhole =>
    (h.2 hwhole).part (Expr.lowered_subset_compiled hc)⟩
  body {scope inner bs body} h hbound := by
    obtain ⟨⟨hcoherent, ⟨type, htyped⟩, hboxes⟩, hdispatches⟩ := h
    cases htyped with
    | letIn hbs hbody =>
      obtain ⟨hcoherent, htypes⟩ := hbound.types hbs hcoherent
      refine ⟨⟨hcoherent, ⟨type, htypes ▸ hbody⟩, hbound.boxes (hboxes.mono fun x hx => ?_)⟩, fun hwhole => ?_⟩
      · rw [Expr.usages, Usages.isCaptured_union, hx, Bool.or_true]
      · exact (hdispatches hwhole).part (by simp [Expr.compiled, Expr.children])
  typeOf h herr := by
    obtain ⟨type, htype⟩ := h.1.typeOf
    cases htype.symm.trans herr
  var {scope x err} h herr := by
    obtain ⟨storage, hstorage⟩ := h.1.storage (Expr.uses_var.mpr BEq.rfl) (.var x)
    cases hstorage.symm.trans herr
  assign {scope x e err} h herr := by
    obtain ⟨storage, hstorage⟩ := h.1.storage (Expr.uses_assign.mpr (.inl BEq.rfl)) (.assign x e)
    cases hstorage.symm.trans herr
  cells {scope x ps body err} h herr := by
    obtain ⟨cells, hcells⟩ := @captureCells_ok scope (.lambda x ps body) _ fun y hy => by
      obtain ⟨storage, hstorage⟩ := h.1.storage (Expr.uses_of_mem_keys hy) (.lambda x ps body)
      exact ⟨storage, hstorage, Expr.boxed_of_mem_keys h.1.boxes y hy storage hstorage⟩
    cases hcells.symm.trans herr
  dispatch h herr := by
    refine ⟨isDispatch_of_checkDispatch herr, fun hwhole => ?_⟩
    cases (checkDispatch_ok_iff.mpr (Expr.dispatches_switch.mp (h.2 hwhole)).1).symm.trans herr

/-- Lowering a typed expression hinges on its switches. -/
theorem Expr.lower_cases (options : BuildOptions) (e : Expr) (h : scope.Hosts e) (tail : Bool) (s : Supply) :
    (∃ b t, (e.lower options scope tail).exec s = (.ok b, t) ∧ e.Dispatches options) ∨
      ∃ err t, (e.lower options scope tail).exec s = (.error err, t) ∧ err.isDispatch = true ∧
        ¬ e.Dispatches options := by
  obtain ⟨r, t, hexec, -, -, hfails⟩ :=
    e.lower_shifts options 0 (admits_hosts options (e.Dispatches options)) tail (.refl True _) ⟨h, id⟩ s
  cases r with
  | ok b => exact .inl ⟨b, t, hexec, (Lowers.of_lower e hexec).dispatches⟩
  | error err => exact .inr ⟨err, t, hexec, hfails err rfl⟩

/-! ## Bodies -/

/-- The captures of a body are cells in the fields of its receiver. -/
def Body.Reached (body : Body) (h : Hierarchy) : Prop :=
  body.captures ≠ [] → body.params ≠ [] ∧
    ∀ c ∈ body.captures, ∃ info, c.field.info h.table = .ok info ∧ info.fieldType = .cell c.type

/-- Parameters are bound exactly when their numbers have 16 bits. -/
theorem enterParams_exec (usages : Usages) : ∀ (index : Nat) (params : List Param) (scope : Scope) (s : Supply),
    index ≤ 65536 →
    (index + params.length ≤ 65536 ∧ ∃ r t, (enterParams usages index params scope).exec s = (.ok r, t)) ∨
      ¬ index + params.length ≤ 65536 ∧
        ∃ t, (enterParams usages index params scope).exec s = (.error (.structural .tooManyParameters), t)
  | index, [], scope, s, hindex => .inl ⟨hindex, _, _, rfl⟩
  | index, p :: params, scope, s, hindex => by
    have hlength : index + (p :: params).length = index + 1 + params.length := by
      rw [List.length_cons]
      omega
    rw [enterParams, hlength]
    split
    · exact .inr ⟨by omega, s, rfl⟩
    · split
      · -- the parameter moves into a cell
        rw [Effect.exec_bind, exec_freshLocal]
        rcases enterParams_exec usages (index + 1) params (scope.bind p.name (.slot (s.slot p.name) p.type true))
          (s.skip 1)
            (by omega) with ⟨hfits, r, t, hexec⟩ | ⟨hfits, t, hexec⟩
        · exact .inl ⟨hfits, _, t, by simp only [Effect.exec_bind, hexec]; rfl⟩
        · exact .inr ⟨hfits, t, by simp only [Effect.exec_bind, hexec]⟩
      · exact enterParams_exec usages (index + 1) params _ s (by omega)

theorem TypeEnv.bound_bindParams (ps : List Param) (h : ∃ found, env.lookup x = some found) :
    ∃ found, (env.bindParams ps).lookup x = some found := by
  induction ps generalizing env with
  | nil => exact h
  | cons p ps ih =>
    refine ih ?_
    rw [lookup_bind]
    split
    · exact ⟨_, rfl⟩
    · exact h

theorem enterCaptures_ok {table : Table} (receiver : Storage) : ∀ {captures : List Capture} (scope : Scope),
    (∀ c ∈ captures, ∃ info, c.field.info table = .ok info ∧ info.fieldType = .cell c.type) →
      ∃ inner, enterCaptures table receiver captures scope = .ok inner
  | [], scope, _ => ⟨scope, rfl⟩
  | c :: captures, scope, h => by
    obtain ⟨⟨info, hinfo, htype⟩, h⟩ := List.forall_mem_cons.mp h
    obtain ⟨inner, hinner⟩ := enterCaptures_ok receiver (scope.bind c.name (.field receiver c.field c.type true)) h
    refine ⟨inner, ?_⟩
    rw [enterCaptures, hinfo]
    simp [bind, Except.bind, htype, hinner]

namespace Body

variable {body : Body} {h : Hierarchy} {options : BuildOptions} {returnType : TypeRef}

/-- A body whose captures can be reached is entered exactly when it has few enough parameters. -/
theorem enter_exec (hreached : body.Reached h) (usages : Usages) (s : Supply) :
    (body.params.length ≤ 65536 ∧ ∃ b scope t, (body.enter h usages).exec s = (.ok (b, scope), t)) ∨
      ¬ body.params.length ≤ 65536 ∧ ∃ t, (body.enter h usages).exec s =
        (.error (.structural .tooManyParameters), t) := by
  have hparams := enterParams_exec usages 0 body.params { types := { hierarchy := h } } s (by omega)
  rw [Nat.zero_add] at hparams
  unfold enter
  rw [Effect.exec_bind]
  rcases hparams with ⟨hfew, ⟨b, outer⟩, t, hexec⟩ | ⟨hmany, t, hexec⟩
  · refine .inl ⟨hfew, ?_⟩
    rw [hexec]
    by_cases hnone : body.captures = []
    · exact ⟨b, outer, t, by simp [hnone]⟩
    · obtain ⟨hparams, hfields⟩ := hreached hnone
      obtain ⟨receiver, params, hcons⟩ := List.exists_cons_of_ne_nil hparams
      rw [hcons] at hexec
      obtain ⟨htypes, hcoherent⟩ := (Enters.of_enterParams hexec).types rfl
      have hbound : ∃ found, outer.types.lookup receiver.name = some found := by
        rw [htypes]
        refine TypeEnv.bound_bindParams params ⟨receiver.type, ?_⟩
        rw [TypeEnv.lookup_bind, if_pos BEq.rfl]
      obtain ⟨found, hfound⟩ := hbound
      obtain ⟨storage, hstorage⟩ := hcoherent.storage_of_lookup hfound body.body
      obtain ⟨inner, hinner⟩ := enterCaptures_ok storage outer hfields
      exact ⟨b, inner, t, by simp [hnone, hcons, Effect.exec_bind, hstorage, hinner]⟩
  · exact .inr ⟨hmany, t, by rw [hexec]⟩

theorem hosts_of_enter (henter : (body.enter h body.body.usages).exec s = (.ok (b, scope), t))
    (htype : body.body.typeOf (body.typeEnv h) = .ok type) : scope.Hosts body.body := by
  obtain ⟨htypes, hcoherent⟩ := enter_types henter
  obtain ⟨r, u, hexec, -, hboxes, -⟩ := enter_shifts 0 body (.refl True h) body.body.usages s
  rw [henter] at hexec
  cases hexec
  exact ⟨hcoherent, ⟨type, htypes ▸ Typed.iff_typeOf.mp htype⟩, (hboxes _ rfl).2⟩

/-- A body can be compiled exactly when it has few enough parameters, its type fits, and the tables of its switches
    can be laid out. Once it is typed, nothing else goes wrong: variables are found, and captured ones have cells. -/
theorem compileMethod_succeeds_iff (hreached : body.Reached h) (s : Supply) :
    ((∃ b t, (body.compileMethod h options returnType).exec s = (.ok b, t)) ↔
      body.params.length ≤ 65536 ∧
        (∃ type, body.body.typeOf (body.typeEnv h) = .ok type ∧
          (returnType.isVoid = true ∨ h.isAssignable type returnType = true)) ∧
        body.body.Dispatches options) ∧
    ∀ type e t, body.body.typeOf (body.typeEnv h) = .ok type →
      (body.compileMethod h options returnType).exec s = (.error e, t) →
        e.isDispatch = true ∨ e = .structural .tooManyParameters ∨ e = .type (.bodyType type returnType)
          (some body.body) := by
  rw [compileMethod, Effect.exec_bind]
  rcases enter_exec hreached body.body.usages s with ⟨hfew, start, scope, t, henter⟩ | ⟨hmany, t, henter⟩
  case inr =>
    rw [henter]
    refine ⟨iff_of_false (by simp) fun hall => hmany hall.1, fun type e u _ he => ?_⟩
    cases he
    exact .inr (.inl rfl)
  rw [henter]
  simp only [Effect.exec_bind, Effect.exec_lift, (enter_types henter).1]
  cases htype : body.body.typeOf (body.typeEnv h) with
  | error e => exact ⟨iff_of_false (by simp) (by simp), fun type e u htype => by cases htype⟩
  | ok type =>
    have hfinish (tail : Bool) {finish : Block → Block}
        (hfits : returnType.isVoid = true ∨ h.isAssignable type returnType = true) :
        ((∃ b u, (body.body.lower options scope tail >>= fun b => pure (finish b)).exec t = (.ok b, u)) ↔
          body.params.length ≤ 65536 ∧ (∃ found, .ok type = (.ok found : Except BuildError TypeRef) ∧
            (returnType.isVoid = true ∨ h.isAssignable found returnType = true)) ∧ body.body.Dispatches options) ∧
        ∀ found e u, .ok type = (.ok found : Except BuildError TypeRef) →
          (body.body.lower options scope tail >>= fun b => pure (finish b)).exec t = (.error e, u) →
          e.isDispatch = true ∨ e = .structural .tooManyParameters ∨ e = .type (.bodyType found returnType)
            (some body.body) := by
      rw [Effect.exec_bind]
      rcases body.body.lower_cases options (hosts_of_enter henter htype) tail t with ⟨b, u, hexec, hd⟩ | ⟨err, u,
        hexec, herr, hd⟩
      · rw [hexec]
        exact ⟨iff_of_true ⟨_, _, rfl⟩ ⟨hfew, ⟨type, rfl, hfits⟩, hd⟩, fun _ _ _ _ he => by cases he⟩
      · rw [hexec]
        refine ⟨iff_of_false (by simp) fun hall => hd hall.2.2, fun _ _ _ _ he => ?_⟩
        cases he
        exact .inl herr
    simp only
    split
    · rename_i hvoid
      rw [Bool.and_eq_true] at hvoid
      exact hfinish false (.inl hvoid.1)
    · rename_i hvoid
      split
      · rename_i hunfit
        have hunfit : h.isAssignable type returnType = false := by simpa using hunfit
        refine ⟨iff_of_false (by simp) ?_, fun found e u hfound he => ?_⟩
        · rintro ⟨-, ⟨found, hfound, hfits⟩, -⟩
          cases hfound
          rcases hfits with hreturn | hfits
          · have hsame : type = returnType := by
              rw [TypeRef.eq_void_of_isVoid hreturn]
              exact TypeRef.eq_void_of_isVoid (by simpa [hreturn] using hvoid)
            rw [hsame, Hierarchy.isAssignable_refl] at hunfit
            cases hunfit
          · rw [hfits] at hunfit
            cases hunfit
        · cases hfound
          cases he
          exact .inr (.inr rfl)
      · rename_i hfits
        exact hfinish true (.inr (by simpa using hfits))

/-- A switch with two cases for one value. -/
def clash : Expr := .switch (.var (.named "x")) [(.of [1], .var (.named "x")), (.of [1], .var (.named "x"))]
    (.var (.named "x"))

/-- A captured number is read, and cases clash where no value leads to. -/
def guardedRead : Body where
  params := [⟨.named "this", .object⟩]
  captures := [⟨.named "x", .primitive .u8,
    .existing { owner := .object, name := "x", fieldType := .cell (.primitive .u8), isInstance := true }⟩]
  body := .switch (.var (.named "x"))
    [(.of [0, 2], .var (.named "x")), (.of [], clash)] (.var (.named "x"))

theorem guardedRead_compiles : guardedRead.Reached { table := ∅, catalog := ∅ } ∧
    ∃ b t, (guardedRead.compileMethod { table := ∅, catalog := ∅ } { maxSwitchCases := 3 } (.primitive .u8)).exec {} =
      (.ok b, t) := by
  have hreached : guardedRead.Reached { table := ∅, catalog := ∅ } := fun _ =>
    ⟨by simp [guardedRead], fun c hc => by
      cases List.mem_singleton.mp hc
      exact ⟨_, rfl, rfl⟩⟩
  have hvar : (Expr.var (.named "x")).Dispatches { maxSwitchCases := 3 } := by
    simp [Expr.dispatches_of_ne, Expr.compiled, Expr.children]
  refine ⟨hreached, (compileMethod_succeeds_iff hreached {}).1.mpr ⟨by decide, ⟨.primitive .u8, ?_, .inr ?_⟩, ?_⟩⟩
  · rfl
  · exact Hierarchy.isAssignable_refl _
  · have hclaims : (checkDispatch { maxSwitchCases := 3 } [.of [0, 2], .of []]).isOk = true := by decide +kernel
    have hlive : ∀ e ∈ Expr.liveCases [(.of [0, 2], .var (.named "x")), (.of [], clash)], e = .var (.named "x") := by
      intro e he
      obtain ⟨c, hc, rfl⟩ := List.mem_map.mp he
      simp only [List.mem_filter, List.mem_cons, List.not_mem_nil, or_false] at hc
      rcases hc with ⟨rfl | rfl, hlive⟩
      · rfl
      · cases hlive
    refine Expr.dispatches_switch.mpr ⟨?_, hvar, hvar, fun e he => hlive e he ▸ hvar⟩
    cases hcheck : checkDispatch { maxSwitchCases := 3 } [.of [0, 2], .of []] with
    | ok => exact checkDispatch_ok_iff.mp hcheck
    | error e =>
      rw [hcheck] at hclaims
      cases hclaims

end Body

end Stackwright
