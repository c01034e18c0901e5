import Mathlib.Data.Finset.Card
import Mathlib.Data.Prod.Lex
import Stackwright.Proofs.Builds

/-
  Stackwright.Proofs.Schedulable — which modules can be scheduled.

  Types come first, each after those it derives from, then fields, methods and constructors,
  then properties, then bodies; types are completed last, again each after those it derives from.
  Every step needs only what comes before it in this order. So the steps of a module can be
  planned as soon as all they need is declared and no type derives from itself.
-/

namespace Stackwright

variable {key : ItemKey}
variable {α : Type} {tasks : List Task} {T : Target} {height : TypeKey → Nat} {d : TypeDefinition}
variable {k : ItemKey} {table : Table} {t : Task}

/-! ## Ranked tasks -/

/-- Tasks can run when they can be ranked: later phases above earlier ones, and whatever a task needs made below it. -/
theorem Task.exists_schedule [LinearOrder α] (rank : Task → α)
    (hphase : ∀ t ∈ tasks, ∀ u ∈ tasks, rank t ≤ rank u → t.phase ≤ u.phase)
    (hfed : ∀ t ∈ tasks, ∀ key ∈ t.inputs, ∃ u ∈ tasks, key ∈ u.outputs ∧ rank u < rank t) :
    ∃ order, Schedule tasks order := by
  let sorted := tasks.zipIdx.mergeSort fun p q => decide (rank p.1 ≤ rank q.1)
  have hperm : sorted.Perm tasks.zipIdx := List.mergeSort_perm _ _
  have hsorted : sorted.Pairwise fun p q => rank p.1 ≤ rank q.1 := by
    refine (List.pairwise_mergeSort (fun p q r hpq hqr => ?_) (fun p q => ?_) _).imp of_decide_eq_true
    · simp only [decide_eq_true_eq] at hpq hqr ⊢
      exact hpq.trans hqr
    · simpa using le_total (rank p.1) (rank q.1)
  have hplace : ∀ p ∈ sorted, tasks[p.2]? = some p.1 := fun p hp => mem_zipIdx.mp (hperm.mem_iff.mp hp)
  have hmem : ∀ p ∈ sorted, p.1 ∈ tasks := fun p hp => List.mem_of_getElem? (hplace p hp)
  refine ⟨sorted.map (·.2), ?_, ?_, ?_⟩
  · have := hperm.map (·.2)
    rwa [List.zipIdx_map_snd, ← List.range_eq_range'] at this
  · refine List.pairwise_map.mpr (hsorted.imp_of_mem fun {p q} hp hq hle t u ht hu => ?_)
    rw [hplace p hp] at ht
    rw [hplace q hq] at hu
    cases ht
    cases hu
    exact hphase _ (hmem p hp) _ (hmem q hq) hle
  · intro before i after t hsplit ht key hkey
    obtain ⟨first, rest, hcut, rfl, hrest⟩ := List.map_eq_append_iff.mp hsplit
    obtain ⟨p, last, rfl, rfl, -⟩ := List.map_eq_cons_iff.mp hrest
    have hp : p ∈ sorted := by
      rw [hcut]
      simp
    rw [hplace p hp] at ht
    cases ht
    obtain ⟨u, hu, hout, hlt⟩ := hfed p.1 (hmem p hp) key hkey
    obtain ⟨j, hj⟩ := List.mem_iff_getElem?.mp hu
    have hq : (u, j) ∈ sorted := hperm.mem_iff.mpr (mem_zipIdx.mpr hj)
    refine ⟨j, ?_, u, hj, hout⟩
    rw [hcut] at hq hsorted
    rcases List.mem_append.mp hq with hq | hq
    · exact List.mem_map_of_mem (f := (·.2)) hq
    · rcases List.mem_cons.mp hq with rfl | hq
      · exact absurd hlt (lt_irrefl _)
      · have hle := (List.pairwise_cons.mp (List.pairwise_append.mp hsorted).2.1).1 _ hq
        exact absurd hlt (not_lt.mpr hle)

/-- A relation without a cycle goes down in height, when it reaches finitely many things. -/
theorem exists_height {R : α → α → Prop} {s : Finset α} (hs : ∀ a b, R a b → b ∈ s)
    (hacyclic : ∀ a, ¬ Relation.TransGen R a a) :
    ∃ height : α → Nat, ∀ a b, R a b → height b < height a := by
  classical
  -- the height counts what can be reached
  refine ⟨fun a => (s.filter (Relation.TransGen R a)).card, fun a b hab => Finset.card_lt_card ?_⟩
  have hsub : s.filter (Relation.TransGen R b) ⊆ s.filter (Relation.TransGen R a) := by
    intro c hc
    rw [Finset.mem_filter] at hc ⊢
    exact ⟨hc.1, .head hab hc.2⟩
  refine (Finset.ssubset_iff_of_subset hsub).mpr ⟨b, ?_, ?_⟩
  · exact Finset.mem_filter.mpr ⟨hs a b hab, .single hab⟩
  · exact fun hb => hacyclic b (Finset.mem_filter.mp hb).2

/-! ## Stages -/

/-- When a key is made: types by height, then what is inside them; completed types come last. -/
def ItemKey.stage (height : TypeKey → Nat) : ItemKey → Nat ×ₗ Nat
  | .type key => toLex (0, height key)
  | .field _ | .method _ | .constructor _ => toLex (1, 0)
  | .property _ => toLex (2, 0)
  | .completed key => toLex (4, height key)

/-- Bodies make nothing and come after all that is inside types. -/
def Task.stage (height : TypeKey → Nat) (t : Task) : Nat ×ₗ Nat :=
  t.outputs.toList.head?.elim (toLex (3, 0)) (·.stage height)

section

variable {height : TypeKey → Nat} {k : ItemKey}

theorem TypeRef.stage_lt {keys : List TypeKey} (hk : k ∈ keys.map ItemKey.type) {n : Nat} (hn : 0 < n) (i : Nat) :
    k.stage height < toLex (n, i) := by
  obtain ⟨key, -, rfl⟩ := List.mem_map.mp hk
  exact Prod.Lex.toLex_lt_toLex.mpr (.inl hn)

theorem MethodRef.stage_lt {m : MethodRef} (hk : k ∈ m.keys) : k.stage height < toLex (2, 0) := by
  cases m with
  | deferred key =>
    rw [keys, addKeys, KeySet.mem_insert] at hk
    obtain rfl : k = .method key := by simpa using hk
    exact Prod.Lex.toLex_lt_toLex.mpr (.inl (by simp))
  | existing m =>
    simp only [keys, addKeys, TypeRef.mem_addKeys, TypeRef.mem_addAllKeys] at hk
    rcases hk with hk | hk | hk | hk
    · exact TypeRef.stage_lt hk (by omega) 0
    · exact TypeRef.stage_lt hk (by omega) 0
    · exact TypeRef.stage_lt hk (by omega) 0
    · simp at hk

theorem ConstructorRef.stage_lt {c : ConstructorRef} (hk : k ∈ c.keys) : k.stage height < toLex (2, 0) := by
  cases c with
  | deferred key =>
    rw [keys, addKeys, KeySet.mem_insert] at hk
    obtain rfl : k = .constructor key := by simpa using hk
    exact Prod.Lex.toLex_lt_toLex.mpr (.inl (by simp))
  | existing c =>
    simp only [keys, addKeys, TypeRef.mem_addKeys, TypeRef.mem_addAllKeys] at hk
    rcases hk with hk | hk | hk
    · exact TypeRef.stage_lt hk (by omega) 0
    · exact TypeRef.stage_lt hk (by omega) 0
    · simp at hk

theorem FieldRef.stage_lt {f : FieldRef} (hk : k ∈ f.keys) : k.stage height < toLex (2, 0) := by
  cases f with
  | deferred key =>
    rw [keys, addKeys, KeySet.mem_insert] at hk
    obtain rfl : k = .field key := by simpa using hk
    exact Prod.Lex.toLex_lt_toLex.mpr (.inl (by simp))
  | existing f =>
    simp only [keys, addKeys, TypeRef.mem_addKeys] at hk
    rcases hk with hk | hk | hk
    · exact TypeRef.stage_lt hk (by omega) 0
    · exact TypeRef.stage_lt hk (by omega) 0
    · simp at hk

theorem Instr.stage_lt {i : Instr} (hk : k ∈ i.addKeys ∅) : k.stage height < toLex (2, 0) := by
  have htype (t : TypeRef) (h : k ∈ t.addKeys ∅) : k.stage height < toLex (2, 0) :=
    TypeRef.stage_lt ((t.mem_addKeys.mp h).resolve_right (by simp)) (by omega) 0
  cases i <;> simp only [addKeys] at hk
  case loadField f => exact f.stage_lt hk
  case storeField f => exact f.stage_lt hk
  case loadStatic f => exact f.stage_lt hk
  case storeStatic f => exact f.stage_lt hk
  case newObject c => exact c.stage_lt hk
  case callConstructor c => exact c.stage_lt hk
  case call m _ => exact m.stage_lt hk
  case callVirtual m _ => exact m.stage_lt hk
  case newDelegate t m =>
    rcases m.mem_addKeys.mp hk with hk | hk
    · exact m.stage_lt hk
    · exact htype t hk
  all_goals first | exact htype _ hk | simp at hk

/-- Code mentions types and what is inside them, but neither properties nor completed types. -/
theorem Block.stage_lt {b : Block} (hk : k ∈ b.keys) : k.stage height < toLex (2, 0) := by
  rcases Block.mem_keys.mp hk with ⟨i, -, hk⟩ | ⟨l, -, hk⟩
  · exact i.stage_lt hk
  · exact TypeRef.stage_lt hk (by omega) 0

end

/-- A step that stands where its keys say, after all that it needs. -/
structure Step.Staged {T : Target} (height : TypeKey → Nat) (step : Step T) : Prop where
  phase : step.phase = if (ofLex (step.toTask.stage height)).1 < 4 then definePhase else finalizePhase
  above : ∀ key ∈ step.inputs, key.stage height < step.toTask.stage height
  makes : ∀ key ∈ step.outputs, step.toTask.stage height = key.stage height

theorem Step.Staged.phase_le {a b : Step T} (ha : a.Staged height) (hb : b.Staged height)
    (hle : a.toTask.stage height ≤ b.toTask.stage height) : a.phase ≤ b.phase := by
  have hfirst : (ofLex (a.toTask.stage height)).1 ≤ (ofLex (b.toTask.stage height)).1 := Prod.Lex.monotone_fst _ _ hle
  rw [ha.phase, hb.phase]
  unfold definePhase finalizePhase
  split <;> split <;> omega

/-- A step that makes one key. -/
theorem Step.staged_of_single {step : Step T} (houtputs : step.outputs = .single key)
    (hphase : step.phase = if (ofLex (key.stage height)).1 < 4 then definePhase else finalizePhase)
    (habove : ∀ k ∈ step.inputs, k.stage height < key.stage height) : step.Staged height := by
  have hstage : step.toTask.stage height = key.stage height := by
    rw [Task.stage, houtputs]
    rfl
  refine ⟨by rw [hstage, hphase], fun k hk => hstage ▸ habove k hk, fun k hk => ?_⟩
  rw [houtputs, KeySet.mem_single] at hk
  rw [hstage, hk]

/-- A step that writes a body. -/
theorem Step.staged_of_body {step : Step T} {block : Block} (houtputs : step.outputs = ∅)
    (hphase : step.phase = definePhase)
    (hinputs : step.inputs = block.keys.insert key) (hkey : key.stage height < toLex (2, 0)) : step.Staged height := by
  have hstage : step.toTask.stage height = toLex (3, 0) := by
    rw [Task.stage, houtputs]
    rfl
  refine ⟨by rw [hstage, hphase]; rfl, fun k hk => ?_, fun k hk => ?_⟩
  · rw [hinputs, KeySet.mem_insert] at hk
    have hlow : k.stage height < toLex (2, 0) := by
      rcases hk with rfl | hk
      · exact hkey
      · exact Block.stage_lt hk
    rw [hstage]
    exact hlow.trans (Prod.Lex.toLex_lt_toLex.mpr (.inl (by omega)))
  · rw [houtputs] at hk
    simp at hk

/-! ## The steps of a definition -/

namespace TypeDefinition

variable {T : Target} {d : TypeDefinition} {h : Hierarchy} {options : BuildOptions} {height : TypeKey → Nat}
  {s t : Supply}

/-- The types that the base and the interfaces mention. -/
def derivesFrom (d : TypeDefinition) : List TypeKey := TypeRef.mentionsAll (d.base.toList ++ d.interfaces)

theorem mem_supertypeKeys : k ∈ d.supertypeKeys ↔ k ∈ d.derivesFrom.map ItemKey.type := by
  rw [supertypeKeys, TypeRef.mem_addAllKeys, derivesFrom]
  simp

theorem mem_finalizeInputs :
    k ∈ d.finalizeInputs ↔ k ∈ d.derivesFrom.map ItemKey.completed ∨ k = .type d.key := by
  unfold finalizeInputs
  refine Iff.trans (@KeySet.mem_foldl ItemKey _ (fun key k => ∃ supertype, key = .type supertype ∧
    k = .completed supertype)
    k (fun key s => ?_) d.supertypeKeys.toList _) ?_
  · cases key <;> simp [@eq_comm _ k]
  rw [KeySet.mem_single]
  simp only [Std.TreeSet.mem_toList, mem_supertypeKeys, List.mem_map]
  grind

theorem staged_of_member {step : Step T} {types : List TypeRef} (houtputs : step.outputs = .single key)
    (hphase : step.phase = definePhase) (hkey : key.stage height = toLex (1, 0))
    (hinputs : step.inputs = d.memberInputs types) :
    step.Staged height := by
  refine Step.staged_of_single houtputs (by rw [hkey, hphase]; rfl) fun k hk => ?_
  rw [hinputs, mem_memberInputs] at hk
  rw [hkey]
  rcases hk with hk | rfl
  · exact TypeRef.stage_lt hk (by omega) 0
  · exact Prod.Lex.toLex_lt_toLex.mpr (.inl (by simp))

theorem propertyStep_staged (p : PropertyDefinition) : (d.propertyStep T p).Staged height := by
  refine Step.staged_of_single rfl rfl fun k hk => ?_
  rcases mem_propertyInputs.mp hk with ⟨m, -, hk⟩ | hk
  · exact m.stage_lt hk
  · rcases mem_memberInputs.mp hk with hk | rfl
    · exact TypeRef.stage_lt hk (by omega) 0
    · exact Prod.Lex.toLex_lt_toLex.mpr (.inl (by simp))

theorem MemberSteps.staged {m : Member} {defined bodies : List (Step T)}
    (hs : MemberSteps T d h options m s defined bodies t) :
    ∀ step ∈ defined ++ bodies, step.Staged height := by
  have hmethod (key : MethodKey) (m : MethodDefinition) : (d.methodStep T key m).Staged height :=
    staged_of_member rfl rfl rfl rfl
  have hconstructor (key : ConstructorKey) (c : ConstructorDefinition) : (d.constructorStep T key c).Staged height :=
    staged_of_member rfl rfl rfl rfl
  have hlow (key : ItemKey) (hkey : key.stage height = toLex (1, 0)) : key.stage height < toLex (2, 0) := by
    rw [hkey]
    exact Prod.Lex.toLex_lt_toLex.mpr (.inl (by omega))
  have hmethodBody (key : MethodKey) (b : Block) : (methodBodyStep T key b).Staged height :=
    Step.staged_of_body rfl rfl rfl (hlow (.method key) rfl)
  have hconstructorBody (key : ConstructorKey) (b : Block) : (constructorBodyStep T key b).Staged height :=
    Step.staged_of_body rfl rfl rfl (hlow (.constructor key) rfl)
  cases hs with
  | @field f =>
    have hfield : (d.fieldStep T f).Staged height := staged_of_member rfl rfl rfl rfl
    simpa using hfield
  | property => simpa using propertyStep_staged _
  | abstract => simpa using hmethod _ _
  | code | expr => simpa using ⟨hmethod _ _, hmethodBody _ _⟩
  | constructorCode | constructorExpr => simpa using ⟨hconstructor _ _, hconstructorBody _ _⟩

theorem MembersSteps.staged {ms : List Member} {defined bodies : List (Step T)}
    (hs : MembersSteps T d h options ms s defined bodies t) : ∀ step ∈ defined ++ bodies, step.Staged height := by
  induction hs with
  | nil => simp
  | cons hfirst _ ih =>
    have hown : ∀ step ∈ _, Step.Staged height step := hfirst.staged
    simp only [List.forall_mem_append] at hown ih ⊢
    exact ⟨⟨hown.1, ih.1⟩, hown.2, ih.2⟩

/-- The steps of a definition stand after all that they need, when what it derives from is lower. -/
theorem steps_staged (hheight : ∀ key ∈ d.derivesFrom, height key < height d.key) {steps : List (Step T)}
    (hs : (d.steps T h options).exec s = (.ok steps, t)) : ∀ step ∈ steps, step.Staged height := by
  obtain ⟨defined, bodies, hmembers, rfl⟩ := of_steps hs
  have hinside : ∀ step ∈ defined ++ bodies, step.Staged height := hmembers.staged
  have htype : (d.typeStep T).Staged height := by
    refine Step.staged_of_single rfl rfl fun k hk => ?_
    obtain ⟨key, hkey, rfl⟩ := List.mem_map.mp (mem_supertypeKeys.mp hk)
    exact Prod.Lex.toLex_lt_toLex.mpr (.inr ⟨rfl, hheight key hkey⟩)
  have hcomplete : (d.finalizeStep T).Staged height := by
    refine Step.staged_of_single rfl rfl fun k hk => ?_
    rcases mem_finalizeInputs.mp hk with hk | rfl
    · obtain ⟨key, hkey, rfl⟩ := List.mem_map.mp hk
      exact Prod.Lex.toLex_lt_toLex.mpr (.inr ⟨rfl, hheight key hkey⟩)
    · exact Prod.Lex.toLex_lt_toLex.mpr (.inl (by simp))
  simp only [List.cons_append, List.forall_mem_cons, List.forall_mem_append] at hinside ⊢
  exact ⟨htype, hinside, hcomplete, by simp⟩

end TypeDefinition

/-! ## What is declared -/

/-- A declaration is of the kind that its key asks for. -/
theorem TypeDefinition.HasEntries.lookup {entries : List Entry} (h : d.HasEntries entries) :
    ∀ entry ∈ entries, table.get? entry.1 = some entry.2 → table.lookup entry.1 = some entry.2 := by
  obtain ⟨hmembers⟩ := h
  refine List.forall_mem_cons.mpr ⟨fun hget => ?_, fun entry hentry hget => ?_⟩
  · simp only [Table.lookup, Table.type?]
    rw [hget]
    rfl
  obtain ⟨m, -, hm⟩ := exists_of_forall₂_right hmembers hentry
  cases m with
  | field f =>
    cases hm
    simp only [Table.lookup, Table.field?]
    rw [hget]
    rfl
  | property p =>
    cases hm
    simp only [Table.lookup, Table.property?]
    rw [hget]
    rfl
  | method m =>
    obtain ⟨key, -, hm⟩ := except_bind_ok.mp hm
    cases hm
    simp only [Table.lookup, Table.method?]
    rw [hget]
    rfl
  | constructor c =>
    obtain ⟨key, -, hm⟩ := except_bind_ok.mp hm
    cases hm
    simp only [Table.lookup, Table.constructor?]
    rw [hget]
    rfl

theorem TypeDefinition.HasEntries.type_key {entries : List Entry} (h : d.HasEntries entries) {key : TypeKey} :
    .type key ∈ entries.map (·.1) ↔ key = d.key := by
  obtain ⟨hmembers⟩ := h
  rw [List.map_cons, List.mem_cons, ItemKey.type.injEq, or_iff_left]
  intro hkey
  obtain ⟨entry, hentry, hkey⟩ := List.mem_map.mp hkey
  obtain ⟨m, -, hm⟩ := exists_of_forall₂_right hmembers hentry
  cases m with
  | field | property =>
    cases hm
    cases hkey
  | method | constructor =>
    obtain ⟨_, -, hm⟩ := except_bind_ok.mp hm
    cases hm
    cases hkey

/-- What is found under a key, other than that of a completed type, was entered under it. -/
theorem Table.get?_isSome_of_lookup (h : (table.lookup key).isSome) :
    (table.get? key).isSome ∨ ∃ type, key = .completed type ∧ (table.get? (.type type)).isSome := by
  cases key with
  | completed type =>
    refine .inr ⟨type, rfl, ?_⟩
    rw [Option.isSome_iff_ne_none]
    intro hget
    simp only [lookup, type?] at h
    rw [hget] at h
    cases h
  | _ =>
    refine .inl ?_
    rw [Option.isSome_iff_ne_none]
    intro hget
    simp only [lookup, type?, method?, constructor?, field?, property?] at h
    rw [hget] at h
    cases h

namespace Module.Declares

variable {m : Module} {catalog : Metadata} {table : Table} {closures : DefinitionMap} {declared : Declared}

/-- The keys that are declared are those that the definitions enter and the completed forms of their types. -/
theorem lookup_isSome (h : m.Declares catalog table closures declared) {entries : List (List Entry)}
    (hentries : List.Forall₂ TypeDefinition.HasEntries declared.definitions entries) :
    (declared.table.lookup key).isSome ↔
      key ∈ entries.flatten.map (·.1) ++ declared.definitions.map fun d => .completed d.key := by
  have hget {key : ItemKey} {decl : Declaration} : declared.table.get? key = some decl ↔
      (key, decl) ∈ entries.flatten := by
    rw [(h.entered hentries).get?, or_iff_left]
    simp
  have hentered (key : ItemKey) : (declared.table.get? key).isSome ↔ key ∈ entries.flatten.map (·.1) := by
    rw [Option.isSome_iff_exists]
    constructor
    · rintro ⟨decl, hdecl⟩
      exact List.mem_map.mpr ⟨(key, decl), hget.mp hdecl, rfl⟩
    · intro hkey
      obtain ⟨⟨_, decl⟩, hentry, rfl⟩ := List.mem_map.mp hkey
      exact ⟨decl, hget.mpr hentry⟩
  have hfound : ∀ key ∈ entries.flatten.map (·.1), (declared.table.lookup key).isSome := by
    intro key hkey
    obtain ⟨entry, hentry, rfl⟩ := List.mem_map.mp hkey
    obtain ⟨list, hlist, hin⟩ := List.mem_flatten.mp hentry
    obtain ⟨d, -, hd⟩ := exists_of_forall₂_right hentries hlist
    rw [hd.lookup entry hin (hget.mpr hentry)]
    rfl
  rw [List.mem_append]
  constructor
  · intro hkey
    rcases Table.get?_isSome_of_lookup hkey with hget | ⟨type, rfl, hget⟩
    · exact .inl ((hentered key).mp hget)
    · obtain ⟨entry, hentry, htype⟩ := List.mem_map.mp ((hentered _).mp hget)
      obtain ⟨list, hlist, hin⟩ := List.mem_flatten.mp hentry
      obtain ⟨d, hd, hdlist⟩ := exists_of_forall₂_right hentries hlist
      have hkey := hdlist.type_key.mp (List.mem_map.mpr ⟨entry, hin, htype⟩)
      exact .inr (List.mem_map.mpr ⟨d, hd, by rw [hkey]⟩)
  · rintro (hkey | hkey)
    · exact hfound key hkey
    · obtain ⟨d, hd, rfl⟩ := List.mem_map.mp hkey
      have htype := hfound (.type d.key) ((TypeDefinition.types_sublist hentries).subset (List.mem_map_of_mem hd))
      exact htype

end Module.Declares

/-- The base or an interface of one type mentions the other. -/
def Declared.DerivesFrom (declared : Declared) (key other : TypeKey) : Prop :=
  ∃ d ∈ declared.definitions, d.key = key ∧ other ∈ d.derivesFrom

/-! ## Schedules -/

/-- The task at the place makes the key. -/
def Task.makesAt (tasks : List Task) (key : ItemKey) (i : Nat) : Bool := tasks[i]?.any fun t => t.outputs.contains key

theorem Task.makesAt_iff {i : Nat} : makesAt tasks key i ↔ ∃ t, tasks[i]? = some t ∧ key ∈ t.outputs := by
  simp [makesAt, Option.any_eq_true]

theorem Task.Schedule.split {order : List Nat} (hschedule : Schedule tasks order) (ht : t ∈ tasks) :
    ∃ before i after, order = before ++ i :: after ∧ tasks[i]? = some t := by
  obtain ⟨i, hi⟩ := List.mem_iff_getElem?.mp ht
  have hmem : i ∈ order := by
    rw [hschedule.perm.mem_iff, List.mem_range]
    exact (List.getElem?_eq_some_iff.mp hi).1
  obtain ⟨before, after, rfl⟩ := List.append_of_mem hmem
  exact ⟨before, i, after, rfl, hi⟩

/-- What a task needs is made before what it makes. -/
theorem Task.Schedule.findIdx_lt {order : List Nat} (hone : OneMaker tasks) (hschedule : Schedule tasks order)
    (ht : t ∈ tasks) {made needed : ItemKey} (hmade : made ∈ t.outputs) (hneeded : needed ∈ t.inputs) :
    order.findIdx (makesAt tasks needed) < order.findIdx (makesAt tasks made) := by
  obtain ⟨before, i, after, rfl, hi⟩ := hschedule.split ht
  obtain ⟨j, hj, hmaker⟩ := hschedule.fed before i after t rfl hi needed hneeded
  have hearly : before.findIdx (makesAt tasks needed) < before.length :=
    List.findIdx_lt_length_of_exists ⟨j, hj, makesAt_iff.mpr hmaker⟩
  have hlate : ¬ before.findIdx (makesAt tasks made) < before.length := by
    intro hlt
    obtain ⟨k, hk, hmaker⟩ := List.findIdx_lt_length.mp hlt
    obtain ⟨u, hu, hout⟩ := makesAt_iff.mp hmaker
    obtain rfl := hone k i u t made hu hi hout hmade
    have hnodup := hschedule.perm.nodup_iff.mpr List.nodup_range
    exact (List.nodup_append.mp hnodup).2.2 k hk k List.mem_cons_self rfl
  rw [List.findIdx_append, List.findIdx_append, if_pos hearly, if_neg hlate]
  omega

/-- A relation that goes down in a measure has no cycle. -/
theorem not_transGen_self {R : α → α → Prop} (height : α → Nat) (h : ∀ a b, R a b → height b < height a) (a : α) :
    ¬ Relation.TransGen R a a := by
  have hlt : ∀ {b}, Relation.TransGen R a b → height b < height a := by
    intro b hb
    induction hb with
    | single hab => exact h _ _ hab
    | tail _ hbc ih => exact (h _ _ hbc).trans ih
  exact fun hcycle => Nat.lt_irrefl _ (hlt hcycle)

namespace Module

variable {T : Target} {m : Module} {catalog : Metadata} {options : BuildOptions} {declared : Declared} {s t : Supply}
  {steps : List (Step T)}

/-- The steps of a module make what it declares, each key once. -/
theorem mem_makes_iff (hdeclare : m.declare catalog = .ok declared)
    (hsteps : (declared.steps T catalog options).exec s = (.ok steps, t)) :
    Task.OneMaker (Step.tasks steps) ∧ ∀ key, key ∈ Step.makes steps ↔ (declared.table.lookup key).isSome := by
  obtain ⟨table, closures, hdeclares⟩ := of_declare hdeclare
  obtain ⟨entries, hentries, hperm⟩ := stepsOfAll_make hsteps
  refine ⟨Task.oneMaker_of_nodup (hperm.nodup_iff.mpr (hdeclares.nodup hentries).2), fun key => ?_⟩
  rw [hperm.mem_iff, hdeclares.lookup_isSome hentries]

/-- A type is made by a step that needs all it derives from. -/
theorem typeStep_mem (hsteps : (declared.steps T catalog options).exec s = (.ok steps, t))
    (hd : d ∈ declared.definitions) :
    d.typeStep T ∈ steps := by
  obtain ⟨s', own, t', hown, hsub⟩ := subset_stepsOfAll hsteps d hd
  obtain ⟨defined, bodies, -, rfl⟩ := TypeDefinition.of_steps hown
  exact hsub (by simp)

/-- The steps of a module can be planned exactly when every key that a step needs is declared and no type derives from
    itself through bases and interfaces, whatever else members, bodies and types say about each other. -/
theorem plan_succeeds_iff (hdeclare : m.declare catalog = .ok declared)
    (hsteps : (declared.steps T catalog options).exec s = (.ok steps, t)) :
    (∃ order, Task.plan (Step.tasks steps) = .ok order) ↔
      (∀ step ∈ steps, ∀ key ∈ step.inputs, (declared.table.lookup key).isSome = true) ∧
        ∀ key, ¬ Relation.TransGen declared.DerivesFrom key key := by
  obtain ⟨hone, hmakes⟩ := mem_makes_iff hdeclare hsteps
  have hmaker {key : ItemKey} : key ∈ Step.makes steps ↔ ∃ step ∈ steps, key ∈ step.outputs := by
    simp [Step.makes, Std.TreeSet.mem_toList]
  constructor
  · rintro ⟨order, hplan⟩
    obtain ⟨-, hschedule⟩ := Task.plan_completes hplan
    let time (key : TypeKey) := order.findIdx (Task.makesAt (Step.tasks steps) (.type key))
    refine ⟨fun step hstep key hkey => ?_, not_transGen_self time ?_⟩
    · obtain ⟨before, i, after, hsplit, hi⟩ := hschedule.split (List.mem_map_of_mem hstep)
      obtain ⟨j, -, u, hu, hout⟩ := hschedule.fed before i after _ hsplit hi key hkey
      obtain ⟨maker, hmem, rfl⟩ := List.mem_map.mp (List.mem_of_getElem? hu)
      exact (hmakes key).mp (hmaker.mpr ⟨maker, hmem, hout⟩)
    · rintro key other ⟨d, hd, rfl, hother⟩
      refine hschedule.findIdx_lt hone (List.mem_map_of_mem (typeStep_mem hsteps hd)) (KeySet.mem_single.mpr rfl) ?_
      exact TypeDefinition.mem_supertypeKeys.mpr (List.mem_map_of_mem hother)
  · rintro ⟨hdeclared, hacyclic⟩
    have hfinite : ∀ key other, declared.DerivesFrom key other →
        other ∈ ((Step.makes steps).map ItemKey.owner).toFinset := by
      rintro key other ⟨d, hd, rfl, hother⟩
      have hneeded := TypeDefinition.mem_supertypeKeys.mpr (List.mem_map_of_mem hother)
      have hmade := (hmakes _).mpr (hdeclared _ (typeStep_mem hsteps hd) _ hneeded)
      exact List.mem_toFinset.mpr (List.mem_map.mpr ⟨_, hmade, rfl⟩)
    obtain ⟨height, hheight⟩ := exists_height hfinite hacyclic
    have hstaged : ∀ step ∈ steps, step.Staged height := by
      intro step hstep
      obtain ⟨d, hd, s', own, t', hown, hstep⟩ := of_mem_stepsOfAll hsteps step hstep
      exact TypeDefinition.steps_staged (fun key hkey => hheight d.key key ⟨d, hd, rfl, hkey⟩) hown step hstep
    obtain ⟨order, hschedule⟩ : ∃ order, Task.Schedule (Step.tasks steps) order := by
      refine Task.exists_schedule (Task.stage height) ?_ ?_
      · simp only [Step.tasks, List.forall_mem_map]
        exact fun a ha b hb hle => (hstaged a ha).phase_le (hstaged b hb) hle
      · simp only [Step.tasks, List.forall_mem_map]
        intro step hstep key hkey
        obtain ⟨maker, hmaker, hout⟩ := hmaker.mp ((hmakes key).mpr (hdeclared step hstep key hkey))
        refine ⟨_, List.mem_map_of_mem hmaker, hout, ?_⟩
        rw [(hstaged maker hmaker).makes key hout]
        exact (hstaged step hstep).above key hkey
    obtain ⟨least, hplan, -⟩ := Task.plan_least hone hschedule
    exact ⟨least, hplan⟩

/-- A class that derives from one defined after it. Each mentions the other in a field, a property and raw code. -/
def mutualReferences : Module where
  types := [
    { key := ⟨"Odd"⟩, base := some (.deferred ⟨"Even"⟩)
      members := [
        .property { name := "next", attributes := {}, propertyType := .deferred ⟨"Even"⟩,
                    getter := some (.deferred (even.method "test" [.i32] false)), setter := none },
        .field { name := "even", attributes := {}, fieldType := .cell (.deferred ⟨"Even"⟩) },
        .method { name := "test", attributes := { isStatic := true }, returnType := .bool
                  body := .code [.i32] (.ofCode [.loadArg 0, .call (.deferred (even.method "test" [.i32] false)) false,
                    .op .ret]) }] },
    { key := even
      members := [
        .field { name := "odd", attributes := {}, fieldType := .delegate [.deferred ⟨"Odd"⟩] .bool },
        .method { name := "test", attributes := { isStatic := true }, returnType := .bool
                  body := .code [.i32] (.ofCode [.loadArg 0, .call (.deferred (odd.method "test" [.i32] false)) false,
                    .op .ret]) }] }]
where
  even : TypeKey := ⟨"Even"⟩
  odd : TypeKey := ⟨"Odd"⟩

theorem mutualReferences_planned : ∃ declared steps t, mutualReferences.declare ∅ = .ok declared ∧
    (declared.steps recorder ∅ {}).exec {} = (.ok steps, t) ∧ (∃ order, Task.plan (Step.tasks steps) = .ok order) ∧
    declared.DerivesFrom ⟨"Odd"⟩ ⟨"Even"⟩ ∧ ∀ key, ¬ Relation.TransGen declared.DerivesFrom key key := by
  have hplans : (mutualReferences.declare ∅ >>= fun declared => ((declared.steps recorder ∅ {}).exec {}).1 >>=
      fun steps =>
      Task.plan (Step.tasks steps)).isOk = true := by
    decide +kernel
  cases hdeclare : mutualReferences.declare ∅ with
  | error e =>
    rw [hdeclare] at hplans
    cases hplans
  | ok declared =>
    rcases hsteps : (declared.steps recorder ∅ {}).exec {} with ⟨_ | steps, t⟩
    · simp [hdeclare, hsteps, bind, Except.bind, Except.isOk, Except.toBool] at hplans
    · cases hplan : Task.plan (Step.tasks steps) with
      | error e => simp [hdeclare, hsteps, hplan, bind, Except.bind, Except.isOk, Except.toBool] at hplans
      | ok order =>
        obtain ⟨table, closures, hdeclares⟩ := of_declare hdeclare
        have hderives : declared.DerivesFrom ⟨"Odd"⟩ ⟨"Even"⟩ := by
          refine ⟨_, hdeclares.definitions ▸ List.mem_append_left _ List.mem_cons_self, rfl, ?_⟩
          exact List.mem_cons_self
        exact ⟨declared, steps, t, rfl, hsteps, ⟨order, hplan⟩, hderives,
          ((plan_succeeds_iff hdeclare hsteps).mp ⟨order, hplan⟩).2⟩

end Module

end Stackwright
