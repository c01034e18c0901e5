import Stackwright.Proofs.Renaming
import Stackwright.Proofs.Steps

/-
  Stackwright.Proofs.Builds — a build does everything or nothing.

  Everything that can be wrong with a module is found while its steps are made and planned. From
  then on, on a reliable target, every step is carried out: the steps make the keys of the
  module's table and the completed forms of its types, each of them once.
-/

namespace Stackwright

variable {ds : List TypeDefinition} {table : Table} {declared : Declared}
variable {m : Module} {T : Target} {s t : Supply} {d : TypeDefinition}

/-! ## Errors -/

namespace Body

variable (b : Body)

theorem paramsAfterReceiver_orderly (owner : TypeKey) (what : String) : Orderly (b.paramsAfterReceiver owner what) := by
  unfold paramsAfterReceiver
  split
  · exact .error rfl
  · exact .ite (.ok _) (.error rfl)

end Body

/-! ## Declarations -/

theorem Table.declare_orderly (t : Table) (key : ItemKey) (decl : Declaration) : Orderly (t.declare key decl) :=
  .ite (.error rfl) (.ok _)

namespace TypeDefinition

variable (d : TypeDefinition)

theorem methodKey_orderly (m : MethodDefinition) : Orderly (d.methodKey m) := by
  unfold methodKey
  cases m.body with
  | code | abstract => exact .ok _
  | expr body => exact .ite ((body.paramsAfterReceiver_orderly _ _).bind fun _ => .ok _) (.ok _)

theorem constructorKey_orderly (c : ConstructorDefinition) : Orderly (d.constructorKey c) := by
  unfold constructorKey
  cases c.body with
  | code => exact .ok _
  | expr body base => exact (body.paramsAfterReceiver_orderly _ _).bind fun _ => .ok _

theorem declareMember_orderly (t : Table) (m : Member) : Orderly (d.declareMember t m) := by
  cases m with
  | field | property => exact t.declare_orderly _ _
  | method m => exact (d.methodKey_orderly m).bind fun _ => t.declare_orderly _ _
  | constructor c => exact (d.constructorKey_orderly c).bind fun _ => t.declare_orderly _ _

theorem declare_orderly (t : Table) : Orderly (d.declare t) :=
  (t.declare_orderly _ _).bind fun _ => .foldlM d.declareMember_orderly _ _

end TypeDefinition

theorem Member.closures_orderly (h : Hierarchy) (m : Member) : Orderly (m.closures h) := by
  unfold closures
  split
  · exact Expr.closures_orderly _ _
  · exact (Orderly.mapM (fun e => Expr.closures_orderly e _) _).bind fun _ => .ok _
  · exact .ok _

theorem DefinitionMap.add_orderly (m : DefinitionMap) (d : TypeDefinition) : Orderly (m.add d) := by
  unfold add
  split
  · exact .ok _
  · exact .ite (.error rfl) (.ok _)

theorem DefinitionMap.addClosures_orderly (h : Hierarchy) (m : DefinitionMap) (d : TypeDefinition) :
    Orderly (m.addClosures h d) :=
  ((Orderly.mapM (Member.closures_orderly h) d.members).bind fun _ => .ok _).bind fun _ => .foldlM add_orderly _ _

theorem declareAll_orderly (t : Table) (definitions : List TypeDefinition) : Orderly (declareAll t definitions) :=
  .foldlM (fun t d => d.declare_orderly t) _ _

theorem Module.declare_orderly (m : Module) (catalog : Metadata) : Orderly (m.declare catalog) :=
  (declareAll_orderly _ _).bind fun _ => (Orderly.foldlM (DefinitionMap.addClosures_orderly _) _ _).bind fun _ =>
    (declareAll_orderly _ _).bind fun _ => .ok _

theorem Task.planPhases_orderly (tasks : List Task) : ∀ (phases : List Nat) (available : KeySet),
    Orderly (planPhases tasks available phases)
  | [], _ => .ok _
  | _ :: phases, _ => .ite ((planPhases_orderly tasks phases _).bind fun _ => .ok _) (.error rfl)

theorem Task.plan_orderly {tasks : List Task} (h : OneMaker tasks) : Orderly (plan tasks) := by
  rw [plan, madeTwice?_eq_none_iff_oneMaker.mpr h]
  exact planPhases_orderly _ _ _

namespace TypeDefinition

open Effect.Orderly (pure lift)

variable (T : Target) (d : TypeDefinition) (h : Hierarchy) (options : BuildOptions)

theorem memberSteps_orderly (m : Member) : (d.memberSteps T h options m).Orderly := by
  cases m with
  | field | property => exact pure _
  | method m =>
    refine (lift (d.methodKey_orderly m)).bind fun key => ?_
    cases m.body with
    | code | abstract => exact pure _
    | expr body => exact (body.compileMethod_shifts 0 (.refl True h) options _).orderly.bind fun _ => pure _
  | constructor c =>
    refine (lift (d.constructorKey_orderly c)).bind fun key => ?_
    cases c.body with
    | code => exact pure _
    | expr body base => exact (body.compileConstructor_shifts 0 (.refl True h) options _).orderly.bind fun _ => pure _

theorem allMemberSteps_orderly : ∀ ms : List Member, (d.allMemberSteps T h options ms).Orderly
  | [] => pure _
  | m :: ms => (d.memberSteps_orderly T h options m).bind fun _ => (allMemberSteps_orderly ms).bind fun _ => pure _

theorem steps_orderly : (d.steps T h options).Orderly :=
  (d.allMemberSteps_orderly T h options d.members).bind fun _ => pure _

end TypeDefinition

theorem Declared.steps_orderly (T : Target) (d : Declared) (catalog : Metadata) (options : BuildOptions) :
    (d.steps T catalog options).Orderly := by
  unfold Declared.steps
  induction d.definitions with
  | nil => exact .pure _
  | cons d ds ih => exact (d.steps_orderly T _ options).bind fun _ => ih.bind fun _ => .pure _

/-! ## Completed types -/

namespace Slots

variable {H : Handles}

/-- What a slot adds to the completed types. -/
def completed? : (key : ItemKey) × Slot (H.At key) → Option (TypeKey × H.Completed)
  | ⟨.completed key, slot⟩ => slot.content.map fun handle => (key, handle)
  | _ => none

theorem completedTypes_eq (s : Slots H) : s.completedTypes = s.toList.filterMap completed? := rfl

theorem completed?_eq_some {entry : (key : ItemKey) × Slot (H.At key)} {c : TypeKey × H.Completed}
    (h : completed? entry = some c) : entry.1 = .completed c.1 ∧ entry.2.isWritten := by
  obtain ⟨item, slot⟩ := entry
  cases item with
  | completed key =>
    obtain ⟨v, hv, rfl⟩ := Option.map_eq_some_iff.mp h
    exact ⟨rfl, Option.isSome_iff_exists.mpr ⟨v, hv⟩⟩
  | _ => cases h

theorem mem_completedTypes {s : Slots H} {key : TypeKey} :
    key ∈ s.completedTypes.map (·.1) ↔ s.state? (.completed key) = some true := by
  rw [completedTypes_eq]
  constructor
  · intro h
    obtain ⟨c, hc, rfl⟩ := List.mem_map.mp h
    obtain ⟨⟨item, slot⟩, hslot, hentry⟩ := List.mem_filterMap.mp hc
    obtain ⟨rfl, hwritten⟩ := completed?_eq_some hentry
    rw [state?, Std.DTreeMap.mem_toList_iff_get?_eq_some.mp hslot]
    exact congrArg some hwritten
  · intro h
    obtain ⟨slot, hslot, hwritten⟩ := Option.map_eq_some_iff.mp h
    obtain ⟨v, hv⟩ := Option.isSome_iff_exists.mp hwritten
    refine List.mem_map.mpr ⟨(key, v), List.mem_filterMap.mpr ⟨⟨.completed key, slot⟩, ?_, ?_⟩, rfl⟩
    · exact Std.DTreeMap.mem_toList_iff_get?_eq_some.mpr hslot
    · exact Option.map_eq_some_iff.mpr ⟨v, hv, rfl⟩

theorem nodup_completedTypes (s : Slots H) : (s.completedTypes.map (·.1)).Nodup := by
  rw [completedTypes_eq, List.Nodup, List.pairwise_map, List.pairwise_filterMap]
  refine Std.DTreeMap.distinct_keys_toList.imp fun {a b} hne c hc c' hc' heq => hne ?_
  rw [(completed?_eq_some hc).1, (completed?_eq_some hc').1, heq]
  exact Std.ReflCmp.compare_self

end Slots

/-! ## The steps of a module -/

/-- The member's body is raw code. -/
def Member.isRaw : Member → Bool
  | .method { body := .code _ _, .. } => true
  | .constructor { body := .code _ _, .. } => true
  | _ => false

theorem Member.stands_of_not_isRaw {m : Member} (h : m.isRaw = false) : m.Stands := by
  unfold isRaw at h
  unfold Stands
  split
  · cases h
  · cases h
  · trivial

/-- The only raw code of a closure stores the cells. -/
theorem ClosureLayout.definition_stands (l : ClosureLayout) : ∀ m ∈ l.definition.members, m.Stands := by
  have hcells : ∀ (captures : List (Symbol × TypeRef)) (index : Nat), Reads [] (l.storeCells index captures) := by
    intro captures
    induction captures with
    | nil => exact fun _ => .nil
    | cons c captures ih =>
      intro index
      exact .cons ⟨rfl, rfl, by simp [Instr.local?], rfl⟩ (.cons ⟨rfl, rfl, by simp [Instr.local?], rfl⟩
        (.cons ⟨rfl, rfl, by simp [Instr.local?], rfl⟩ (ih (index + 1))))
  have hstart : Reads [] [.loadArg 0, .callConstructor (.existing .object)] :=
    .cons ⟨rfl, rfl, by simp [Instr.local?], rfl⟩ (.cons ⟨rfl, rfl, by simp [Instr.local?], rfl⟩ .nil)
  have hcode := (hstart.append (hcells l.captures 1)).append (reads_retIf [] true)
  simp only [definition, List.forall_mem_append, List.forall_mem_map, List.forall_mem_cons]
  exact ⟨fun _ _ => trivial, ⟨{}, {}, .ofReads hcode⟩, trivial, by simp⟩

theorem stepsOfAll_make {T : Target} {h : Hierarchy} {options : BuildOptions} :
    ∀ {ds : List TypeDefinition} {s t : Supply}
    {steps : List (Step T)}, (stepsOfAll T h options ds).exec s = (.ok steps, t) →
      ∃ entries, List.Forall₂ TypeDefinition.HasEntries ds entries ∧
        (Step.makes steps).Perm (entries.flatten.map (·.1) ++ ds.map fun d => .completed d.key)
  | [], _, _, _, hs => by
    cases hs
    exact ⟨[], .nil, .refl _⟩
  | d :: ds, _, _, _, hs => by
    obtain ⟨first, s₁, hfirst, hs⟩ := Effect.exec_bind_ok.mp hs
    obtain ⟨rest, s₂, hrest, hs⟩ := Effect.exec_bind_ok.mp hs
    cases hs
    obtain ⟨own, hown, hmakes⟩ := TypeDefinition.steps_make hfirst
    obtain ⟨entries, hentries, hperm⟩ := stepsOfAll_make hrest
    refine ⟨own :: entries, .cons hown hentries, ?_⟩
    rw [Step.makes_append, hmakes, List.flatten_cons, List.map_append, List.map_cons, List.append_assoc,
      List.append_assoc]
    refine List.Perm.append_left _ ?_
    exact (hperm.cons _).trans List.perm_middle.symm

/-- Every step is one of a definition. -/
theorem of_mem_stepsOfAll {T : Target} {h : Hierarchy} {options : BuildOptions} :
    ∀ {ds : List TypeDefinition} {s t : Supply}
    {steps : List (Step T)}, (stepsOfAll T h options ds).exec s = (.ok steps, t) → ∀ step ∈ steps, ∃ d ∈ ds,
      ∃ s' own t', (d.steps T h options).exec s' = (.ok own, t') ∧ step ∈ own
  | [], _, _, _, hs, step, hstep => by
    cases hs
    cases hstep
  | d :: ds, _, _, _, hs, step, hstep => by
    obtain ⟨first, s₁, hfirst, hs⟩ := Effect.exec_bind_ok.mp hs
    obtain ⟨rest, s₂, hrest, hs⟩ := Effect.exec_bind_ok.mp hs
    cases hs
    rcases List.mem_append.mp hstep with hstep | hstep
    · exact ⟨d, List.mem_cons_self, _, first, _, hfirst, hstep⟩
    · obtain ⟨d', hd', hown⟩ := of_mem_stepsOfAll hrest step hstep
      exact ⟨d', List.mem_cons_of_mem _ hd', hown⟩

/-- Every definition has its steps among those of all. -/
theorem subset_stepsOfAll {T : Target} {h : Hierarchy} {options : BuildOptions} :
    ∀ {ds : List TypeDefinition} {s t : Supply}
    {steps : List (Step T)}, (stepsOfAll T h options ds).exec s = (.ok steps, t) → ∀ d ∈ ds,
      ∃ s' own t', (d.steps T h options).exec s' = (.ok own, t') ∧ own ⊆ steps
  | [], _, _, _, _, d, hd => by cases hd
  | d :: ds, _, _, _, hs, d', hd' => by
    obtain ⟨first, s₁, hfirst, hs⟩ := Effect.exec_bind_ok.mp hs
    obtain ⟨rest, s₂, hrest, hs⟩ := Effect.exec_bind_ok.mp hs
    cases hs
    rcases List.mem_cons.mp hd' with rfl | hd'
    · exact ⟨_, first, _, hfirst, List.subset_append_left _ _⟩
    · obtain ⟨s', own, t', hown, hsub⟩ := subset_stepsOfAll hrest d' hd'
      exact ⟨s', own, t', hown, List.subset_append_of_subset_right _ hsub⟩

theorem stepsOfAll_deliver {P : String → Prop} {h : Hierarchy} {options : BuildOptions} (hT : T.Reliable P)
    (htable : h.table.Names P) {steps : List (Step T)} (hds : ∀ d ∈ ds, d.Names P)
      (hstands : ∀ d ∈ ds, ∀ m ∈ d.members, m.Stands)
    (hs : (stepsOfAll T h options ds).exec s = (.ok steps, t)) :
    ∀ step ∈ steps, step.Delivers := by
  intro step hstep
  obtain ⟨d, hd, s', own, t', hown, hstep⟩ := of_mem_stepsOfAll hs step hstep
  exact TypeDefinition.steps_deliver hT (hds d hd) htable (hstands d hd) hown step hstep

theorem Task.oneMaker_of_nodup {steps : List (Step T)} (h : (Step.makes steps).Nodup) :
    OneMaker (Step.tasks steps) := by
  rw [oneMaker_iff_pairwise, List.pairwise_map]
  refine (List.pairwise_flatMap.mp h).2.imp fun {a b} hne key ha hb => ?_
  exact hne key (Std.TreeSet.mem_toList.mpr ha) key (Std.TreeSet.mem_toList.mpr hb) rfl

/-! ## Keys are made once -/

namespace TypeDefinition

theorem HasEntries.unique {entries others : List Entry} (h : d.HasEntries entries) (h' : d.HasEntries others)
    : entries = others := by
  obtain ⟨hmembers⟩ := h
  obtain ⟨hothers⟩ := h'
  refine congrArg _ (List.right_unique_forall₂' (fun m e e' he he' => ?_) hmembers hothers)
  rw [he] at he'
  cases he'
  rfl

theorem HasEntries.not_completed {entries : List Entry} (h : d.HasEntries entries) :
    ∀ entry ∈ entries, ∀ key, entry.1 ≠ .completed key := by
  obtain ⟨hmembers⟩ := h
  refine List.forall_mem_cons.mpr ⟨by simp, fun entry hentry => ?_⟩
  obtain ⟨m, -, hm⟩ := exists_of_forall₂_right hmembers hentry
  cases m with
  | field | property =>
    cases hm
    simp
  | method | constructor =>
    obtain ⟨key, -, hm⟩ := except_bind_ok.mp hm
    cases hm
    simp

/-- Every definition enters its own key. -/
theorem types_sublist {entries : List (List Entry)} (h : List.Forall₂ HasEntries ds entries) :
    (ds.map fun d => ItemKey.type d.key).Sublist (entries.flatten.map (·.1)) := by
  induction h with
  | nil => exact .refl _
  | cons hd _ ih =>
    obtain ⟨-⟩ := hd
    rw [List.flatten_cons, List.map_append]
    exact (ih.trans (List.sublist_append_right _ _)).cons_cons _

end TypeDefinition

/-- The table holds the entries of all definitions, and nothing else. -/
theorem Module.Declares.entered {catalog : Metadata} {closures : DefinitionMap}
    (h : m.Declares catalog table closures declared)
    {entries : List (List Entry)} (hentries : List.Forall₂ TypeDefinition.HasEntries declared.definitions entries) :
    Stackwright.Declares ∅ entries.flatten declared.table := by
  obtain ⟨own, added, hown, hadded, htypes, hrest⟩ := h.entries
  have hall : List.Forall₂ TypeDefinition.HasEntries declared.definitions (own ++ added) := by
    rw [h.definitions]
    exact List.rel_append hown hadded
  have hunique : Relator.RightUnique TypeDefinition.HasEntries := fun _ _ _ h h' => h.unique h'
  obtain rfl := List.right_unique_forall₂' hunique hall hentries
  rw [List.flatten_append]
  exact htypes.append hrest

theorem Module.Declares.hasEntries {catalog : Metadata} {closures : DefinitionMap}
    (h : m.Declares catalog table closures declared) :
    ∃ entries, List.Forall₂ TypeDefinition.HasEntries declared.definitions entries := by
  obtain ⟨own, added, hown, hadded, -⟩ := h.entries
  rw [h.definitions]
  exact ⟨_, List.rel_append hown hadded⟩

theorem Module.Declares.nodup {catalog : Metadata} {closures : DefinitionMap}
    (h : m.Declares catalog table closures declared)
    {entries : List (List Entry)} (hentries : List.Forall₂ TypeDefinition.HasEntries declared.definitions entries) :
    (declared.definitions.map (·.key)).Nodup ∧
      (entries.flatten.map (·.1) ++ declared.definitions.map fun d => ItemKey.completed d.key).Nodup := by
  have hkeys := (h.entered hentries).distinct.1
  have htypeKeys := (TypeDefinition.types_sublist hentries).nodup hkeys
  have hdefs : (declared.definitions.map (·.key)).Nodup := by
    rw [List.Nodup, List.pairwise_map] at htypeKeys ⊢
    exact htypeKeys.imp fun hne heq => hne (congrArg ItemKey.type heq)
  refine ⟨hdefs, List.nodup_append.mpr ⟨hkeys, ?_, ?_⟩⟩
  · rw [List.Nodup, List.pairwise_map] at hdefs ⊢
    exact hdefs.imp fun hne heq => hne (ItemKey.completed.inj heq)
  · rintro key hkey _ hcompleted rfl
    obtain ⟨entry, hentry, rfl⟩ := List.mem_map.mp hkey
    obtain ⟨list, hlist, hentry⟩ := List.mem_flatten.mp hentry
    obtain ⟨d, -, hd⟩ := exists_of_forall₂_right hentries hlist
    obtain ⟨d', -, heq⟩ := List.mem_map.mp hcompleted
    exact hd.not_completed entry hentry _ heq.symm

/-! ## Builds -/

namespace Module

open Effect

variable {T : Target} {P : String → Prop} {m : Module} {catalog : Metadata} {options : BuildOptions}

/-- What a build does once the steps are made. -/
theorem exec_build (hdeclare : m.declare catalog = .ok declared) {steps : List (Step T)}
    (hsteps : (declared.steps T catalog options).exec s = (.ok steps, t)) {program : T.State}
    {outcome : Except BuildError (List String)} {after : Workspace T}
    (hexecute : (Step.execute steps).exec { program } = (outcome, after)) :
    (m.build T catalog options).exec ⟨s, program⟩ =
      (outcome.map fun executed => { slots := after.slots, table := declared.table, executed },
        ⟨t, after.program⟩) := by
  simp only [build, hdeclare, exec_bind, exec_lift, exec_zoom, hsteps, exec_get, hexecute, exec_modify]
  cases outcome <;> rfl

/-- A build that succeeded has declared, made and carried out everything. -/
theorem of_build_ok {program : T.State} {built : Built T} {after : BuildState T}
    (h : (m.build T catalog options).exec ⟨s, program⟩ = (.ok built, after)) :
    ∃ declared steps t texts w, m.declare catalog = .ok declared ∧
      (declared.steps T catalog options).exec s = (.ok steps, t) ∧ (Step.execute steps).exec { program } =
      (.ok texts, w) ∧ built.slots = w.slots ∧ built.table = declared.table ∧ after.program = w.program := by
  obtain ⟨declared, hdeclare, h₁⟩ := exec_lift_bind_ok.mp h
  obtain ⟨steps, state, hzoom, -⟩ := exec_bind_ok.mp h₁
  rw [exec_zoom] at hzoom
  obtain ⟨hok, -⟩ := Prod.mk.inj hzoom
  have hsteps : (declared.steps T catalog options).exec s = (.ok steps, _) := Prod.ext hok rfl
  rcases hexecute : (Step.execute steps).exec { program } with ⟨outcome, w⟩
  rw [exec_build hdeclare hsteps hexecute] at h
  cases outcome with
  | error e => cases h
  | ok texts =>
    cases h
    exact ⟨declared, steps, _, texts, w, hdeclare, hsteps, hexecute, rfl, rfl, rfl⟩

/-- A module whose steps were made: they deliver, and each key is made once. -/
theorem steps_deliver (hT : T.Reliable P) (hm : m.Names P)
    (hraw : ∀ d ∈ m.types, ∀ member ∈ d.members, member.isRaw = false)
    (hdeclare : m.declare catalog = .ok declared) {steps : List (Step T)}
    (hsteps : (declared.steps T catalog options).exec s = (.ok steps, t)) :
    (∀ step ∈ steps, step.Delivers) ∧ (Step.makes steps).Nodup ∧ (declared.definitions.map (·.key)).Nodup ∧
      ∀ key, .completed key ∈ Step.makes steps ↔ key ∈ declared.definitions.map (·.key) := by
  obtain ⟨table, closures, hdeclares⟩ := of_declare hdeclare
  obtain ⟨hnames, htable⟩ := hdeclares.names hm
  have hstands : ∀ d ∈ declared.definitions, ∀ member ∈ d.members, member.Stands := by
    intro d hd member hmember
    rw [hdeclares.definitions] at hd
    rcases List.mem_append.mp hd with hd | hd
    · exact Member.stands_of_not_isRaw (hraw d hd member hmember)
    · obtain ⟨_, _, layout, -, -, rfl⟩ := hdeclares.only hd
      exact layout.definition_stands member hmember
  have hdeliver := stepsOfAll_deliver hT htable hnames hstands hsteps
  obtain ⟨entries, hentries, hperm⟩ := stepsOfAll_make hsteps
  obtain ⟨hkeys, hnodup⟩ := hdeclares.nodup hentries
  refine ⟨hdeliver, hperm.nodup_iff.mpr hnodup, hkeys, fun key => ?_⟩
  rw [hperm.mem_iff, List.mem_append, List.mem_map (f := fun d : TypeDefinition => d.key)]
  constructor
  · rintro (hkey | hkey)
    · obtain ⟨entry, hentry, hkey⟩ := List.mem_map.mp hkey
      obtain ⟨list, hlist, hentry⟩ := List.mem_flatten.mp hentry
      obtain ⟨d, -, hd⟩ := exists_of_forall₂_right hentries hlist
      exact absurd hkey (hd.not_completed entry hentry key)
    · simpa using hkey
  · intro hkey
    exact .inr (by simpa using hkey)

/-- A build of a module without raw code on a reliable target: either the module is refused before the target is asked
    for anything, whatever the target holds, and the error is no internal one; or everything is built, with one
    completed type for each definition, those for lambdas included. The recorder is reliable for all names but the
    empty one. -/
theorem build_does_all_or_nothing (hT : T.Reliable P) (hm : m.Names P)
    (hraw : ∀ d ∈ m.types, ∀ member ∈ d.members, member.isRaw = false) (catalog : Metadata) (options : BuildOptions)
    (s : Supply) :
    recorder.Reliable (· ≠ "") ∧
    ((∃ e t, e.isInternal = false ∧ ∀ program, (m.build T catalog options).exec ⟨s, program⟩ =
      (.error e, ⟨t, program⟩)) ∨
      ∃ declared, m.declare catalog = .ok declared ∧ (declared.definitions.map (·.key)).Nodup ∧
        ∀ program, ∃ built t, (m.build T catalog options).exec ⟨s, program⟩ = (.ok built, t) ∧
          (built.slots.completedTypes.map (·.1)).Perm (declared.definitions.map (·.key))) := by
  refine ⟨recorder_reliable, ?_⟩
  cases hdeclare : m.declare catalog with
  | error e =>
    refine .inl ⟨e, s, m.declare_orderly catalog e hdeclare, fun program => ?_⟩
    simp [build, hdeclare, exec_bind]
  | ok declared =>
    rcases hsteps : (declared.steps T catalog options).exec s with ⟨outcome, t⟩
    cases outcome with
    | error e =>
      refine .inl ⟨e, t, declared.steps_orderly T catalog options s e (by rw [hsteps]), fun program => ?_⟩
      simp [build, hdeclare, exec_bind, hsteps]
    | ok steps =>
      obtain ⟨hdeliver, hnodup, hkeys, hcompleted⟩ := steps_deliver hT hm hraw hdeclare hsteps
      have hone := Task.oneMaker_of_nodup hnodup
      cases hplan : Task.plan (Step.tasks steps) with
      | error e =>
        refine .inl ⟨e, t, Task.plan_orderly hone e hplan, fun program => ?_⟩
        have hexecute : (Step.execute steps).exec { program } = (.error e, { program }) := by
          simp [Step.execute, exec_bind, hplan]
        exact exec_build hdeclare hsteps hexecute
      | ok order =>
        refine .inr ⟨declared, rfl, hkeys, fun program => ?_⟩
        obtain ⟨texts, after, hexecute, hstate⟩ := Step.execute_delivers hdeliver hplan program
        refine ⟨_, _, exec_build hdeclare hsteps hexecute, ?_⟩
        rw [List.perm_ext_iff_of_nodup (Slots.nodup_completedTypes _) hkeys]
        intro key
        rw [Slots.mem_completedTypes, hstate, ← hcompleted]
        simp

/-- A field of a class by name, and a method that returns a function which returns a function
    that adds to the method's argument. -/
def curriedAdd : Module where
  types := [{
    key := ⟨"Main"⟩
    members := [
      .field { name := "log", attributes := { isPrivate := true }, fieldType := .named "Log" },
      .method {
        name := "add", attributes := { isPublic := true, isStatic := true }
        returnType := .delegate [] (.delegate [.i32] .i32)
        body := .expr {
          params := [⟨.named "x", .i32⟩]
          body := .lambda (.generated 0 none) [] <| .lambda (.generated 1 none) [⟨.named "y", .i32⟩] <|
            .binary .add (.var (.named "x")) (.var (.named "y")) } }] }]

theorem curriedAdd_builds : ∃ built t,
    (curriedAdd.build recorder ∅ {}).exec ⟨{ next := 2 }, ({} : Recorder.Log)⟩ = (.ok built, t) ∧
      (built.slots.completedTypes.map (·.1)).Perm [⟨"Main"⟩, ⟨"<closure>#0"⟩, ⟨"<closure>#1"⟩] := by
  have hnames : curriedAdd.Names (· ≠ "") := by
    rintro d (_ | ⟨_, ⟨⟩⟩)
    refine ⟨by simp, by simp, ?_⟩
    rintro member (_ | ⟨_, _ | ⟨_, ⟨⟩⟩⟩)
    · exact (by decide : "Log" ≠ "")
    · refine ⟨by simp [TypeRef.Names, TypeRef.NamesAll], ?_⟩
      exact ⟨by simp [TypeRef.Names], by simp, by simp [Expr.Names, TypeRef.Names]⟩
  have hraw : ∀ d ∈ curriedAdd.types, ∀ member ∈ d.members, member.isRaw = false := by
    simp [curriedAdd, Member.isRaw]
  have hok : ((curriedAdd.build recorder ∅ {}).exec ⟨{ next := 2 }, ({} : Recorder.Log)⟩).1.isOk = true := by
    decide +kernel
  have hkeys : (curriedAdd.declare ∅).toOption.map (fun declared => declared.definitions.map (·.key)) =
      some [⟨"Main"⟩, ⟨"<closure>#0"⟩, ⟨"<closure>#1"⟩] := by
    decide +kernel
  obtain ⟨-, ⟨e, t, -, herror⟩ | ⟨declared, hdeclare, -, hbuilds⟩⟩ :=
    build_does_all_or_nothing recorder_reliable hnames hraw ∅ {} { next := 2 }
  · cases (congrArg (·.1.isOk) (herror ({} : Recorder.Log))).symm.trans hok
  · rw [hdeclare] at hkeys
    have hlist : declared.definitions.map (·.key) = _ := Option.some.inj hkeys
    rw [hlist] at hbuilds
    exact hbuilds ({} : Recorder.Log)

end Module

end Stackwright
