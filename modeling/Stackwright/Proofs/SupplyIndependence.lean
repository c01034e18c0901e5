import Stackwright.Proofs.Builds

/-
  Stackwright.Proofs.SupplyIndependence — builds do not depend on where the supply of names starts.

  Labels and locals have names only until they are written down: a target hands out its own. Code
  and the same code with later numbers become the same body (`Emission.exec_block_shift`), so the
  steps of a definition do not depend on the supply, and neither does what they do.

  - `TypeDefinition.steps_shifts`: the steps of a definition.
-/

namespace Stackwright

variable {x : Symbol} {b : Block}

/-! ## Writing code down -/

/-- Code that stands on its own, as it is and with later numbers. -/
def Block.Moves (n : Nat) (b : Block) : Prop := b.Stands ∧ (b.shift n).Stands

namespace Emission

open Effect

variable {T : Target} {α β : Type} {n : Nat}

theorem find?_shift (n : Nat) (entries : List (Symbol × α)) (x : Symbol) :
    find? (entries.map fun entry => (entry.1.shift n, entry.2)) (x.shift n) = find? entries x := by
  simp only [find?, List.find?_map, Option.map_map, Function.comp_def, Symbol.shift_beq]

/-- The same labels and locals under later names. -/
def shift (n : Nat) (e : Emission T) : Emission T where
  program := e.program
  draft := e.draft
  labels := e.labels.map fun entry => (entry.1.shift n, entry.2)
  locals := e.locals.map fun entry => (entry.1.shift n, entry.2)

/-- Where the same labels and locals are known under later names, the second work does what the
first one does. From states with `P` it leads to states with `Q` when it succeeds. -/
def Tracks (n : Nat) (P Q : Emission T → Prop) (x y : Effect (Emission T) α) : Prop :=
  ∀ e, P e → ∃ r e', x.exec e = (r, e') ∧ y.exec (e.shift n) = (r, e'.shift n) ∧ ∀ a, r = .ok a → Q e'

namespace Tracks

variable {P Q R : Emission T → Prop}

theorem pure (a : α) (hPQ : ∀ e, P e → Q e) : Tracks n P Q (pure a) (pure a) :=
  fun e he => ⟨.ok a, e, rfl, rfl, fun _ _ => hPQ e he⟩

theorem bind {x y : Effect (Emission T) α} {f g : α → Effect (Emission T) β} (hx : Tracks n P Q x y)
    (hf : ∀ a, Tracks n Q R (f a) (g a)) : Tracks n P R (x >>= f) (y >>= g) := by
  intro e he
  obtain ⟨r, e', hexec, hexec', hQ⟩ := hx e he
  rw [exec_bind, exec_bind, hexec, hexec']
  cases r with
  | ok a => exact hf a e' (hQ a rfl)
  | error fault => exact ⟨.error fault, e', rfl, rfl, fun _ ha => by cases ha⟩

theorem ofProgram {x : Effect T.State α} (hP : ∀ e program, P e → P { e with program }) :
    Tracks n P P (ofProgram x) (ofProgram x) :=
  fun e he => ⟨(x.exec e.program).1, _, rfl, rfl, fun _ _ => hP e _ he⟩

theorem ofDraft {x : Effect T.Draft α} (hP : ∀ e draft, P e → P { e with draft }) :
    Tracks n P P (ofDraft x) (ofDraft x) :=
  fun e he => ⟨(x.exec e.draft).1, _, rfl, rfl, fun _ _ => hP e _ he⟩

end Tracks

/-- Some labels and locals are known. -/
structure Has (labels locals : List Symbol) (e : Emission T) : Prop where
  label : ∀ x ∈ labels, (find? e.labels x).isSome = true
  slot : ∀ x ∈ locals, (find? e.locals x).isSome = true

variable {labels locals : List Symbol} {slots : Slots T.toHandles}

theorem tracks_ofProgram {x : Effect T.State α} :
    Tracks n (Has labels locals) (Has labels locals) (ofProgram x) (ofProgram x) :=
  .ofProgram fun _ _ h => ⟨h.label, h.slot⟩

theorem tracks_ofDraft {x : Effect T.Draft α} : Tracks n (Has labels locals) (Has labels locals) (ofDraft x)
    (ofDraft x) :=
  .ofDraft fun _ _ h => ⟨h.label, h.slot⟩

theorem tracks_label (hx : x ∈ labels) :
    Tracks (T := T) n (Has labels locals) (Has labels locals) (label x) (label (x.shift n)) := by
  intro e he
  obtain ⟨l, hl⟩ := Option.isSome_iff_exists.mp (he.label x hx)
  refine ⟨.ok l, e, by simp [label, exec_bind, hl], ?_, fun _ _ => he⟩
  have hfind : find? (e.shift n).labels (x.shift n) = some l := (find?_shift n e.labels x).trans hl
  simp [label, exec_bind, hfind]

theorem tracks_localOf (hx : x ∈ locals) :
    Tracks (T := T) n (Has labels locals) (Has labels locals) (localOf x) (localOf (x.shift n)) := by
  intro e he
  obtain ⟨l, hl⟩ := Option.isSome_iff_exists.mp (he.slot x hx)
  refine ⟨.ok l, e, by simp [localOf, exec_bind, hl], ?_, fun _ _ => he⟩
  have hfind : find? (e.shift n).locals (x.shift n) = some l := (find?_shift n e.locals x).trans hl
  simp [localOf, exec_bind, hfind]

theorem tracks_labelsOf : ∀ {xs : List Symbol}, (∀ x ∈ xs, x ∈ labels) →
    Tracks (T := T) n (Has labels locals) (Has labels locals) (labelsOf xs) (labelsOf (xs.map (Symbol.shift n)))
  | [], _ => .pure _ fun _ h => h
  | x :: xs, h => by
    obtain ⟨hx, hxs⟩ := List.forall_mem_cons.mp h
    exact (tracks_label hx).bind fun _ => (tracks_labelsOf hxs).bind fun _ => .pure _ fun _ h => h

theorem tracks_instr {i : Instr} (hflat : i.isFlat) (hdefined : ∀ x, i.definedLabel? = some x → x ∈ labels)
    (hused : ∀ x ∈ i.usedLabels, x ∈ labels) (hlocal : ∀ x, i.local? = some x → x ∈ locals) :
    Tracks n (Has labels locals) (Has labels locals) (instr slots i) (instr slots (i.shift n)) := by
  cases i with
  | leave | beginTry | beginCatch | beginFinally | endTry => cases hflat
  | label x => exact (tracks_label (hdefined x rfl)).bind fun _ => tracks_ofDraft
  | loadLocal x | storeLocal x => exact (tracks_localOf (hlocal x rfl)).bind fun _ => tracks_ofDraft
  | branch kind x => exact (tracks_label (hused x (List.mem_singleton_self x))).bind fun _ => tracks_ofDraft
  | «switch» xs => exact (tracks_labelsOf hused).bind fun _ => tracks_ofDraft
  | loadField | storeField | loadStatic | storeStatic | newObject | callConstructor | call | callVirtual | typeOp
  | invokeDelegate => exact tracks_ofProgram.bind fun _ => tracks_ofDraft
  | newDelegate => exact tracks_ofProgram.bind fun _ => tracks_ofProgram.bind fun _ => tracks_ofDraft
  | _ => exact tracks_ofDraft

theorem tracks_instrs : ∀ {code : List Instr}, (∀ i ∈ code, i.isFlat) →
    (∀ i ∈ code, ∀ x, i.definedLabel? = some x → x ∈ labels) → (∀ i ∈ code, ∀ x ∈ i.usedLabels, x ∈ labels) →
    (∀ i ∈ code, ∀ x, i.local? = some x → x ∈ locals) →
    Tracks n (Has labels locals) (Has labels locals) (instrs slots code) (instrs slots (code.map (Instr.shift n)))
  | [], _, _, _, _ => .pure _ fun _ h => h
  | i :: code, hflat, hdefined, hused, hlocal => by
    rw [List.forall_mem_cons] at hflat hdefined hused hlocal
    exact (tracks_instr hflat.1 hdefined.1 hused.1 hlocal.1).bind fun _ =>
      tracks_instrs hflat.2 hdefined.2 hused.2 hlocal.2

theorem tracks_bindLocal (x : Symbol) (slot : T.Local) :
    Tracks n (Has labels locals) (Has labels (x :: locals)) (bindLocal x slot) (bindLocal (x.shift n) slot) := by
  refine fun e he => ⟨.ok (), _, rfl, rfl, fun _ _ => ⟨he.label, fun y hy => ?_⟩⟩
  rw [isSome_find?_cons, Bool.or_eq_true]
  rcases List.mem_cons.mp hy with rfl | hy
  · exact .inl BEq.rfl
  · exact .inr (he.slot y hy)

theorem tracks_bindLabel (x : Symbol) (l : T.Label) :
    Tracks n (Has labels locals) (Has (x :: labels) locals) (bindLabel x l) (bindLabel (x.shift n) l) := by
  refine fun e he => ⟨.ok (), _, rfl, rfl, fun _ _ => ⟨fun y hy => ?_, he.slot⟩⟩
  rw [isSome_find?_cons, Bool.or_eq_true]
  rcases List.mem_cons.mp hy with rfl | hy
  · exact .inl BEq.rfl
  · exact .inr (he.label y hy)

theorem tracks_declareLocals : ∀ (ls : List LocalDecl) {locals : List Symbol},
    Tracks n (Has labels locals) (Has labels (ls.map (·.name) ++ locals)) (declareLocals slots ls)
      (declareLocals slots (ls.map fun l => { l with name := l.name.shift n }))
  | [], _ => .pure _ fun _ h => h
  | l :: ls, locals => by
    refine tracks_ofProgram.bind fun _ => tracks_ofDraft.bind fun slot =>
      (tracks_bindLocal l.name slot).bind fun _ => ?_
    refine fun e he => ?_
    obtain ⟨r, e', hexec, hexec', hQ⟩ := tracks_declareLocals ls e he
    refine ⟨r, e', hexec, hexec', fun a ha => ⟨(hQ a ha).label, fun x hx => (hQ a ha).slot x ?_⟩⟩
    simp only [List.map_cons, List.cons_append, List.mem_cons, List.mem_append] at hx ⊢
    tauto

theorem tracks_defineLabels : ∀ {code : List Instr} {labels : List Symbol}, (∀ i ∈ code, i.isFlat) →
    Tracks (T := T) n (Has labels locals) (Has (code.filterMap Instr.definedLabel? ++ labels) locals)
      (defineLabels code) (defineLabels (code.map (Instr.shift n)))
  | [], _, _ => .pure _ fun _ h => h
  | i :: code, labels, hflat => by
    rw [List.forall_mem_cons] at hflat
    have hskip : Tracks (T := T) n (Has labels locals) (Has (code.filterMap Instr.definedLabel? ++ labels) locals)
        (defineLabels code) (defineLabels (code.map (Instr.shift n))) := tracks_defineLabels hflat.2
    cases i with
    | endTry => cases hflat.1
    | label x =>
      refine tracks_ofDraft.bind fun l => (tracks_bindLabel x l).bind fun _ => ?_
      refine fun e he => ?_
      obtain ⟨r, e', hexec, hexec', hQ⟩ := tracks_defineLabels hflat.2 e he
      refine ⟨r, e', hexec, hexec', fun a ha => ⟨fun y hy => (hQ a ha).label y ?_, (hQ a ha).slot⟩⟩
      simp only [List.filterMap_cons, Instr.definedLabel?, List.cons_append, List.mem_cons, List.mem_append] at hy ⊢
      tauto
    | _ => exact hskip

/-- Code that stands on its own is written alike under later names. -/
theorem exec_block_shift {b : Block} (hmoves : b.Moves n) (program : T.State) :
    ∃ r e, (block slots b).exec { program, draft := T.emptyDraft } = (r, e) ∧
      (block slots (b.shift n)).exec { program, draft := T.emptyDraft } = (r, e.shift n) := by
  obtain ⟨⟨s, t, hb⟩, s', t', hb'⟩ := hmoves
  have hvalid := Block.validate_of_made hb
  have hvalid' := Block.validate_of_made hb'
  have hstart : Has [] [] ({ program, draft := T.emptyDraft } : Emission T) := ⟨by simp, by simp⟩
  have hwritten : Tracks n (Has [] []) (Has (b.definedLabels ++ []) (b.locals.map (·.name) ++ []))
      (declareLocals slots b.locals >>= fun _ => defineLabels b.code >>= fun _ => instrs slots b.code)
      (declareLocals slots (b.shift n).locals >>= fun _ => defineLabels (b.shift n).code >>= fun _ =>
        instrs slots (b.shift n).code) := by
    refine (tracks_declareLocals b.locals).bind fun _ => (tracks_defineLabels hb.clean.flat).bind fun _ =>
      tracks_instrs hb.clean.flat (fun i hi x hx => ?_) (fun i hi x hx => ?_) fun i hi x hx => ?_
    · exact List.mem_append_left _ (List.mem_filterMap.mpr ⟨i, hi, hx⟩)
    · exact List.mem_append_left _
        ((hb.clean.goes x (List.mem_flatMap.mpr ⟨i, hi, hx⟩)).resolve_right List.not_mem_nil)
    · exact List.mem_append_left _
        ((hb.clean.reads x (List.mem_filterMap.mpr ⟨i, hi, hx⟩)).resolve_right List.not_mem_nil)
  obtain ⟨r, e, hexec, hexec', -⟩ := hwritten _ hstart
  refine ⟨r, e, ?_, ?_⟩
  · rw [block, hvalid]
    exact hexec
  · rw [block, hvalid']
    exact hexec'

end Emission

/-! ## Builds -/

/-- Work that gives the same from a supply some draws later. -/
abbrev Steady {α : Type} (n : Nat) (x : Lower α) : Prop := Shifts (·.isInternal = false) True n id (fun _ => True) x x

/-- Lowered code stands on its own, and so does the code from a later supply. -/
theorem Shifts.moves {strict : Prop} {n : Nat} {x y : Lower Block}
    (hxy : Expr.Follows n (·.isInternal = false) strict x y)
    (hx : ∀ {s t : Supply} {b : Block}, x.exec s = (.ok b, t) → Made s [] [] b t)
    (hy : ∀ {s t : Supply} {b : Block}, y.exec s = (.ok b, t) → Made s [] [] b t) :
    Shifts (·.isInternal = false) strict n (Block.shift n) (Block.Moves n) x y := by
  intro s
  obtain ⟨r, t, hexec, hexec', -, horderly⟩ := hxy s
  refine ⟨r, t, hexec, hexec', fun b hb => ?_, horderly⟩
  subst hb
  exact ⟨⟨s, t, hx hexec⟩, _, _, hy (hexec' (.inr rfl))⟩

namespace TypeDefinition

variable {T : Target} {n : Nat}

theorem writeBody_shift (hb : b.Moves n) (accept : T.Draft → Effect T.State Unit) :
    writeBody T (b.shift n) accept = writeBody T b accept := by
  funext w
  obtain ⟨r, e, hexec, hexec'⟩ := @Emission.exec_block_shift T n w.slots b hb w.program
  show (writeBody T (b.shift n) accept).exec w = (writeBody T b accept).exec w
  simp [writeBody, Workspace.ofProgram, Effect.exec_bind, hexec, hexec', Emission.shift]

theorem methodBodyStep_shift (hb : b.Moves n) (key : MethodKey) :
    methodBodyStep T key (b.shift n) = methodBodyStep T key b := by
  simp only [methodBodyStep, Block.keys_shift, writeBody_shift hb]

theorem constructorBodyStep_shift (hb : b.Moves n) (key : ConstructorKey) :
    constructorBodyStep T key (b.shift n) = constructorBodyStep T key b := by
  simp only [constructorBodyStep, Block.keys_shift, writeBody_shift hb]

variable (d : TypeDefinition) {strict : Prop} {small large : Hierarchy} (hw : small.Widens strict large)
  (options : BuildOptions)

include hw

theorem memberSteps_shifts (m : Member) :
    Shifts (·.isInternal = false) strict n id (fun _ => True) (d.memberSteps T small options m)
      (d.memberSteps T large options m) := by
  cases m with
  | field f | property p => exact .pure rfl trivial
  | method m =>
    refine (Shifts.found (.refl (d.methodKey_orderly m)) (d.methodKey_orderly m)).bind fun key _ => ?_
    cases m.body with
    | abstract params | code params block => exact .pure rfl trivial
    | expr body =>
      refine Shifts.bind ((body.compileMethod_shifts n hw options m.returnType).moves Body.compileMethod_made
        Body.compileMethod_made) fun b hb => ?_
      exact .pure (by rw [methodBodyStep_shift hb]; rfl) trivial
  | constructor c =>
    refine (Shifts.found (.refl (d.constructorKey_orderly c)) (d.constructorKey_orderly c)).bind fun key _ => ?_
    cases c.body with
    | code params block => exact .pure rfl trivial
    | expr body base =>
      refine Shifts.bind ((body.compileConstructor_shifts n hw options _).moves Body.compileConstructor_made
        Body.compileConstructor_made) fun b hb => ?_
      exact .pure (by rw [constructorBodyStep_shift hb]; rfl) trivial

theorem allMemberSteps_shifts : ∀ ms : List Member,
    Shifts (·.isInternal = false) strict n id (fun _ => True) (d.allMemberSteps T small options ms)
      (d.allMemberSteps T large options ms)
  | [] => .pure rfl trivial
  | m :: ms =>
    (d.memberSteps_shifts hw options m).bind fun _ _ => (allMemberSteps_shifts ms).bind fun _ _ => .pure rfl trivial

theorem steps_shifts : Shifts (·.isInternal = false) strict n id (fun _ => True) (d.steps T small options)
    (d.steps T large options) :=
  (d.allMemberSteps_shifts hw options d.members).bind fun _ _ => .pure rfl trivial

end TypeDefinition

theorem stepsOfAll_shifts {T : Target} {n : Nat} (h : Hierarchy) (options : BuildOptions) :
    ∀ ds : List TypeDefinition, Steady n (stepsOfAll T h options ds)
  | [] => .pure rfl trivial
  | d :: ds =>
    (d.steps_shifts (.refl _ h) options).bind fun _ _ => (stepsOfAll_shifts h options ds).bind fun _ _ =>
      .pure rfl trivial

/-- Work that is steady gives one result, whatever the supply. -/
theorem Steady.fst_exec {α : Type} {x : Lower α} (hx : ∀ n, Steady n x) (s s' : Supply) :
    (x.exec s).1 = (x.exec s').1 := by
  have hstart (s : Supply) : (x.exec s).1 = (x.exec {}).1 := by
    obtain ⟨r, t, hexec, hexec', -⟩ := hx s.next {}
    have hs : Supply.skip {} s.next = s := by simp [Supply.skip]
    rw [hexec, ← hs, hexec' (.inl trivial)]
    cases r <;> rfl
  rw [hstart s, hstart s']

/-- On any target, two builds of a module from supplies that differ only in where they start give
the same error, or the same slots, table and executed steps; both leave the same program. -/
theorem Module.build_ignores_supply (T : Target) (m : Module) (catalog : Metadata) (options : BuildOptions)
    (program : T.State) (s s' : Supply) :
    ((m.build T catalog options).exec ⟨s, program⟩).1 = ((m.build T catalog options).exec ⟨s', program⟩).1 ∧
      ((m.build T catalog options).exec ⟨s, program⟩).2.program =
        ((m.build T catalog options).exec ⟨s', program⟩).2.program := by
  cases hdeclare : m.declare catalog with
  | error e => simp [build, hdeclare, Effect.exec_bind]
  | ok declared =>
    have hsteps : ((declared.steps T catalog options).exec s).1 = ((declared.steps T catalog options).exec s').1 :=
      Steady.fst_exec (fun n => stepsOfAll_shifts _ options declared.definitions) s s'
    rcases h : (declared.steps T catalog options).exec s with ⟨r, t⟩
    rcases h' : (declared.steps T catalog options).exec s' with ⟨r', t'⟩
    rw [h, h'] at hsteps
    obtain rfl : r = r' := hsteps
    cases r with
    | error e => simp [build, hdeclare, Effect.exec_bind, h, h']
    | ok steps =>
      rcases hexecute : (Step.execute steps).exec { program } with ⟨outcome, after⟩
      rw [exec_build hdeclare h hexecute, exec_build hdeclare h' hexecute]
      exact ⟨rfl, rfl⟩

end Stackwright
