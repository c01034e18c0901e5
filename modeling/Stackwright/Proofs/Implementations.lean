import Stackwright.Proofs.ObjectLayouts
import Stackwright.Proofs.Realized

/-
  Stackwright.Proofs.Implementations — what virtual calls on objects of complete types run.

  A type that is completed has looked at its own methods only: all of them have bodies, unless the
  type is abstract or an interface. What it inherits is found by a search along its bases, which
  ends because supertypes are defined first.

  - `Module.concrete_type_lacks_method`: a concrete type that is built although it lacks a method.
-/

namespace Stackwright

open Machine (Program TypeId TypeRecord MethodId MethodRecord Ty handles)

variable {id : TypeId} {i : Nat}
variable {r : TypeRecord} {m : MethodId}

/-! ## What every step preserves -/

namespace Machine

/-- Objects are made of the type itself, not only of what derives from it. -/
def TypeRecord.isConcrete (r : TypeRecord) : Bool := !(r.attributes.isAbstract || r.attributes.isInterface)

/-- The first type names the second as its base, or as an interface. -/
def TypeRecord.Extends (r : TypeRecord) (id : TypeId) : Prop := r.base = some (.defined id) ∨ .defined id ∈ r.interfaces

theorem TypeRecord.Grows.extends {r' : TypeRecord} (h : r.Grows r') (he : r'.Extends id) : r.Extends id := by
  unfold TypeRecord.Extends at he
  rwa [h.base, h.interfaces] at he

namespace Program

/-- What holds of a program at every step of a build. -/
structure Whole (p : Program) : Prop where
  /-- Types that are complete and concrete list no abstract method. -/
  implemented : ∀ (i : Nat) (r : TypeRecord), p.types[i]? = some r → r.layout.isSome → r.isConcrete →
    ∀ m ∈ r.methods, (p.method m).kind ≠ .abstract
  /-- Supertypes are defined first. -/
  earlier : ∀ (i : Nat) (r : TypeRecord), p.types[i]? = some r → ∀ id, r.Extends id → id.index < i

variable {p q : Program}

/-- A method that is not abstract does not become so. -/
theorem Grows.kind_ne_abstract (h : p.Grows q) (hm : m.index < p.methods.size) (hkind : (p.method m).kind ≠ .abstract)
    : (q.method m).kind ≠ .abstract := by
  obtain ⟨r', hr', hg⟩ := h.methods m.index _ (Array.getElem?_eq_getElem hm)
  rw [method_eq (Array.getElem?_eq_getElem hm)] at hkind
  rw [method_eq hr']
  rcases hg.kind with hk | ⟨-, code, hk⟩
  · rwa [hk]
  · rw [hk]
    nofun

/-- No step adds to the methods of a complete type. -/
theorem Whole.grow (h : p.Whole) (hp : p.Ranged) (hgrows : p.Grows q)
    (hcases : ∀ (i : Nat) (r' : TypeRecord), q.types[i]? = some r' →
      (∃ r, p.types[i]? = some r ∧ (r'.layout.isSome → r'.methods = r.methods ∧
        (r.layout.isSome ∨ (r.isConcrete → ∀ m ∈ r.methods, (p.method m).kind ≠ .abstract)))) ∨
      r'.layout = none ∧ ∀ id, r'.Extends id → id.index < i) : q.Whole where
  implemented i r' hr' hlayout hconcrete m hm := by
    rcases hcases i r' hr' with ⟨r, hr, hclosed⟩ | ⟨hnone, -⟩
    · obtain ⟨r'', hr'', hg⟩ := hgrows.types i r hr
      cases hr'.symm.trans hr''
      obtain ⟨hmethods, hdone⟩ := hclosed hlayout
      rw [hmethods] at hm
      rw [TypeRecord.isConcrete, hg.attributes] at hconcrete
      refine hgrows.kind_ne_abstract (hp.methods i r hr m hm) ?_
      rcases hdone with hdone | hdone
      · exact h.implemented i r hr hdone hconcrete m hm
      · exact hdone hconcrete m hm
    · rw [hnone] at hlayout
      cases hlayout
  earlier i r' hr' id hid := by
    rcases hcases i r' hr' with ⟨r, hr, -⟩ | ⟨-, hearlier⟩
    · obtain ⟨r'', hr'', hg⟩ := hgrows.types i r hr
      cases hr'.symm.trans hr''
      exact h.earlier i r hr id (hg.extends hid)
    · exact hearlier id hid

/-- A type has changed. It was not complete, or its methods have not changed. -/
theorem Whole.grow_modify (h : p.Whole) (hp : p.Ranged) (hgrows : p.Grows q) {f : TypeRecord → TypeRecord}
    (htypes : q.types = p.types.modify i f) (hf : ∀ r, p.types[i]? = some r → (f r).layout.isSome →
      (f r).methods = r.methods ∧ (r.layout.isSome ∨ (r.isConcrete → ∀ m ∈ r.methods, (p.method m).kind ≠ .abstract))) :
    q.Whole := by
  refine h.grow hp hgrows fun j r' hr' => .inl ?_
  obtain ⟨r, hr, rfl⟩ := types_modify (htypes ▸ hr')
  refine ⟨r, hr, fun hlayout => ?_⟩
  split at hlayout
  · rename_i hij
    rw [if_pos hij]
    exact hf r (hij ▸ hr) hlayout
  · rename_i hij
    rw [if_neg hij]
    exact ⟨rfl, .inl hlayout⟩

/-- What completing a type has looked at. -/
theorem kind_of_unfinished? (h : p.unfinished? id = none) (hconcrete : (p.type id).isConcrete) :
    ∀ m ∈ (p.type id).methods, (p.method m).kind ≠ .abstract := by
  intro m hm hkind
  have hnone := List.findSome?_eq_none_iff.mp h m hm
  rw [hkind] at hnone
  simp only [TypeRecord.isConcrete] at hconcrete
  simp [hconcrete] at hnone

end Program

end Machine

namespace Site

variable {B : Blueprint} {w w' : Site} {d : TypeDefinition}

/-- What a reference denotes has been defined. -/
theorem Known.denotes_lt (h : Known B w) {t : TypeRef} (ht : t.Denotes w.slots w.program (.defined id)) :
    id.index < w.program.types.size := by
  have hlt {r : TypeRecord} {i : Nat} (hr : w.program.types[i]? = some r) : i < w.program.types.size :=
    (Array.getElem?_eq_some_iff.mp hr).1
  have herased := ht.erased
  cases t with
  | deferred key =>
    obtain ⟨i, r, hty, hr, -⟩ := h.typeSlot key _ (ht.exact key rfl)
    cases hty
    exact hlt hr
  | named name =>
    obtain ⟨r, hr, -⟩ := ht.named id rfl name rfl
    exact hlt hr
  | primitive | cell | delegate => cases herased

theorem Known.denotes_all_lt (h : Known B w) {ts : List TypeRef} {tys : List Ty}
    (hts : List.Forall₂ (TypeRef.Denotes w.slots w.program) ts tys) (hid : .defined id ∈ tys) :
    id.index < w.program.types.size := by
  induction hts with
  | nil => cases hid
  | cons ht _ ih =>
    rcases List.mem_cons.mp hid with rfl | hid
    · exact h.denotes_lt ht
    · exact ih hid

theorem Sound.whole_routine (h : Sound B w) (hwhole : w.program.Whole) (hgrows : Grows w w') {routine : Routine}
    {p : Program} (hadds : d.AddsRoutine w routine id m p) (hp : w'.program = p) : w'.program.Whole := by
  obtain ⟨-, hlayout, params, ret, -, -, -, rfl⟩ := hadds
  have htypes : w'.program.types = w.program.types.modify id.index fun t => { t with methods := t.methods ++ [m] } := by
    rw [hp]
    rfl
  refine hwhole.grow_modify h.ranged hgrows.program htypes fun r hr hcomplete => ?_
  rw [Program.type_eq hr] at hlayout
  rw [hlayout] at hcomplete
  cases hcomplete

/-- What every step preserves, besides being sound. -/
theorem Sound.whole_step (h : Sound B w) (hwhole : w.program.Whole) (hd : d ∈ B.definitions) {step : Step machine}
    (hstep : d.HasStep B.hierarchy B.options step) (haction : step.action.exec w = (.ok (), w')) :
    w'.program.Whole := by
  obtain ⟨-, hgrows⟩ := h.step hd hstep haction
  cases hstep with
  | type =>
    obtain ⟨base, interfaces, hbase, hinterfaces, -, hprogram, -⟩ := TypeDefinition.of_typeStep h.named haction
    refine hwhole.grow h.ranged hgrows.program fun i r' hr' => ?_
    rcases Program.withType_cases (hprogram ▸ hr') with hr | ⟨rfl, rfl⟩
    · exact .inl ⟨r', hr, fun hlayout => ⟨rfl, .inl hlayout⟩⟩
    · refine .inr ⟨rfl, fun id hid => ?_⟩
      rcases hid with hid | hid
      · have hbase' : base = some (.defined id) := hid
        rw [hbase'] at hbase
        generalize d.base = t at hbase
        cases hbase with
        | some ht => exact h.denotes_lt ht
      · exact h.denotes_all_lt hinterfaces hid
  | defines hmember hdefines =>
    cases hdefines with
    | @field f =>
      obtain ⟨id, ty, -, -, -, hprogram, -⟩ := TypeDefinition.of_fieldStep h.named haction
      have htypes : w'.program.types = w.program.types.modify id.index fun t =>
          { t with fields := t.fields ++ [w.program.nextField (w.program.type id).name f.name] } := by
        rw [hprogram]
        rfl
      exact hwhole.grow_modify h.ranged hgrows.program htypes fun r _ hlayout => ⟨rfl, .inl hlayout⟩
    | property =>
      obtain ⟨q, i, id, hnotes, -, -, htypes, -⟩ := TypeDefinition.of_propertyStep h.named h.ranged haction
      rw [hnotes.types] at htypes
      exact hwhole.grow_modify h.ranged hgrows.program htypes fun r _ hlayout => ⟨rfl, .inl hlayout⟩
    | method hkey =>
      obtain ⟨id, handle, p, hadds, hwrote⟩ := TypeDefinition.of_methodStep h.named (h.type_attributes hd) haction
      exact h.whole_routine hwhole hgrows hadds hwrote.program
    | constructor hkey =>
      obtain ⟨id, handle, p, hadds, hwrote⟩ := TypeDefinition.of_constructorStep h.named haction
      exact h.whole_routine hwhole hgrows hadds hwrote.program
  | writes hmember hwrites =>
    obtain ⟨-, m, -, hwritten⟩ := hwrites.of_action h.named h.ranged haction
    obtain ⟨q, code, hnotes, -, hprogram, -⟩ := hwritten.written
    have htypes : w'.program.types = w.program.types := by rw [hprogram, ← hnotes.types]; rfl
    refine hwhole.grow h.ranged hgrows.program fun i r hr => .inl ⟨r, htypes ▸ hr, fun hlayout => ⟨rfl, .inl hlayout⟩⟩
  | finalize =>
    obtain ⟨id, inherited, -, -, hfinished, hprogram, -⟩ := TypeDefinition.of_finalizeStep haction
    have htypes : w'.program.types =
        w.program.types.modify id.index fun t => { t with layout := some (inherited ++ w.program.ownFields id) } := by
      rw [hprogram, Program.withLayout, (Program.placeFields_rest _ _ _).1]
    refine hwhole.grow_modify h.ranged hgrows.program htypes fun r hr _ => ⟨rfl, .inr fun hconcrete => ?_⟩
    rw [← Program.type_eq hr] at hconcrete ⊢
    exact Program.kind_of_unfinished? hfinished hconcrete

theorem whole_invariant (B : Blueprint) : Invariant B fun w => w.program.Whole where
  start slots _ := ⟨fun i r hr => by simp at hr, fun i r hr => by simp at hr⟩
  step _ hd _ hstep _ _ h hwhole haction := h.whole_step hwhole hd hstep haction

end Site

/-! ## The search along the bases -/

namespace Machine.Program

variable {p : Program}

theorem type_of_ne_default (h : p.type id = r) (hne : r ≠ default) : p.types[id.index]? = some r := by
  rw [type, Array.getD_eq_getD_getElem?] at h
  cases hr : p.types[id.index]? with
  | none =>
    rw [hr] at h
    exact absurd h.symm hne
  | some r' =>
    rw [hr] at h
    exact congrArg some h

theorem Whole.base_lt (h : p.Whole) {base : TypeId} (hbase : (p.type id).base = some (.defined base)) :
    base.index < id.index := by
  refine h.earlier _ _ (type_of_ne_default rfl fun hdefault => ?_) base (.inl hbase)
  rw [hdefault] at hbase
  cases hbase

/-- The type itself has something that can be run for the name and the parameters. -/
def Implements (p : Program) (id : TypeId) (name : String) (params : List Ty) (m : MethodId) : Prop :=
  p.findMethod id name params = some m ∧ (p.method m).kind.isAbstract = false

variable {name : String} {params : List Ty}

theorem implementation?_of_not_defined {ty : Ty} (hty : ∀ id, ty ≠ .defined id) :
    ∀ n, p.implementation? name params n ty = none
  | 0 => by unfold implementation?; rfl
  | n + 1 => by
    cases ty with
    | defined id => exact absurd rfl (hty id)
    | _ => rfl

/-- The type answers itself, or asks its base. -/
theorem implementation?_cases (n : Nat) (id : TypeId) :
    (∃ m, p.Implements id name params m ∧ p.implementation? name params (n + 1) (.defined id) = some m) ∨
    (∀ m, ¬ p.Implements id name params m) ∧
      p.implementation? name params (n + 1) (.defined id) = (p.type id).base.bind
        (p.implementation? name params n) := by
  rw [implementation?]
  cases hfound : p.findMethod id name params with
  | none =>
    refine .inr ⟨fun m hm => ?_, ?_⟩
    · cases hfound.symm.trans hm.1
    · cases (p.type id).base <;> rfl
  | some found =>
    cases hkind : (p.method found).kind.isAbstract with
    | false => exact .inl ⟨found, ⟨hfound, hkind⟩, by simp [hkind]⟩
    | true =>
      refine .inr ⟨fun m hm => ?_, ?_⟩
      · cases hfound.symm.trans hm.1
        cases hkind.symm.trans hm.2
      · simp only [hkind, if_true]
        cases (p.type id).base <;> rfl

/-- What is found is in one of the bases. -/
theorem implements_of_implementation? {m : MethodId} : ∀ {n : Nat} {id : TypeId},
    p.implementation? name params n (.defined id) = some m → ∃ base, p.Derives id base ∧ p.Implements base name params m
  | 0, id, h => by
    unfold implementation? at h
    cases h
  | n + 1, id, h => by
    rcases @implementation?_cases p name params n id with ⟨m', hm', hfound⟩ | ⟨-, hnext⟩
    · cases hfound.symm.trans h
      exact ⟨id, .refl, hm'⟩
    · rw [hnext] at h
      obtain ⟨ty, hbase, h⟩ := Option.bind_eq_some_iff.mp h
      by_cases hty : ∃ base, ty = .defined base
      · obtain ⟨base, rfl⟩ := hty
        obtain ⟨last, hlast, hm⟩ := implements_of_implementation? h
        exact ⟨last, .head hbase hlast, hm⟩
      · rw [implementation?_of_not_defined fun base hb => hty ⟨base, hb⟩] at h
        cases h

/-- Where supertypes are defined first, nothing that can be run is missed. -/
theorem Whole.not_implements (h : p.Whole) : ∀ {n : Nat} {id : TypeId}, id.index < n →
    p.implementation? name params n (.defined id) = none → ∀ base, p.Derives id base → ∀ m,
      ¬ p.Implements base name params m
  | n + 1, id, hn, hnone, base, hderives, m => by
    rcases @implementation?_cases p name params n id with ⟨m', -, hfound⟩ | ⟨hself, hnext⟩
    · cases hfound.symm.trans hnone
    · cases hderives.cases_head with
      | inl hid => exact hid ▸ hself m
      | inr hhead =>
        obtain ⟨next, hbase, hderives⟩ := hhead
        rw [hnext, hbase] at hnone
        exact h.not_implements (Nat.lt_of_lt_of_le (h.base_lt hbase) (Nat.le_of_lt_succ hn)) hnone base hderives m

/-! ## Virtual calls -/

/-- Nothing along the bases of the type can be run for the method, and neither can the method itself. -/
def Lacks (p : Program) (id : TypeId) (m : MethodId) : Prop :=
  (p.method m).kind = .abstract ∧ ∀ base, p.Derives id base → ∀ m', ¬ p.Implements base (p.method m).name
    (p.method m).params m'

/-- What a virtual call on an object of the type runs. -/
theorem Whole.dispatch_cases (h : p.Whole) (hid : id.index < p.types.size) (hvirtual : (p.method m).isVirtual) :
    p.Lacks id m ∧ p.dispatch (.defined id) m = m ∨
    ¬ p.Lacks id m ∧ ((∃ base, p.Derives id base ∧
        p.Implements base (p.method m).name (p.method m).params (p.dispatch (.defined id) m)) ∨
      p.dispatch (.defined id) m = m ∧ (p.method m).kind ≠ .abstract) := by
  have hdispatch : p.dispatch (.defined id) m =
      (p.implementation? (p.method m).name (p.method m).params (p.types.size + 1) (.defined id)).getD m :=
        if_pos hvirtual
  rw [hdispatch]
  cases himpl : p.implementation? (p.method m).name (p.method m).params (p.types.size + 1) (.defined id) with
  | some m' =>
    obtain ⟨base, hderives, hm'⟩ := implements_of_implementation? himpl
    exact .inr ⟨fun hlacks => hlacks.2 base hderives m' hm', .inl ⟨base, hderives, hm'⟩⟩
  | none =>
    have hnone := h.not_implements (Nat.lt_succ_of_lt hid) himpl
    by_cases hkind : (p.method m).kind = .abstract
    · exact .inl ⟨⟨hkind, hnone⟩, rfl⟩
    · exact .inr ⟨fun hlacks => hkind hlacks.1, .inr ⟨rfl, hkind⟩⟩

/-- The frame is about to call the method on an object of the type. -/
structure AboutToCall (p : Program) (h : Heap) (top : Frame) (id : TypeId) (m : MethodId) : Prop where
  op : ∃ tail, top.code.ops[top.pc]? = some (.plain (.callVirtual m tail))
  stack : ∃ args receiver rest, top.stack = args ++ receiver :: rest ∧ args.length + 1 = (p.method m).arity ∧
    receiver.type h = .defined id

theorem advance_callVirtual {top : Frame} {w : World} (h : p.AboutToCall w.heap top id m) (natives : Natives)
    (rest : List Frame)
    : ∃ caller call, call.method = p.dispatch (.defined id) m ∧
      (advance p natives (top :: rest)).exec w = (invoke p natives (caller :: rest) call).exec w := by
  obtain ⟨tail, hop⟩ := h.op
  obtain ⟨args, receiver, below, hstack, harity, htype⟩ := h.stack
  have hpop : ({ top with pc := top.pc + 1 } : Frame).popN (p.method m).arity =
      .ok (receiver :: args.reverse, { top with pc := top.pc + 1, stack := below }) := by
    have hsplit : top.stack = (args ++ [receiver]) ++ below := by rw [hstack, List.append_cons]
    have hlength : (p.method m).arity = (args ++ [receiver]).length := by rw [List.length_append, ← harity,
      List.length_singleton]
    rw [Frame.popN, hlength]
    simp only [hsplit, List.take_left, List.drop_left]
    rw [if_neg (by simp)]
    simp
  refine ⟨{ top with pc := top.pc + 1, stack := below },
    { method := p.dispatch (.defined id) m, args := receiver :: args.reverse, onReturn := p.onReturnOf (p.dispatch
      (.defined id) m), tail },
    rfl, ?_⟩
  have hcall : (step p top).exec w = (.ok (.call { top with pc := top.pc + 1, stack := below }
      { method := p.dispatch (.defined id) m, args := receiver :: args.reverse
        onReturn := p.onReturnOf (p.dispatch (.defined id) m), tail }), w) := by
    rw [step, hop]
    show (callVirtual p _ m tail).exec w = _
    rw [callVirtual, Act.exec_bind, Act.exec_lift, hpop]
    rw [← htype]
    cases receiver with
    | null => cases htype
    | _ => rfl
  rw [advance, Act.exec_bind, hcall]

/-- A call of a method of the program misses a body only where there is none. -/
theorem invoke_missingBody {call : Call} {code : Code} (h : (p.method call.method).kind = .defined (some code))
    (natives : Natives) (frames : List Frame) (w : World) (name : String) :
    ((invoke p natives frames call).exec w).1 ≠ .error (.missingBody name) := by
  intro hfault
  rw [invoke, h] at hfault
  change invokeCode _ _ _ _ = _ at hfault
  unfold invokeCode at hfault
  split at hfault
  · cases hfault
  · dsimp only at hfault
    split at hfault <;> split at hfault <;> cases hfault

end Machine.Program

theorem Slots.Routine.unique {slots : Slots handles} {key : ItemKey} {m' : MethodId} (h : slots.Routine key m)
    (h' : slots.Routine key m') : m = m' := by
  cases h with
  | method hm =>
    cases h' with
    | method hm' => exact Except.ok.inj (hm.symm.trans hm')
  | constructor hm =>
    cases h' with
    | constructor hm' => exact Except.ok.inj (hm.symm.trans hm')

/-- A method that a type lists has its body, unless it is abstract. -/
theorem Blueprint.Realized.code_of_calls {B : Blueprint} {w : Site} (h : B.Realized w) (hm : w.program.Calls i m)
    (hkind : (w.program.method m).kind ≠ .abstract) :
    ∃ code, (w.program.method m).kind = .defined (some code) := by
  obtain ⟨d, hd, member, hmember, key, routine, hoffers, hat⟩ := h.routineKnown i m hm
  obtain ⟨r, hr, -, -, -, -, -, -, hif⟩ := hat.record
  rw [Program.method_eq hr] at hkind ⊢
  have habstract : routine.isAbstract = false := by
    cases ha : routine.isAbstract with
    | false => rfl
    | true => exact absurd (by rwa [ha, if_pos rfl] at hif) hkind
  have hbody : TypeDefinition.hasBody member := by
    cases hoffers with
    | method => simp_all [TypeDefinition.methodRoutine, TypeDefinition.hasBody]
    | constructor => rfl
  obtain ⟨key', routine', block, hoffers', -, m', r', code, hslot, hr', hcode, -⟩ := h.bodies d hd member hmember hbody
  obtain rfl : key = key' := by
    cases hoffers with
    | method hkey =>
      cases hoffers' with
      | method hkey' => exact congrArg _ (Except.ok.inj (hkey.symm.trans hkey'))
    | constructor hkey =>
      cases hoffers' with
      | constructor hkey' => exact congrArg _ (Except.ok.inj (hkey.symm.trans hkey'))
  cases hat.slot.unique hslot
  cases hr.symm.trans hr'
  exact ⟨code, hcode⟩

namespace Module

variable {m : Module} {catalog : Metadata} {options : BuildOptions} {s : Supply} {built : Built machine}
  {after : BuildState machine}

/-- What a virtual call runs on an object of a type of the program has a body, unless the type lacks the method. -/
theorem complete_types_run_or_lack (h : (m.build machine catalog options).exec ⟨s, {}⟩ = (.ok built, after))
    (id : TypeId)
    (hcomplete : (after.program.type id).layout.isSome = true) (hconcrete : (after.program.type id).isConcrete = true)
    (owner : TypeId) (method : MethodId) (hlisted : method ∈ (after.program.type owner).methods)
    (hvirtual : (after.program.method method).isVirtual = true) :
    ((∃ code, (after.program.method (after.program.dispatch (.defined id) method)).kind = .defined (some code)) ↔
      ¬ after.program.Lacks id method) ∧
    (after.program.Lacks id method → after.program.dispatch (.defined id) method = method ∧
      method ∉ (after.program.type id).methods) ∧
    ∀ (natives : Machine.Natives) (w : Machine.World) (top : Machine.Frame) (rest : List Machine.Frame),
      after.program.AboutToCall w.heap top id method →
      ((∃ name, ((Machine.advance after.program natives (top :: rest)).exec w).1 = .error (.missingBody name)) ↔
        after.program.Lacks id method) := by
  obtain ⟨table, closures, declared, hd, -, -, hrealized, hinvariant⟩ := of_build_invariant h
  have hwhole := hinvariant _ (Site.whole_invariant _)
  have hrecord : after.program.types[id.index]? = some (after.program.type id) := by
    refine Program.type_of_ne_default rfl fun hdefault => ?_
    rw [hdefault] at hcomplete
    cases hcomplete
  have hcalls {base : TypeId} {m' : MethodId} (hm' : m' ∈ (after.program.type base).methods) :
      after.program.Calls base.index m' := by
    refine ⟨_, Program.type_of_ne_default rfl fun hdefault => ?_, hm'⟩
    rw [hdefault] at hm'
    cases hm'
  have hcases := hwhole.dispatch_cases (Array.getElem?_eq_some_iff.mp hrecord).1 hvirtual
  have hbody (hlacks : ¬ after.program.Lacks id method) :
      ∃ code, (after.program.method (after.program.dispatch (.defined id) method)).kind = .defined (some code) := by
    rcases hcases with ⟨hlacks', -⟩ | ⟨-, ⟨base, -, hfound, hkind⟩ | ⟨hself, hkind⟩⟩
    · exact absurd hlacks' hlacks
    · refine hrealized.code_of_calls (hcalls (List.mem_of_find?_eq_some hfound)) fun habstract => ?_
      rw [habstract] at hkind
      cases hkind
    · rw [hself]
      exact hrealized.code_of_calls (hcalls hlisted) hkind
  have hself (hlacks : after.program.Lacks id method) : after.program.dispatch (.defined id) method = method := by
    rcases hcases with ⟨-, hself⟩ | ⟨hnot, -⟩
    · exact hself
    · exact absurd hlacks hnot
  refine ⟨⟨fun ⟨code, hcode⟩ hlacks => ?_, hbody⟩, fun hlacks => ⟨hself hlacks, fun hmem => ?_⟩,
    fun natives w top rest htop => ?_⟩
  · rw [hself hlacks, hlacks.1] at hcode
    cases hcode
  · exact hwhole.implemented _ _ hrecord hcomplete hconcrete method hmem hlacks.1
  · obtain ⟨caller, call, hmethod, hadvance⟩ := Program.advance_callVirtual htop natives rest
    rw [hadvance]
    constructor
    · rintro ⟨name, hfault⟩
      by_contra hlacks
      obtain ⟨code, hcode⟩ := hbody hlacks
      exact Program.invoke_missingBody (hmethod ▸ hcode) natives _ w name hfault
    · intro hlacks
      have hkind : (after.program.method call.method).kind = .abstract := by rw [hmethod, hself hlacks, hlacks.1]
      refine ⟨call.method.name, ?_⟩
      rw [Machine.invoke, hkind]
      rfl

/-! ### Squares -/

/-- The constructor that does nothing but call that of the base. -/
def plainConstructor (owner : TypeRef) : Member :=
  .constructor { attributes := {}, body := .expr { params := [⟨.named "this", owner⟩], body := .seq [] } none }

/-- Asks a square for its area. -/
def askSquare : Body where
  params := []
  body := .call (.new (.deferred ⟨⟨"Square"⟩, []⟩) []) (.deferred ⟨⟨"Shape"⟩, "area", [], true⟩) []

/-- Shapes have an area, and squares are shapes. -/
def squares (members : List Member) : Module where
  types := [
    { key := ⟨"Shape"⟩, attributes := { isAbstract := true }
      members := [plainConstructor (.deferred ⟨"Shape"⟩),
        .method { name := "area", attributes := { isAbstract := true }, returnType := .i32, body := .abstract [] }] },
    { key := ⟨"Square"⟩, base := some (.deferred ⟨"Shape"⟩), members := plainConstructor (.deferred
      ⟨"Square"⟩) :: members },
    { key := ⟨"Main"⟩
      members := [.method { name := "run", attributes := { isStatic := true }, returnType := .i32, body := .expr askSquare }] }]

/-- A square with its area. -/
def unitSquares : Module :=
  squares [.method { name := "area", attributes := { isVirtual := true }, returnType := .i32
                     body := .expr ⟨[⟨.named "this", .deferred ⟨"Square"⟩⟩], [], .literal (.i32 1)⟩ }]

/-- Squares are complete and concrete, but the area that they inherit is abstract, and asking for it fails. -/
def lackArea (p : Program) : Bool :=
  let square : TypeId := ⟨1, "Square"⟩
  let area : MethodId := ⟨1, "Shape::area"⟩
  (p.type square).layout.isSome && (p.type square).isConcrete && (p.type square).base == some (.defined ⟨0, "Shape"⟩) &&
    (p.type ⟨0, "Shape"⟩).methods.contains area && (p.method area).isVirtual &&
    (p.method (p.dispatch (.defined square) area)).kind.isAbstract &&
    match (Machine.Loaded.runStatic ⟨p, .standard⟩ 10 "Main" "run" [] {}).1 with
    | some (.error (.missingBody name)) => name == "Shape::area"
    | _ => false

theorem concrete_type_lacks_method : ∃ (built : Built machine) (after : BuildState machine) (square shape : TypeId)
    (area : MethodId), ((squares []).build machine ∅ {}).exec ⟨{}, {}⟩ = (.ok built, after) ∧
    (after.program.type square).layout.isSome = true ∧ (after.program.type square).isConcrete = true ∧
    after.program.Derives square shape ∧ area ∈ (after.program.type shape).methods ∧
    (after.program.method area).isVirtual = true ∧
    (after.program.method (after.program.dispatch (.defined square) area)).kind = .abstract ∧
    (Machine.Loaded.runStatic ⟨after.program, .standard⟩ 10 "Main" "run" [] {}).1 = some
    (.error (.missingBody "Shape::area")) := by
  have hlack : (match ((squares []).build machine ∅ {}).exec ⟨{}, {}⟩ with
      | (.ok _, after) => lackArea after.program
      | _ => false) = true := by decide +kernel
  rcases hbuild : ((squares []).build machine ∅ {}).exec ⟨{}, {}⟩ with ⟨_ | built, after⟩
  · rw [hbuild] at hlack
    cases hlack
  · rw [hbuild] at hlack
    simp only [lackArea, Bool.and_eq_true, beq_iff_eq, List.contains_iff_mem] at hlack
    obtain ⟨⟨⟨⟨⟨⟨hlayout, hconcrete⟩, hbase⟩, hmem⟩, hvirtual⟩, habstract⟩, hrun⟩ := hlack
    refine ⟨built, after, ⟨1, "Square"⟩, ⟨0, "Shape"⟩, ⟨1, "Shape::area"⟩, rfl, hlayout, hconcrete, .single hbase,
      hmem, hvirtual, ?_, ?_⟩
    · cases hkind : (after.program.method (after.program.dispatch (.defined ⟨1, "Square"⟩)
        ⟨1, "Shape::area"⟩)).kind with
      | abstract => rfl
      | defined | native =>
        rw [hkind] at habstract
        cases habstract
    · split at hrun
      · rename_i name hname
        rw [hname, eq_of_beq hrun]
      · cases hrun

/-- Squares that have their own area are asked for it. -/
theorem unitSquares_run : ∃ (built : Built machine) (after : BuildState machine),
    (unitSquares.build machine ∅ {}).exec ⟨{}, {}⟩ = (.ok built, after) ∧
    ∃ code, (after.program.method (after.program.dispatch (.defined ⟨1, "Square"⟩) ⟨1, "Shape::area"⟩)).kind =
      .defined (some code) := by
  have hfacts : (match (unitSquares.build machine ∅ {}).exec ⟨{}, {}⟩ with
      | (.ok _, (after : BuildState machine)) => (after.program.type ⟨1, "Square"⟩).layout.isSome &&
        (after.program.type ⟨1, "Square"⟩).isConcrete && (after.program.type ⟨0, "Shape"⟩).methods.contains
          ⟨1, "Shape::area"⟩ &&
        (after.program.method ⟨1, "Shape::area"⟩).isVirtual &&
        after.program.findMethod ⟨1, "Square"⟩ "area" [] == some ⟨4, "Square::area"⟩ &&
        !(after.program.method ⟨4, "Square::area"⟩).kind.isAbstract &&
          (after.program.method ⟨1, "Shape::area"⟩).name == "area" &&
        (after.program.method ⟨1, "Shape::area"⟩).params == []
      | _ => false) = true := by decide +kernel
  rcases hbuild : (unitSquares.build machine ∅ {}).exec ⟨{}, {}⟩ with ⟨_ | built, after⟩
  · rw [hbuild] at hfacts
    cases hfacts
  · rw [hbuild] at hfacts
    simp only [Bool.and_eq_true, beq_iff_eq, List.contains_iff_mem, Bool.not_eq_true'] at hfacts
    obtain ⟨⟨⟨⟨⟨⟨⟨hlayout, hconcrete⟩, hmem⟩, hvirtual⟩, hfound⟩, hkind⟩, hname⟩, hparams⟩ := hfacts
    refine ⟨built, after, rfl, (complete_types_run_or_lack hbuild ⟨1, "Square"⟩ hlayout hconcrete ⟨0, "Shape"⟩ _ hmem
      hvirtual).1.mpr fun hlacks => ?_⟩
    refine hlacks.2 ⟨1, "Square"⟩ .refl ⟨4, "Square::area"⟩ ⟨?_, hkind⟩
    rw [hname, hparams]
    exact hfound

end Module

end Stackwright
