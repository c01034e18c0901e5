import Stackwright.Proofs.Contracts

/-
  Stackwright.Proofs.Recording — what the recorder writes down does not depend on when.

  The recorder never looks at its log: work on it adds some lines to the log, the same ones
  whatever the log holds (`Adds`). And it has one handle for each key, which can be told from
  the key alone (`Recorder.handleOf`). So a step adds the same lines in every order in which its
  inputs come before it.
-/

namespace Stackwright

variable {key : ItemKey}
variable {α : Type} {slots : Slots recorder.toHandles} {bodies defined : List (Step recorder)}

namespace Recorder

/-! ## Logs -/

namespace Log

def append (a b : Log) : Log := { events := a.events ++ b.events, bodies := a.bodies ++ b.bodies }

instance : Append Log := ⟨append⟩

@[simp] theorem events_append (a b : Log) : (a ++ b).events = a.events ++ b.events := rfl

@[simp] theorem bodies_append (a b : Log) : (a ++ b).bodies = a.bodies ++ b.bodies := rfl

@[ext] theorem ext {a b : Log} (hevents : a.events = b.events) (hbodies : a.bodies = b.bodies) : a = b := by
  cases a
  cases b
  simp_all

theorem append_empty (a : Log) : a ++ ({} : Log) = a := by
  ext1 <;> simp

theorem append_assoc (a b c : Log) : a ++ b ++ c = a ++ (b ++ c) := by
  ext1 <;> simp

end Log

/-! ## Work that adds to the log -/

section Adds

variable {σ ρ α β : Type} {put : Log → ρ → σ}

/-- Work whose result, and what it adds to the log, do not depend on the log. The log is one part
    of the state; `put` joins it with the rest. -/
def Adds (put : Log → ρ → σ) (x : Effect σ α) : Prop :=
  ∀ rest, ∃ r rest' added, ∀ log, x.exec (put log rest) = (r, put (log ++ added) rest')

namespace Adds

theorem of_keeps {x : Effect σ α} (h : ∀ rest, ∃ r rest', ∀ log, x.exec (put log rest) = (r, put log rest')) :
    Adds put x := by
  intro rest
  obtain ⟨r, rest', hexec⟩ := h rest
  exact ⟨r, rest', {}, fun log => by rw [hexec, log.append_empty]⟩

theorem pure (a : α) : Adds put (pure a) := of_keeps fun rest => ⟨.ok a, rest, fun _ => rfl⟩

theorem throw (e : BuildError) : Adds put (throw e : Effect σ α) := of_keeps fun rest => ⟨.error e, rest, fun _ => rfl⟩

theorem lift (x : Except BuildError α) : Adds put (liftM x) := of_keeps fun rest => ⟨x, rest, fun _ => rfl⟩

theorem bind {x : Effect σ α} {f : α → Effect σ β} (hx : Adds put x) (hf : ∀ a, Adds put (f a)) :
    Adds put (x >>= f) := by
  intro rest
  obtain ⟨r, rest₁, first, hexec⟩ := hx rest
  cases r with
  | error e => exact ⟨.error e, rest₁, first, fun log => by rw [Effect.exec_bind, hexec]⟩
  | ok a =>
    obtain ⟨r, rest₂, second, hrest⟩ := hf a rest₁
    refine ⟨r, rest₂, first ++ second, fun log => ?_⟩
    rw [Effect.exec_bind, hexec, ← Log.append_assoc]
    exact hrest (log ++ first)

end Adds

end Adds

/-- The log alone. -/
def alone (log : Log) (_ : Unit) : Log := log

/-- The log while a body is written. -/
def whileWriting (log : Log) (e : Emission recorder) : Emission recorder := { e with program := log }

/-- The log while steps are carried out. -/
def whileBuilding (log : Log) (slots : Slots recorder.toHandles) : Workspace recorder := { program := log, slots }

/-- Work on the log alone. -/
theorem Adds.exec {x : Effect Log α} (hx : Adds alone x) : ∃ r added, ∀ log, x.exec log = (r, log ++ added) := by
  obtain ⟨r, rest, added, hexec⟩ := hx ()
  exact ⟨r, added, hexec⟩

theorem adds_event (text : String) : Adds alone (event text) := by
  intro rest
  refine ⟨.ok (), (), { events := #[text] }, fun log => ?_⟩
  have : log ++ ({ events := #[text] } : Log) = { log with events := log.events.push text } := by
    ext1 <;> simp
  rw [alone, alone, this]
  rfl

theorem adds_namedType (name : String) : Adds alone (namedType name) := by
  unfold namedType
  split
  · exact .throw _
  · exact .pure _

theorem adds_body (member : String) (draft : Lines) : Adds alone (body member draft) := by
  refine (adds_event _).bind fun _ rest => ?_
  refine ⟨.ok (), (), { bodies := #[(member, draft.lines)] }, fun log => ?_⟩
  have : log ++ ({ bodies := #[(member, draft.lines)] } : Log) =
      { log with bodies := log.bodies.push (member, draft.lines) } := by
    ext1 <;> simp
  rw [alone, alone, this]
  rfl

end Recorder

open Recorder

/-! ## References -/

section References

variable (slots : Slots recorder.toHandles)

mutual
theorem TypeRef.adds_resolve : ∀ t : TypeRef, Adds alone (t.resolve recorder slots)
  | .deferred _ => .lift _
  | .primitive _ => .pure _
  | .named name => adds_namedType name
  | .cell content => (content.adds_resolve).bind fun _ => .pure _
  | .delegate params ret => (TypeRef.adds_resolveAll params).bind fun _ => (ret.adds_resolve).bind fun _ => .pure _

theorem TypeRef.adds_resolveAll : ∀ ts : List TypeRef, Adds alone (TypeRef.resolveAll recorder slots ts)
  | [] => .pure _
  | t :: ts => (t.adds_resolve).bind fun _ => (TypeRef.adds_resolveAll ts).bind fun _ => .pure _
end

theorem MethodRef.adds_resolve (m : MethodRef) : Adds alone (m.resolve recorder slots) := by
  cases m with
  | deferred key => exact .lift _
  | existing m =>
    exact (m.owner.adds_resolve slots).bind fun _ => (TypeRef.adds_resolveAll slots m.params).bind fun _ =>
      (m.returnType.adds_resolve slots).bind fun _ => .pure _

theorem ConstructorRef.adds_resolve (c : ConstructorRef) : Adds alone (c.resolve recorder slots) := by
  cases c with
  | deferred key => exact .lift _
  | existing c =>
    exact (c.owner.adds_resolve slots).bind fun _ => (TypeRef.adds_resolveAll slots c.params).bind fun _ => .pure _

theorem FieldRef.adds_resolve (f : FieldRef) : Adds alone (f.resolve recorder slots) := by
  cases f with
  | deferred key => exact .lift _
  | existing f =>
    exact (f.owner.adds_resolve slots).bind fun _ => (f.fieldType.adds_resolve slots).bind fun _ => .pure _

end References

/-! ## Bodies -/

namespace Emission

variable {α : Type}

theorem adds_ofProgram {x : Effect Log α} (hx : Adds alone x) : Adds whileWriting (ofProgram (T := recorder) x) := by
  intro e
  obtain ⟨r, added, hexec⟩ := hx.exec
  refine ⟨r, e, added, fun log => ?_⟩
  show ((x.exec log).1, { e with program := (x.exec log).2 }) = _
  rw [hexec]
  rfl

theorem adds_ofDraft (x : Effect Lines α) : Adds whileWriting (ofDraft (T := recorder) x) :=
  .of_keeps fun e => ⟨(x.exec e.draft).1, { e with draft := (x.exec e.draft).2 }, fun _ => rfl⟩

theorem adds_bindLabel (name : Symbol) (label : String) : Adds whileWriting (bindLabel (T := recorder) name label) :=
  .of_keeps fun e => ⟨.ok (), { e with labels := (name, label) :: e.labels }, fun _ => rfl⟩

theorem adds_bindLocal (name : Symbol) (slot : String) : Adds whileWriting (bindLocal (T := recorder) name slot) :=
  .of_keeps fun e => ⟨.ok (), { e with locals := (name, slot) :: e.locals }, fun _ => rfl⟩

theorem adds_label (name : Symbol) : Adds whileWriting (label (T := recorder) name) := by
  refine .of_keeps fun e => ?_
  cases hfind : find? e.labels name with
  | none =>
    exact ⟨.error (.structural (.labelOutsideRegion name)), e,
      fun log => by simp [label, whileWriting, Effect.exec_bind, hfind]⟩
  | some l => exact ⟨.ok l, e, fun log => by simp [label, whileWriting, Effect.exec_bind, hfind]⟩

theorem adds_localOf (name : Symbol) : Adds whileWriting (localOf (T := recorder) name) := by
  refine .of_keeps fun e => ?_
  cases hfind : find? e.locals name with
  | none =>
    exact ⟨.error (.structural (.localUndeclared name)), e,
      fun log => by simp [localOf, whileWriting, Effect.exec_bind, hfind]⟩
  | some l => exact ⟨.ok l, e, fun log => by simp [localOf, whileWriting, Effect.exec_bind, hfind]⟩

theorem adds_labelsOf : ∀ names : List Symbol, Adds whileWriting (labelsOf (T := recorder) names)
  | [] => .pure _
  | name :: names => (adds_label name).bind fun _ => (adds_labelsOf names).bind fun _ => .pure _

variable (slots : Slots recorder.toHandles)

theorem adds_instr (i : Instr) : Adds whileWriting (instr (T := recorder) slots i) := by
  have hput (op : Op recorder.toHandles) : Adds whileWriting (put op) := adds_ofDraft _
  have htype (t : TypeRef) : Adds whileWriting (type slots t) := adds_ofProgram (t.adds_resolve slots)
  cases i with
  | label name => exact (adds_label name).bind fun _ => adds_ofDraft _
  | beginTry name => exact (adds_ofDraft _).bind fun _ => adds_bindLabel _ _
  | beginCatch t => exact (htype t).bind fun _ => adds_ofDraft _
  | beginFinally | endTry name => exact adds_ofDraft _
  | loadLocal name | storeLocal name => exact (adds_localOf name).bind fun _ => hput _
  | branch kind name | leave name => exact (adds_label name).bind fun _ => hput _
  | «switch» names => exact (adds_labelsOf names).bind fun _ => hput _
  | loadField f | storeField f | loadStatic f | storeStatic f =>
    exact (adds_ofProgram (f.adds_resolve slots)).bind fun _ => hput _
  | newObject c | callConstructor c => exact (adds_ofProgram (c.adds_resolve slots)).bind fun _ => hput _
  | call m tail | callVirtual m tail => exact (adds_ofProgram (m.adds_resolve slots)).bind fun _ => hput _
  | typeOp kind t | invokeDelegate t tail => exact (htype t).bind fun _ => hput _
  | newDelegate t m => exact (htype t).bind fun _ => (adds_ofProgram (m.adds_resolve slots)).bind fun _ => hput _
  | _ => exact hput _

theorem adds_instrs : ∀ code : List Instr, Adds whileWriting (instrs (T := recorder) slots code)
  | [] => .pure _
  | i :: code => (adds_instr slots i).bind fun _ => adds_instrs code

theorem adds_declareLocals : ∀ ls : List LocalDecl, Adds whileWriting (declareLocals (T := recorder) slots ls)
  | [] => .pure _
  | l :: ls => (adds_ofProgram (l.type.adds_resolve slots)).bind fun _ => (adds_ofDraft _).bind fun _ =>
    (adds_bindLocal _ _).bind fun _ => adds_declareLocals ls

theorem adds_defineLabels : ∀ code : List Instr, Adds whileWriting (defineLabels (T := recorder) code)
  | [] => .pure _
  | i :: code => by
    have hrest := adds_defineLabels code
    cases i with
    | label name => exact (adds_ofDraft _).bind fun _ => (adds_bindLabel _ _).bind fun _ => hrest
    | _ => exact hrest

theorem adds_block (b : Block) : Adds whileWriting (block (T := recorder) slots b) :=
  (Adds.lift _).bind fun _ => (adds_declareLocals slots _).bind fun _ => (adds_defineLabels _).bind fun _ =>
    adds_instrs slots _

end Emission

/-! ## Steps -/

namespace Workspace

variable {α : Type}

theorem adds_ofProgram {x : Effect Log α} (hx : Adds alone x) : Adds whileBuilding (ofProgram (T := recorder) x) := by
  intro slots
  obtain ⟨r, added, hexec⟩ := hx.exec
  refine ⟨r, slots, added, fun log => ?_⟩
  show ((x.exec log).1, Workspace.mk (x.exec log).2 slots) = _
  rw [hexec]
  rfl

theorem adds_following {x : Slots recorder.toHandles → Effect recorder.State α} (hx : ∀ slots, Adds alone (x slots)) :
    Adds whileBuilding (TypeDefinition.following recorder x) := fun slots => adds_ofProgram (hx slots) slots

theorem adds_read (key : ItemKey) : Adds whileBuilding (read (T := recorder) key) :=
  .of_keeps fun slots => ⟨slots.read key, slots, fun _ => rfl⟩

theorem adds_write (key : ItemKey) (v : recorder.At key) : Adds whileBuilding (write key v) := by
  refine .of_keeps fun slots => ?_
  cases hwrite : slots.write key v with
  | error e => exact ⟨.error e, slots, fun log => by simp [write, whileBuilding, Effect.exec_bind, hwrite]⟩
  | ok after => exact ⟨.ok (), after, fun log => by simp [write, whileBuilding, Effect.exec_bind, hwrite]⟩

end Workspace

namespace TypeDefinition

open Workspace

variable (d : TypeDefinition)

theorem adds_resolve (t : TypeRef) : Adds whileBuilding (resolve recorder t) := adds_following fun slots =>
    t.adds_resolve slots

theorem adds_resolveAll (ts : List TypeRef) : Adds whileBuilding (resolveAll recorder ts) :=
  adds_following fun slots => TypeRef.adds_resolveAll slots ts

theorem adds_resolveMethod? (m : Option MethodRef) : Adds whileBuilding (resolveMethod? recorder m) := by
  cases m with
  | none => exact .pure _
  | some m => exact (adds_following fun slots => m.adds_resolve slots).bind fun _ => .pure _

/-- Handing a body over: what comes of it when the block is written, and when it is not. -/
theorem exec_writeBody_of {T : Target} {b : Block} {accept : T.Draft → Effect T.State Unit} {w : Workspace T}
    {outcome : Except BuildError Unit} {e : Emission T}
    (hblock : (Emission.block w.slots b).exec { program := w.program, draft := T.emptyDraft } = (outcome, e)) :
    (writeBody T b accept).exec w = match outcome with
      | .error fault => (.error fault, { w with program := e.program })
      | .ok () => (((accept e.draft).exec e.program).1, { w with program := ((accept e.draft).exec e.program).2 }) := by
  cases outcome <;> simp [writeBody, ofProgram, Effect.exec_bind, hblock]

theorem adds_writeBody (b : Block) {accept : Lines → Effect Log Unit} (haccept : ∀ draft, Adds alone (accept draft)) :
    Adds whileBuilding (writeBody recorder b accept) := by
  intro slots
  obtain ⟨outcome, e, first, hblock⟩ := Emission.adds_block slots b { program := {}, draft := recorder.emptyDraft }
  obtain ⟨r, second, haccepted⟩ := (haccept e.draft).exec
  have hexec (log : Log) := @exec_writeBody_of recorder b accept (whileBuilding log slots) _ _ (hblock log)
  cases outcome with
  | error fault => exact ⟨.error fault, slots, first, hexec⟩
  | ok done =>
    refine ⟨r, slots, first ++ second, fun log => ?_⟩
    have hlast := haccepted (log ++ first)
    rw [Log.append_assoc] at hlast
    rw [hexec]
    exact congrArg (fun p : Except BuildError Unit × Log => (p.1, whileBuilding p.2 slots)) hlast

theorem adds_typeStep : Adds whileBuilding (d.typeStep recorder).action := by
  have hrest (base : Option String) : Adds whileBuilding (do
      let interfaces ← resolveAll recorder d.interfaces
      let handle ← ofProgram (recorder.defineType d.key.name d.attributes base interfaces)
      write (.type d.key) handle) :=
    (adds_resolveAll _).bind fun _ => (adds_ofProgram ((adds_event _).bind fun _ => .pure _)).bind fun _ =>
      adds_write _ _
  simp only [typeStep]
  cases d.base with
  | none => exact (Adds.pure none).bind hrest
  | some base => exact ((adds_resolve base).bind fun _ => .pure _).bind hrest

theorem adds_fieldStep (f : FieldDefinition) : Adds whileBuilding (d.fieldStep recorder f).action :=
  (adds_read _).bind fun _ => (adds_resolve _).bind fun _ =>
    (adds_ofProgram ((adds_event _).bind fun _ => .pure _)).bind fun _ => adds_write _ _

theorem adds_methodStep (key : MethodKey) (m : MethodDefinition) :
    Adds whileBuilding (d.methodStep recorder key m).action :=
  (adds_read _).bind fun _ => (adds_resolveAll _).bind fun _ => (adds_resolve _).bind fun _ =>
    (adds_ofProgram ((adds_event _).bind fun _ => .pure _)).bind fun _ => adds_write _ _

theorem adds_constructorStep (key : ConstructorKey) (c : ConstructorDefinition) :
    Adds whileBuilding (d.constructorStep recorder key c).action :=
  (adds_read _).bind fun _ => (adds_resolveAll _).bind fun _ =>
    (adds_ofProgram ((adds_event _).bind fun _ => .pure _)).bind fun _ => adds_write _ _

theorem adds_propertyStep (p : PropertyDefinition) : Adds whileBuilding (d.propertyStep recorder p).action :=
  (adds_read _).bind fun _ => (adds_resolve _).bind fun _ => (adds_resolveMethod? _).bind fun _ =>
    (adds_resolveMethod? _).bind fun _ => (adds_ofProgram ((adds_event _).bind fun _ => .pure _)).bind fun _ =>
      adds_write _ _

theorem adds_finalizeStep : Adds whileBuilding (d.finalizeStep recorder).action :=
  (adds_read _).bind fun _ => (adds_ofProgram ((adds_event _).bind fun _ => .pure _)).bind fun _ => adds_write _ _

theorem adds_methodBodyStep (key : MethodKey) (b : Block) : Adds whileBuilding (methodBodyStep recorder key b).action :=
  (adds_read _).bind fun method => adds_writeBody b fun draft => adds_body method draft

theorem adds_constructorBodyStep (key : ConstructorKey) (b : Block) :
    Adds whileBuilding (constructorBodyStep recorder key b).action :=
  (adds_read _).bind fun ctor => adds_writeBody b fun draft => adds_body ctor draft

end TypeDefinition

/-! ## Handles -/

theorem Slots.state?_of_read {H : Handles} {slots : Slots H} {v : H.At key} (h : slots.read key = .ok v) :
    slots.state? key = some true := by
  unfold read at h
  unfold state?
  split at h
  · rename_i slot hslot
    unfold Slot.read at h
    rw [hslot, Option.map_some, Slot.isWritten]
    split at h
    · rename_i hcontent
      rw [hcontent]
      rfl
    · cases h
  · cases h

namespace Recorder

/-- The text that stands for a key. -/
def title : ItemKey → String
  | .type key => key.name
  | .completed key => key.name ++ "!"
  | .method key => member key.owner.name key.name
  | .constructor key => constructorOf key.owner.name
  | .field key => member key.owner.name key.name
  | .property key => member key.owner.name key.name

/-- The handle of a key. -/
def handleOf (key : ItemKey) : recorder.At key := handle key (title key)

/-- Every handle is that of its key. -/
def Canonical (slots : Slots recorder.toHandles) : Prop := ∀ key v, slots.read key = .ok v → v = handleOf key

theorem Canonical.read (h : Canonical slots) (hkey : slots.isWritten key)
    : slots.read key = .ok (handleOf key) := by
  obtain ⟨v, hv⟩ := Slots.read_of_isWritten hkey
  rw [hv, h key v hv]

theorem Canonical.write {after : Slots recorder.toHandles} (h : Canonical slots)
    (hwrite : slots.write key (handleOf key) = .ok after) : Canonical after := by
  have hempty : slots.state? key = some false := by
    unfold Slots.write at hwrite
    unfold Slots.state?
    split at hwrite
    · cases hwrite
    · rename_i slot hslot
      obtain ⟨written, hwritten, -⟩ := except_bind_ok.mp hwrite
      unfold Slot.write at hwritten
      rw [hslot, Option.map_some, Slot.isWritten]
      split at hwritten
      · rename_i hcontent
        rw [hcontent]
        rfl
      · cases hwritten
  obtain ⟨after', hwrite', -, hread, hsame⟩ := Slots.write_unwritten hempty (handleOf key)
  rw [hwrite] at hwrite'
  cases hwrite'
  intro k v hv
  by_cases hk : k = key
  · subst hk
    rw [hread] at hv
    cases hv
    rfl
  · refine h k v ?_
    rw [← hv, Slots.read, Slots.read, hsame k hk]

/-- Work that leaves the slots alone and gives something that fits `post`. -/
def Yields {α : Type} (post : α → Prop) (x : Effect (Workspace recorder) α) : Prop :=
  ∀ w, Canonical w.slots → (x.exec w).2.slots = w.slots ∧ ∀ a, (x.exec w).1 = .ok a → post a

/-- Work after which every handle is still that of its key. -/
def Labels (x : Effect (Workspace recorder) Unit) : Prop := ∀ w, Canonical w.slots → Canonical (x.exec w).2.slots

theorem Yields.confined {x : Effect (Workspace recorder) α} (hx : Workspace.Confined (fun _ => True) x) :
    Yields (fun _ => True) x := by
  intro w _
  obtain ⟨r, program, hexec, -⟩ := hx.alike w.program w.slots w.slots fun _ _ => rfl
  rw [hexec]
  exact ⟨rfl, fun _ _ => trivial⟩

theorem Yields.read (key : ItemKey) : Yields (· = handleOf key) (Workspace.read key) := by
  intro w hw
  exact ⟨rfl, fun v hv => hw key v hv⟩

theorem Labels.bind {post : α → Prop} {x : Effect (Workspace recorder) α} {f : α → Effect (Workspace recorder) Unit}
    (hx : Yields post x) (hf : ∀ a, post a → Labels (f a)) : Labels (x >>= f) := by
  intro w hw
  obtain ⟨hslots, hpost⟩ := hx w hw
  rcases hexec : x.exec w with ⟨r, w'⟩
  rw [hexec] at hslots hpost
  rw [Effect.exec_bind, hexec]
  cases r with
  | error e => exact hslots ▸ hw
  | ok a => exact hf a (hpost a rfl) w' (hslots ▸ hw)

theorem Labels.write {v : recorder.At key} (hv : v = handleOf key) : Labels (Workspace.write key v) := by
  intro w hw
  subst hv
  cases hwrite : w.slots.write key (handleOf key) with
  | error e =>
    rw [show (Workspace.write key (handleOf key)).exec w =
      (.error e, w) by simp [Workspace.write, Effect.exec_bind, hwrite]]
    exact hw
  | ok after =>
    rw [show (Workspace.write key (handleOf key)).exec w = (.ok (), { w with slots := after }) by
      simp [Workspace.write, Effect.exec_bind, hwrite]]
    exact hw.write hwrite

/-- Work on the log that gives the handle of a key. -/
theorem Yields.define (key : ItemKey) {x : Effect recorder.State (recorder.At key)}
    (hx : ∀ log, (x.exec log).1 = .ok (handleOf key)) : Yields (· = handleOf key) (Workspace.ofProgram x) := by
  intro w _
  refine ⟨rfl, fun a ha => ?_⟩
  exact (Except.ok.inj ((hx w.program).symm.trans ha)).symm

end Recorder

namespace TypeDefinition

variable (d : TypeDefinition)

theorem yields_resolve (t : TypeRef) : Yields (fun _ => True) (resolve recorder t) := .confined
    (confined_resolve fun _ _ => trivial)

theorem yields_resolveAll (ts : List TypeRef) : Yields (fun _ => True) (resolveAll recorder ts) :=
  .confined (confined_resolveAll fun _ _ => trivial)

theorem yields_resolveMethod? (m : Option MethodRef) : Yields (fun _ => True) (resolveMethod? recorder m) :=
  .confined (confined_resolveMethod? fun _ _ _ _ => trivial)

theorem labels_typeStep : Labels (d.typeStep recorder).action := by
  have hrest (base : Option String) : Labels (do
      let interfaces ← resolveAll recorder d.interfaces
      let handle ← Workspace.ofProgram (recorder.defineType d.key.name d.attributes base interfaces)
      Workspace.write (.type d.key) handle) :=
    .bind (yields_resolveAll _) fun _ _ => .bind (.define (.type d.key) fun _ => rfl) fun _ h => .write h
  simp only [typeStep]
  cases d.base with
  | none => exact .bind (.confined (.pure none)) fun base _ => hrest base
  | some base =>
    exact .bind (.confined ((confined_resolve fun _ _ => trivial).bind fun _ => .pure _)) fun base _ => hrest base

theorem labels_fieldStep (f : FieldDefinition) : Labels (d.fieldStep recorder f).action := by
  refine .bind (.read (.type d.key)) fun owner howner => .bind (yields_resolve _) fun _ _ => ?_
  subst howner
  exact .bind (.define (.field (d.fieldKey f)) fun _ => rfl) fun _ h => .write h

theorem labels_methodStep {key : MethodKey} (howner : key.owner = d.key) (m : MethodDefinition) :
    Labels (d.methodStep recorder key m).action := by
  refine .bind (.read (.type d.key)) fun owner hread => .bind (yields_resolveAll _) fun _ _ =>
    .bind (yields_resolve _) fun _ _ => ?_
  subst hread
  rw [← howner]
  exact .bind (.define (.method key) fun _ => rfl) fun _ h => .write h

theorem labels_constructorStep {key : ConstructorKey} (howner : key.owner = d.key) (c : ConstructorDefinition) :
    Labels (d.constructorStep recorder key c).action := by
  refine .bind (.read (.type d.key)) fun owner hread => .bind (yields_resolveAll _) fun _ _ => ?_
  subst hread
  rw [← howner]
  exact .bind (.define (.constructor key) fun _ => rfl) fun _ h => .write h

theorem labels_propertyStep (p : PropertyDefinition) : Labels (d.propertyStep recorder p).action := by
  refine .bind (.read (.type d.key)) fun owner hread => .bind (yields_resolve _) fun _ _ =>
    .bind (yields_resolveMethod? _) fun _ _ => .bind (yields_resolveMethod? _) fun _ _ => ?_
  subst hread
  exact .bind (.define (.property (d.propertyKey p)) fun _ => rfl) fun _ h => .write h

theorem labels_finalizeStep : Labels (d.finalizeStep recorder).action := by
  refine .bind (.read (.type d.key)) fun owner hread => ?_
  subst hread
  exact .bind (.define (.completed d.key) fun _ => rfl) fun _ h => .write h

theorem labels_writeBody (b : Block) {accept : recorder.Draft → Effect recorder.State Unit} :
    Labels (writeBody recorder b accept) := by
  intro w hw
  rcases hblock : (Emission.block w.slots b).exec { program := w.program, draft := recorder.emptyDraft }
    with ⟨outcome, e⟩
  rw [exec_writeBody_of hblock]
  cases outcome <;> exact hw

end TypeDefinition

/-- A step on the recorder whose result, lines and handles can be told from its inputs. -/
structure Step.Recordable (step : Step recorder) : Prop where
  contract : step.KeepsContract
  adds : Adds whileBuilding step.action
  labels : Labels step.action

namespace TypeDefinition

variable {d : TypeDefinition} {h : Hierarchy} {options : BuildOptions} {s t : Supply}

theorem methodKey_owner {m : MethodDefinition} {key : MethodKey} (hkey : d.methodKey m = .ok key) :
    key.owner = d.key := by
  unfold methodKey at hkey
  split at hkey
  · cases hkey
    rfl
  · cases hkey
    rfl
  · split at hkey
    · obtain ⟨params, -, hkey⟩ := except_bind_ok.mp hkey
      cases hkey
      rfl
    · cases hkey
      rfl

theorem constructorKey_owner {c : ConstructorDefinition} {key : ConstructorKey} (hkey : d.constructorKey c = .ok key) :
    key.owner = d.key := by
  unfold constructorKey at hkey
  split at hkey
  · cases hkey
    rfl
  · obtain ⟨params, -, hkey⟩ := except_bind_ok.mp hkey
    cases hkey
    rfl

theorem methodBodyStep_recordable (key : MethodKey) (b : Block) : (methodBodyStep recorder key b).Recordable where
  contract := methodBodyStep_keepsContract
  adds := adds_methodBodyStep key b
  labels := .bind (.read (.method key)) fun _ _ => labels_writeBody b

theorem constructorBodyStep_recordable (key : ConstructorKey) (b : Block) :
    (constructorBodyStep recorder key b).Recordable where
  contract := constructorBodyStep_keepsContract
  adds := adds_constructorBodyStep key b
  labels := .bind (.read (.constructor key)) fun _ _ => labels_writeBody b

theorem MemberSteps.recordable {m : Member} (hs : MemberSteps recorder d h options m s defined bodies t)
    : ∀ step ∈ defined ++ bodies, step.Recordable := by
  have hmethod {m : MethodDefinition} {key : MethodKey} (hkey : d.methodKey m = .ok key) :
      (d.methodStep recorder key m).Recordable :=
    ⟨methodStep_keepsContract, d.adds_methodStep key m, d.labels_methodStep (methodKey_owner hkey) m⟩
  have hconstructor {c : ConstructorDefinition} {key : ConstructorKey} (hkey : d.constructorKey c = .ok key) :
      (d.constructorStep recorder key c).Recordable :=
    ⟨constructorStep_keepsContract, d.adds_constructorStep key c,
      d.labels_constructorStep (constructorKey_owner hkey) c⟩
  cases hs with
  | @field f => simpa using Step.Recordable.mk fieldStep_keepsContract (d.adds_fieldStep f) (d.labels_fieldStep f)
  | @property p =>
    simpa using Step.Recordable.mk propertyStep_keepsContract (d.adds_propertyStep p) (d.labels_propertyStep p)
  | abstract _ hkey => simpa using hmethod hkey
  | code _ hkey | expr _ hkey => simpa using ⟨hmethod hkey, methodBodyStep_recordable _ _⟩
  | constructorCode _ hkey | constructorExpr _ hkey =>
    simpa using ⟨hconstructor hkey, constructorBodyStep_recordable _ _⟩

theorem MembersSteps.recordable {ms : List Member} (hs : MembersSteps recorder d h options ms s defined bodies t)
    : ∀ step ∈ defined ++ bodies, step.Recordable := by
  induction hs with
  | nil => simp
  | cons hfirst _ ih =>
    have hown := hfirst.recordable
    simp only [List.forall_mem_append] at hown ih ⊢
    exact ⟨⟨hown.1, ih.1⟩, hown.2, ih.2⟩

theorem steps_recordable {steps : List (Step recorder)} (hs : (d.steps recorder h options).exec s = (.ok steps, t)) :
    ∀ step ∈ steps, step.Recordable := by
  obtain ⟨defined, bodies, hmembers, rfl⟩ := of_steps hs
  have hrecordable := hmembers.recordable
  simp only [List.cons_append, List.forall_mem_cons, List.forall_mem_append] at hrecordable ⊢
  exact ⟨⟨typeStep_keepsContract, d.adds_typeStep, d.labels_typeStep⟩, hrecordable,
    ⟨finalizeStep_keepsContract, d.adds_finalizeStep, d.labels_finalizeStep⟩, by simp⟩

end TypeDefinition

/-! ## Carrying out steps -/

namespace Step

/-- The slots of some keys, written with their handles. -/
def fill (keys : List ItemKey) (slots : Slots recorder.toHandles) : Slots recorder.toHandles :=
  keys.foldl (fun s key => s.insert key { key, content := some (handleOf key) }) slots

theorem get?_fill (keys : List ItemKey) (slots : Slots recorder.toHandles) (k : ItemKey) :
    (fill keys slots).get? k = if k ∈ keys then some { key := k, content := some (handleOf k) } else slots.get? k := by
  induction keys generalizing slots with
  | nil => rfl
  | cons key keys ih =>
    show (fill keys (slots.insert key { key, content := some (handleOf key) })).get? k = _
    rw [ih, Std.DTreeMap.get?_insert]
    by_cases hk : key = k
    · subst hk
      simp
    · rw [dif_neg fun hcompare => hk (Std.LawfulEqCmp.eq_of_compare hcompare)]
      simp [Ne.symm hk]

/-- A place where the step can be tried: its inputs are written and its outputs are empty. -/
def trial (step : Step recorder) : Slots recorder.toHandles := fill step.inputs.toList (createSlots [step] ∅)

/-- The result of a step, and what it adds to the log. -/
def record (step : Step recorder) : Except BuildError Unit × Log :=
  ((step.action.exec (whileBuilding {} step.trial)).1, (step.action.exec (whileBuilding {} step.trial)).2.program)

variable {step : Step recorder}

theorem read_trial (hkey : key ∈ step.inputs) : step.trial.read key = .ok (handleOf key) := by
  rw [Slots.read, trial, get?_fill, if_pos (Std.TreeSet.mem_toList.mpr hkey)]
  rfl

theorem state?_trial (hinput : key ∉ step.inputs) (hkey : key ∈ step.outputs) : step.trial.state? key = some false := by
  rw [Slots.state?, trial, get?_fill, if_neg fun h => hinput (Std.TreeSet.mem_toList.mp h)]
  refine (state?_createSlots [step] ∅ key).trans ?_
  rw [Slots.state?_empty, if_pos (mem_makes.mpr ⟨step.toTask, by simp, hkey⟩)]
  rfl

/-- Once its inputs are written, a step has the same result and adds the same lines, wherever it is carried out. -/
theorem exec_run_recorded (h : step.Recordable) (log : Log) (hw : Canonical slots)
    (hinputs : ∀ key ∈ step.inputs, slots.isWritten key)
    (hempty : ∀ key ∈ step.outputs, slots.state? key = some false) :
    ∃ after, step.run.exec (whileBuilding log slots) = (step.record.1, whileBuilding (log ++ step.record.2) after) ∧
      Canonical after ∧ (step.record.1 = .ok () → (∀ key ∈ step.outputs, after.state? key = some true) ∧
        ∀ key, key ∉ step.outputs → after.state? key = slots.state? key) := by
  have hdisjoint : ∀ key ∈ step.outputs, key ∉ step.inputs := by
    intro key hout hin
    have := hempty key hout
    rw [Slots.isWritten_iff.mp (hinputs key hin)] at this
    cases this
  obtain ⟨r, program, after, _, hexec, htried, hdone⟩ := h.contract.alike log slots step.trial
    (fun key hkey => (hw.read (hinputs key hkey)).trans (read_trial hkey).symm)
    (fun key hkey => ⟨hempty key hkey, state?_trial (hdisjoint key hkey) hkey⟩)
  obtain ⟨r', slots', added, hadds⟩ := h.adds step.trial
  have hrecord : step.record = (r', added) := by
    rw [record, hadds]
    refine congrArg (Prod.mk r') ?_
    show ({} : Log) ++ added = added
    ext1 <;> simp
  have hsame := htried.symm.trans (hadds log)
  rw [Prod.mk.injEq] at hsame
  obtain ⟨rfl, hworkspace⟩ := hsame
  obtain rfl : program = log ++ added := congrArg Workspace.program hworkspace
  have hlabels : Canonical after := by
    have := h.labels (whileBuilding log slots) hw
    rwa [whileBuilding, hexec] at this
  rw [hrecord]
  refine ⟨after, ?_, hlabels, fun hr => ?_⟩
  · rw [run, Effect.exec_bind, whileBuilding, hexec]
    cases r with
    | error e => rfl
    | ok done =>
      have hnone : (step.outputs.toList.find? fun key => !after.isWritten key) = none := by
        refine List.find?_eq_none.mpr fun key hkey => ?_
        simp [((hdone rfl).1 key (Std.TreeSet.mem_toList.mp hkey)).1]
      simp only [Effect.exec_bind, Effect.exec_get, hnone]
      rfl
  · obtain ⟨hmade, hkept⟩ := hdone hr
    refine ⟨fun key hkey => Slots.isWritten_iff.mp (hmade key hkey).1, fun key hkey => ?_⟩
    rw [Slots.state?, Slots.state?, (hkept key hkey).1]

variable {steps : List (Step recorder)}

/-- The lines of the steps at some places, in that order. -/
def records (steps : List (Step recorder)) (places : List Nat) :
    List Log := (places.filterMap (steps[·]?)).map (·.record.2)

/-- Carrying out the rest of a schedule succeeds when each step does, and adds the lines of each. -/
theorem exec_runAll_recorded (hrecordable : ∀ step ∈ steps, step.Recordable) (hone : Task.OneMaker (tasks steps))
    {order : List Nat} (hschedule : Task.Schedule (tasks steps) order) : ∀ {after before : List Nat} (log : Log)
      {slots : Slots recorder.toHandles},
      order = before ++ after → slots.After (tasks steps) before → Canonical slots →
      ∃ r log' slots', (runAll steps.toArray after).exec (whileBuilding log slots) = (r, whileBuilding log' slots') ∧
        ((∃ texts, r = .ok texts) ↔ ∀ i ∈ after, ∀ step, steps[i]? = some step → step.record.1 = .ok ()) ∧
        ((∃ texts, r = .ok texts) → slots'.After (tasks steps) order ∧ Canonical slots' ∧
          log' = (records steps after).foldl (· ++ ·) log)
  | [], before, log, slots, horder, hw, hcanonical => by
    rw [List.append_nil] at horder
    exact ⟨.ok [], log, slots, rfl, by simp, fun _ => ⟨horder ▸ hw, hcanonical, rfl⟩⟩
  | i :: after, before, log, slots, horder, hw, hcanonical => by
    obtain ⟨step, hstep, hnext⟩ := runAll_next hschedule horder
    have htask : (tasks steps)[i]? = some step.toTask := by simp [hstep]
    obtain ⟨hinputs, hempty⟩ := hw.ready hone (horder ▸ hschedule) htask
    obtain ⟨slots₁, hrun, hcanonical₁, hdone⟩ := exec_run_recorded (hrecordable _ (List.mem_of_getElem? hstep)) log
      hcanonical hinputs hempty
    rw [hnext, Effect.exec_bind, hrun]
    cases hr : step.record.1 with
    | error e =>
      refine ⟨.error e, _, slots₁, rfl, ⟨?_, fun hall => ?_⟩, ?_⟩
      · rintro ⟨texts, h⟩
        cases h
      · have := hall i List.mem_cons_self _ hstep
        rw [hr] at this
        cases this
      · rintro ⟨texts, h⟩
        cases h
    | ok done =>
      obtain ⟨hmade, hkept⟩ := hdone hr
      have hsplit : order = before ++ [i] ++ after := by simpa using horder
      obtain ⟨r, log', slots', hrest, hiff, hresult⟩ := exec_runAll_recorded hrecordable hone hschedule
        (log ++ step.record.2) hsplit (hw.next htask hmade hkept) hcanonical₁
      refine ⟨r.map (step.description :: ·), log', slots', ?_, ?_, ?_⟩
      · simp only [Effect.exec_bind, hrest]
        cases r <;> rfl
      · rw [List.forall_mem_cons, ← hiff]
        cases r with
        | error e => simp [Except.map]
        | ok texts =>
          refine ⟨fun _ => ⟨fun step h => ?_, texts, rfl⟩, fun _ => ⟨_, rfl⟩⟩
          rw [hstep] at h
          cases h
          exact hr
      · rintro ⟨texts, h⟩
        cases r with
        | error e => cases h
        | ok texts =>
          obtain ⟨hafter, hcanonical', rfl⟩ := hresult ⟨texts, rfl⟩
          refine ⟨hafter, hcanonical', ?_⟩
          have hcons : records steps (i :: after) = step.record.2 :: records steps after := by simp [records, hstep]
          rw [hcons]
          rfl

theorem events_foldl (log : Log) (logs : List Log) :
    (logs.foldl (· ++ ·) log).events.toList = log.events.toList ++ logs.flatMap (·.events.toList) := by
  induction logs generalizing log with
  | nil => simp
  | cons first logs ih => simp [ih]

theorem bodies_foldl (log : Log) (logs : List Log) :
    (logs.foldl (· ++ ·) log).bodies.toList = log.bodies.toList ++ logs.flatMap (·.bodies.toList) := by
  induction logs generalizing log with
  | nil => simp
  | cons first logs ih => simp [ih]

/-- A schedule takes every step once. -/
theorem records_perm {order : List Nat} (hschedule : Task.Schedule (tasks steps) order) :
    (records steps order).Perm (steps.map (·.record.2)) := by
  refine List.Perm.map _ ?_
  have hrange : ∀ steps : List (Step recorder), (List.range steps.length).filterMap (steps[·]?) = steps := by
    intro steps
    induction steps with
    | nil => rfl
    | cons step steps ih => simpa [List.range_succ_eq_map, List.filterMap_map, Function.comp_def] using ih
  have hperm := hschedule.perm.filterMap (steps[·]?)
  rwa [List.length_map, hrange] at hperm

/-- What comes of carrying out steps on the recorder, whatever their order. -/
theorem execute_recorded (hrecordable : ∀ step ∈ steps, step.Recordable) {order : List Nat}
    (hplan : Task.plan (tasks steps) = .ok order) :
    ∃ r log slots, (execute steps).exec (whileBuilding {} ∅) = (r, whileBuilding log slots) ∧
      ((∃ texts, r = .ok texts) ↔ ∀ step ∈ steps, step.record.1 = .ok ()) ∧
      ((∃ texts, r = .ok texts) → (∀ key, slots.isWritten key ↔ key ∈ makes steps) ∧ Canonical slots ∧
        log.events.toList.Perm (steps.flatMap (·.record.2.events.toList)) ∧
        log.bodies.toList.Perm (steps.flatMap (·.record.2.bodies.toList))) := by
  obtain ⟨hone, hschedule⟩ := Task.plan_completes hplan
  have hcanonical : Canonical (createSlots steps ∅) := by
    intro key v hv
    have hwritten := Slots.state?_of_read hv
    rw [state?_createSlots, Slots.state?_empty] at hwritten
    split at hwritten <;> cases hwritten
  obtain ⟨r, log, slots, hrun, hiff, hresult⟩ := exec_runAll_recorded hrecordable hone hschedule {} rfl
    (createSlots_after steps) hcanonical
  refine ⟨r, log, slots, ?_, hiff.trans ?_, fun hok => ?_⟩
  · rw [execute, hplan]
    exact hrun
  · refine ⟨fun hall step hstep => ?_, fun hall i _ step hstep => hall step (List.mem_of_getElem? hstep)⟩
    obtain ⟨i, hi⟩ := List.mem_iff_getElem?.mp hstep
    refine hall i (hschedule.perm.mem_iff.mpr (List.mem_range.mpr ?_)) step hi
    simpa using (List.getElem?_eq_some_iff.mp hi).1
  · obtain ⟨hafter, hcanonical', rfl⟩ := hresult hok
    have hperm := records_perm hschedule
    refine ⟨fun key => ?_, hcanonical', ?_, ?_⟩
    · rw [Slots.isWritten_iff, mem_makes]
      obtain ⟨hwritten, habsent⟩ := hafter.state?_eq hschedule key
      refine ⟨fun hstate => ?_, hwritten⟩
      by_contra hnone
      rw [habsent fun t ht hkey => hnone ⟨t, ht, hkey⟩] at hstate
      cases hstate
    · rw [events_foldl]
      simpa [List.flatMap_map] using hperm.flatMap_right (·.events.toList)
    · rw [bodies_foldl]
      simpa [List.flatMap_map] using hperm.flatMap_right (·.bodies.toList)

end Step

end Stackwright
