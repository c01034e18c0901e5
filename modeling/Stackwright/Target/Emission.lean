import Stackwright.Code.Block
import Stackwright.Target.Basic

/-
  Stackwright.Target.Emission — writing a block into a target's draft.

  The block is validated first. Then its locals are declared in order, its plain labels are
  defined in order, and its instructions follow one by one. The label at the end of a
  protected region comes into being with the region, so using it earlier is a fault.
-/

namespace Stackwright

/-- The state of writing one block. -/
structure Emission (T : Target) where
  program : T.State
  draft : T.Draft
  labels : List (Symbol × T.Label) := []
  locals : List (Symbol × T.Local) := []

namespace Emission

variable {T : Target} {α : Type}

def ofProgram (x : Effect T.State α) : Effect (Emission T) α :=
  Effect.zoom (·.program) (fun program s => { s with program }) x

def ofDraft (x : Effect T.Draft α) : Effect (Emission T) α :=
  Effect.zoom (·.draft) (fun draft s => { s with draft }) x

def find? (entries : List (Symbol × α)) (name : Symbol) : Option α :=
  (entries.find? fun entry => entry.1 == name).map (·.2)

def bindLabel (name : Symbol) (label : T.Label) : Effect (Emission T) Unit :=
  modify fun s => { s with labels := (name, label) :: s.labels }

def bindLocal (name : Symbol) (slot : T.Local) : Effect (Emission T) Unit :=
  modify fun s => { s with locals := (name, slot) :: s.locals }

def label (name : Symbol) : Effect (Emission T) T.Label := do
  match find? (← get).labels name with
  | some label => pure label
  | none => throw (.structural (.labelOutsideRegion name))

def localOf (name : Symbol) : Effect (Emission T) T.Local := do
  match find? (← get).locals name with
  | some slot => pure slot
  | none => throw (.structural (.localUndeclared name))

def labelsOf : List Symbol → Effect (Emission T) (List T.Label)
  | [] => pure []
  | name :: names => do
    let first ← label name
    let rest ← labelsOf names
    pure (first :: rest)

def put (op : Op T.toHandles) : Effect (Emission T) Unit := ofDraft (T.emit op)

variable (slots : Slots T.toHandles)

def type (t : TypeRef) : Effect (Emission T) T.Ty := ofProgram (t.resolve T slots)

def method (m : MethodRef) : Effect (Emission T) T.Method := ofProgram (m.resolve T slots)

def constructor (c : ConstructorRef) : Effect (Emission T) T.Constructor := ofProgram (c.resolve T slots)

def field (f : FieldRef) : Effect (Emission T) T.Field := ofProgram (f.resolve T slots)

def instr : Instr → Effect (Emission T) Unit
  | .label name => do
    let handle ← label name
    ofDraft (T.markLabel handle)
  | .beginTry endLabel => do
    let handle ← ofDraft T.beginTry
    bindLabel endLabel handle
  | .beginCatch t => do
    let handle ← type slots t
    ofDraft (T.beginCatch handle)
  | .beginFinally => ofDraft T.beginFinally
  | .endTry _ => ofDraft T.endTry
  | .op opcode => put (.op opcode)
  | .loadI32 v => put (.loadI32 v)
  | .loadI64 v => put (.loadI64 v)
  | .loadF64 v => put (.loadF64 v)
  | .loadString v => put (.loadString v)
  | .loadNull => put .loadNull
  | .loadArg index => put (.loadArg index)
  | .storeArg index => put (.storeArg index)
  | .loadLocal name => do put (.loadLocal (← localOf name))
  | .storeLocal name => do put (.storeLocal (← localOf name))
  | .branch kind target => do put (.branch kind (← label target))
  | .switch targets => do put (.switch (← labelsOf targets))
  | .leave target => do put (.leave (← label target))
  | .loadField f => do put (.loadField (← field slots f))
  | .storeField f => do put (.storeField (← field slots f))
  | .loadStatic f => do put (.loadStatic (← field slots f))
  | .storeStatic f => do put (.storeStatic (← field slots f))
  | .newObject c => do put (.newObject (← constructor slots c))
  | .callConstructor c => do put (.callConstructor (← constructor slots c))
  | .call m tail => do put (.call (← method slots m) tail)
  | .callVirtual m tail => do put (.callVirtual (← method slots m) tail)
  | .typeOp kind t => do put (.typeOp kind (← type slots t))
  | .newDelegate t m => do
    let delegate ← type slots t
    let handle ← method slots m
    put (.newDelegate delegate handle)
  | .invokeDelegate t tail => do put (.invokeDelegate (← type slots t) tail)

def declareLocals : List LocalDecl → Effect (Emission T) Unit
  | [] => pure ()
  | l :: ls => do
    let handle ← type slots l.type
    bindLocal l.name (← ofDraft (T.declareLocal handle))
    declareLocals ls

/-- Plain labels only: those of regions come with `beginTry`. -/
def defineLabels : List Instr → Effect (Emission T) Unit
  | [] => pure ()
  | .label name :: code => do
    bindLabel name (← ofDraft T.defineLabel)
    defineLabels code
  | _ :: code => defineLabels code

def instrs : List Instr → Effect (Emission T) Unit
  | [] => pure ()
  | i :: code => do
    instr slots i
    instrs code

def block (b : Block) : Effect (Emission T) Unit := do
  b.validate
  declareLocals slots b.locals
  defineLabels b.code
  instrs slots b.code

end Emission

end Stackwright
