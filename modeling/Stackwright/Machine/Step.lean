import Stackwright.Machine.Natives
import Stackwright.Machine.Arithmetic
import Stackwright.Machine.Frame

/-
  Stackwright.Machine.Step — carrying out one operation.

  An operation changes its frame, returns, calls or throws. Calls and throws are left to the
  run, which sees all frames.
-/

namespace Stackwright.Machine

/-- A call that is about to happen. -/
structure Call where
  method : MethodId
  args : List Value
  onReturn : OnReturn
  /-- The callee takes the place of the caller. -/
  tail : Bool

inductive Flow where
  | next (frame : Frame)
  | return (value : Value)
  | call (caller : Frame) (call : Call)
  | throw (frame : Frame) (exception : Value)

namespace Program

variable (p : Program)

def isValueType : Ty → Bool
  | .primitive primitive => primitive.isValueType
  | .defined id => (p.type id).attributes.isValueType
  | _ => false

def onReturnOf (m : MethodId) : OnReturn := if (p.method m).ret == .void then .discard else .push

/-- A new object with all fields at their initial values. -/
def allocate (owner : Ty) : Act Value :=
  let layout? := match owner with
    | .defined id => (p.type id).layout
    | _ => none
  match layout? with
  | none => throw (.unknownType owner.text)
  | some layout =>
    let fields := layout.map fun f => Value.initial (p.field f).type
    Act.allocate fun h => h.newObject { type := owner, fields := fields.toArray }

/-- A call of a constructor for a new object. -/
def construction (ctor : MethodId) (args : List Value) : Act Call := do
  let record := p.method ctor
  if record.kind.isNative then
    pure { method := ctor, args := .null :: args, onReturn := .push, tail := false }
  else
    let made ← p.allocate record.owner
    pure { method := ctor, args := made :: args, onReturn := .object made, tail := false }

def fieldSlot (f : FieldId) : Except Fault Nat :=
  match (p.field f).slot with
  | some slot => .ok slot
  | none => .error (.unknownType (p.field f).owner.text)

end Program

/-! ## Objects and cells -/

/-- The object that a field is taken from. -/
def fieldOwner (f : FieldId) : Value → Except Fault Nat
  | .object address => .ok address
  | .null => .error (.nullReference ("field " ++ f.name))
  | found => .error (.typeConfusion "object" found)

def noSuchField {α : Type} (f : FieldId) (o : Object) : Except Fault α :=
  .error (.invalidOperand f.name (o.type.text ++ " has no such field"))

def cellAddress : Value → Except Fault Nat
  | .cell address => .ok address
  | .null => .error (.nullReference "cell access")
  | found => .error (.typeConfusion "cell" found)

/-! ## Operations -/

def branchTaken (f : Frame) (kind : BranchKind) : Except Fault (Bool × Frame) := do
  match kind with
  | .always => .ok (true, f)
  | .true =>
    let (v, f) ← f.pop
    .ok (v.isTruthy, f)
  | .false =>
    let (v, f) ← f.pop
    .ok (!v.isTruthy, f)
  | kind =>
    let (left, right, f) ← f.pop2
    let float := match left with
      | .f64 _ => true
      | _ => false
    let taken ← match kind with
      | .neUn => (!·) <$> compare .ceq left right
      | .lt => compare .clt left right
      | .gt => compare .cgt left right
      | .le => (!·) <$> compare (if float then .cgtUn else .cgt) left right
      | .ge => (!·) <$> compare (if float then .cltUn else .clt) left right
      | _ => compare .ceq left right
    .ok (taken, f)

def opcodeStep (f : Frame) (op : Opcode) : Except Fault Flow := do
  match op with
  | .nop => .ok (.next f)
  | .dup =>
    match f.stack with
    | [] => f.underflow
    | v :: _ => .ok (.next (f.push v))
  | .pop =>
    let (_, f) ← f.pop
    .ok (.next f)
  | .ret =>
    if f.returnsValue then
      let (v, _) ← f.pop
      .ok (.return v)
    else .ok (.return .null)
  | .throw =>
    let (exception, f) ← f.pop
    if exception.isNull then .error (.nullReference "throw") else .ok (.throw f exception)
  | .neg | .not =>
    let (v, f) ← f.pop
    let result ← unary op v
    .ok (.next (f.push result))
  | .add | .sub | .mul | .div | .divUn | .rem | .remUn | .and | .or | .xor | .shl | .shr | .shrUn =>
    let (left, right, f) ← f.pop2
    let result ← arithmetic op left right
    .ok (.next (f.push result))
  | .ceq | .cgt | .cgtUn | .clt | .cltUn =>
    let (left, right, f) ← f.pop2
    let result ← compare op left right
    .ok (.next (f.push (.ofBool result)))
  | .convI1 | .convI2 | .convI4 | .convI8 | .convU1 | .convU2 | .convU4 | .convU8 | .convR4 | .convR8 =>
    let (v, f) ← f.pop
    let result ← convert op v
    .ok (.next (f.push result))

/-- Unboxing gives back the content of a box of exactly the type asked for. -/
def unbox (type : Ty) (v : Value) : Except Fault Value :=
  match v with
  | .boxed _ boxedType content =>
    if boxedType == type then .ok content else .error (.invalidCast v type)
  | .null => .error (.nullReference ("unbox.any " ++ type.text))
  | _ => .error (.invalidCast v type)

def typeStep (p : Program) (f : Frame) (op : TypeOp) (type : Ty) : Act Frame := do
  let (v, f) ← f.pop
  let h ← Act.heap
  match op with
  | .box => if p.isValueType type then f.push <$> Act.allocate (·.newBox type v) else pure (f.push v)
  | .unboxAny | .castClass =>
    if op == .unboxAny && p.isValueType type then
      let content ← unbox type v
      pure (f.push content)
    else if v.isNull || p.isSubtype (v.type h) type then pure (f.push v)
    else throw (.invalidCast v type)
  | .isInst =>
    pure (f.push (if !v.isNull && p.isSubtype (v.type h) type then v else .null))
  | .newCell => f.push <$> Act.allocate (·.newCell v)
  | .loadCell =>
    let address ← cellAddress v
    pure (f.push (h.cell address))
  | .storeCell =>
    let (target, f) ← f.pop
    let address ← cellAddress target
    Act.changeHeap (·.setCell address v)
    pure f

def loadField (p : Program) (f : Frame) (field : FieldId) : Act Frame := do
  let (owner, f) ← f.pop
  let slot ← p.fieldSlot field
  let address ← fieldOwner field owner
  let o := (← Act.heap).object address
  match o.fields[slot]? with
  | some v => pure (f.push v)
  | none => noSuchField field o

def storeField (p : Program) (f : Frame) (field : FieldId) : Act Frame := do
  let (owner, v, f) ← f.pop2
  let slot ← p.fieldSlot field
  let address ← fieldOwner field owner
  let o := (← Act.heap).object address
  if slot < o.fields.size then
    Act.changeHeap (·.setField address slot v)
    pure f
  else noSuchField field o

def loadStatic (p : Program) (f : Frame) (field : FieldId) : Act Frame := do
  let v := (← get).statics.get? field.index
  pure (f.push (v.getD (Value.initial (p.field field).type)))

def storeStatic (f : Frame) (field : FieldId) : Act Frame := do
  let (v, f) ← f.pop
  modify fun w => { w with statics := w.statics.insert field.index v }
  pure f

/-- A call on a receiver runs what the receiver's type makes of the method. -/
def callVirtual (p : Program) (f : Frame) (m : MethodId) (tail : Bool) : Act Flow := do
  let (args, f) ← f.popN (p.method m).arity
  match args with
  | [] | .null :: _ => throw (.nullReference ("callvirt " ++ m.name))
  | receiver :: _ =>
    let method := p.dispatch (receiver.type (← Act.heap)) m
    pure (.call f { method, args, onReturn := p.onReturnOf method, tail })

def invokeDelegate (p : Program) (f : Frame) (type : Ty) (tail : Bool) : Act Flow := do
  match type with
  | .delegate params _ =>
    let (args, f) ← f.popN params.length
    let (callee, f) ← f.pop
    match callee with
    | .delegate _ target method =>
      let args := if (p.method method).isStatic then args else target :: args
      pure (.call f { method, args, onReturn := p.onReturnOf method, tail })
    | .null => throw (.nullReference ("invoke " ++ type.text))
    | found => throw (.typeConfusion "delegate" found)
  | _ => f.badOperand (type.text ++ " is not a delegate type")

/-- Carries out one operation found at `pc`; the frame is already past it. -/
def opStep (p : Program) (f : Frame) (pc : Nat) : Stackwright.Op handles → Act Flow
  | .op opcode => opcodeStep f opcode
  | .loadI32 v => pure (.next (f.push (.i32 v)))
  | .loadI64 v => pure (.next (f.push (.i64 v)))
  | .loadF64 v => pure (.next (f.push (.f64 v)))
  | .loadString s => pure (.next (f.push (.str s)))
  | .loadNull => pure (.next (f.push .null))
  | .loadArg index => .next <$> f.loadArg index.toNat
  | .storeArg index => .next <$> f.storeArg index.toNat
  | .loadLocal slot => .next <$> f.loadLocal slot.index
  | .storeLocal slot => .next <$> f.storeLocal slot.index
  | .branch kind label => do
    let (taken, f) ← branchTaken f kind
    if taken then .next <$> f.jump label else pure (.next f)
  | .switch labels => do
    let (index, f) ← f.popInt32
    .next <$> f.jumpIfSome (if index < 0 then none else labels[index.toNatClampNeg]?)
  | .leave label => do
    let target ← f.target label
    pure (.next (f.leave pc target))
  | .loadField field => .next <$> loadField p f field
  | .storeField field => .next <$> storeField p f field
  | .loadStatic field => .next <$> loadStatic p f field
  | .storeStatic field => .next <$> storeStatic f field
  | .newObject ctor => do
    let (args, f) ← f.popN (p.method ctor).params.length
    .call f <$> p.construction ctor args
  | .callConstructor ctor => do
    let (args, f) ← f.popN (p.method ctor).arity
    pure (.call f { method := ctor, args, onReturn := .discard, tail := false })
  | .call method tail => do
    let (args, f) ← f.popN (p.method method).arity
    pure (.call f { method, args, onReturn := p.onReturnOf method, tail })
  | .callVirtual method tail => callVirtual p f method tail
  | .typeOp op type => .next <$> typeStep p f op type
  | .newDelegate _ method => do
    let (target, f) ← f.pop
    let made ← Act.allocate (·.newDelegate target method)
    pure (.next (f.push made))
  | .invokeDelegate type tail => invokeDelegate p f type tail

/-- Ends a finally handler at `pc`. -/
def endFinally (f : Frame) (pc : Nat) : Flow :=
  match f.pending with
  | [] => .next f
  | ⟨_, .leaveTo target⟩ :: pending => .next ({ f with pending }.leave pc target)
  | ⟨_, .rethrow exception⟩ :: pending => .throw { f with pending } exception

def step (p : Program) (f : Frame) : Act Flow :=
  match f.code.ops[f.pc]? with
  | none => f.badOperand "execution ran past the end of the body"
  | some (.plain op) => opStep p { f with pc := f.pc + 1 } f.pc op
  | some .endFinally => pure (endFinally { f with pc := f.pc + 1 } f.pc)

end Stackwright.Machine
