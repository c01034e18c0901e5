import Stackwright.Machine.Program
import Stackwright.Machine.Fault

/-
  Stackwright.Machine.Frame — one activation of a method.

  The stack and the pending finally handlers are listed top first.
-/

namespace Stackwright.Machine

/-- What happens when a finally handler has run. -/
inductive Resume where
  /-- Leaving goes on toward this position. -/
  | leaveTo (target : Nat)
  | rethrow (exception : Value)
  deriving Inhabited

structure Pending where
  /-- The code of the finally handler. -/
  within : Span
  resume : Resume
  deriving Inhabited

/-- What the caller gets. -/
inductive OnReturn where
  | discard
  | push
  /-- A constructor that made a new object yields the object. -/
  | object (made : Value)
  deriving Inhabited

/-- What the caller gets for a returned value. -/
def OnReturn.result : OnReturn → Value → Option Value
  | .discard, _ => none
  | .push, v => some v
  | .object made, _ => some made

structure Frame where
  method : MethodId
  code : Code
  /-- The position of the next operation. -/
  pc : Nat := 0
  args : Array Value
  locals : Array Value
  stack : List Value := []
  pending : List Pending := []
  returnsValue : Bool
  onReturn : OnReturn
  deriving Inhabited

namespace Frame

variable (f : Frame)

def underflow {α : Type} : Except Fault α := .error (.stackUnderflow f.method.name)

def badOperand {α : Type} (detail : String) : Except Fault α :=
  .error (.invalidOperand f.method.name detail)

def push (v : Value) : Frame := { f with stack := v :: f.stack }

def pushAll (vs : List Value) : Frame := { f with stack := vs ++ f.stack }

def pop : Except Fault (Value × Frame) :=
  match f.stack with
  | [] => f.underflow
  | v :: stack => .ok (v, { f with stack })

/-- The two topmost values, the lower one first. -/
def pop2 : Except Fault (Value × Value × Frame) := do
  let (right, f) ← f.pop
  let (left, f) ← f.pop
  .ok (left, right, f)

/-- The topmost values in the order in which they were pushed. -/
def popN (count : Nat) : Except Fault (List Value × Frame) :=
  if f.stack.length < count then f.underflow
  else .ok ((f.stack.take count).reverse, { f with stack := f.stack.drop count })

def popInt32 : Except Fault (Int32 × Frame) := do
  match ← f.pop with
  | (.i32 v, f) => .ok (v, f)
  | (found, _) => .error (.typeConfusion "int32" found)

def loadArg (index : Nat) : Except Fault Frame :=
  match f.args[index]? with
  | some v => .ok (f.push v)
  | none => f.badOperand ("no argument " ++ toString index)

def storeArg (index : Nat) : Except Fault Frame := do
  let (v, f) ← f.pop
  if index < f.args.size then .ok { f with args := f.args.setIfInBounds index v }
  else f.badOperand ("no argument " ++ toString index)

def loadLocal (index : Nat) : Except Fault Frame :=
  match f.locals[index]? with
  | some v => .ok (f.push v)
  | none => f.badOperand ("no local " ++ toString index)

def storeLocal (index : Nat) : Except Fault Frame := do
  let (v, f) ← f.pop
  if index < f.locals.size then .ok { f with locals := f.locals.setIfInBounds index v }
  else f.badOperand ("no local " ++ toString index)

/-- The position of a label. -/
def target (label : LabelId) : Except Fault Nat :=
  match f.code.labels[label.index]? with
  | some pc => .ok pc
  | none => f.badOperand ("unknown label " ++ label.text)

def jump (label : LabelId) : Except Fault Frame := do
  let pc ← f.target label
  .ok { f with pc }

/-- Goes on in place when there is no label. -/
def jumpIfSome : Option LabelId → Except Fault Frame
  | some label => f.jump label
  | none => .ok f

/-! ## Protected regions -/

/-- The finally handler that runs next on the way from `pc` to `target`: that of the
innermost region which contains `pc` but not `target`, unless `pc` lies in the handler. -/
def exitedFinally? (regions : List Region) (pc target : Nat) : Option Span :=
  regions.findSome? fun r =>
    if r.contains pc && !r.contains target then
      match r.finallyHandler with
      | some handler => if handler.span.contains pc then none else some handler.span
      | none => none
    else none

/-- Goes to `target`, through every finally handler that is left on the way. -/
def leave (pc target : Nat) : Frame :=
  match exitedFinally? f.code.regions pc target with
  | some span =>
    { f with stack := [], pc := span.start, pending := ⟨span, .leaveTo target⟩ :: f.pending }
  | none => { f with stack := [], pc := target }

end Frame

end Stackwright.Machine
