import Std.Data.TreeMap
import Stackwright.Code.Opcode
import Stackwright.Machine.Value

/-
  Stackwright.Machine.Fault — what can stop a run, and the state that outlives it.

  A run changes the heap, static fields and output. A fault ends the run; what it changed
  until then stays.
-/

namespace Stackwright.Machine

inductive Fault where
  | nullReference (context : String)
  | missingNative (name : String)
  | missingBody (name : String)
  | uncaught (message : String)
  | stackUnderflow (method : String)
  | stackOverflow
  | typeConfusion (expected : String) (found : Value)
  | invalidCast (value : Value) (target : Ty)
  | invalidOpcode (op : Opcode) (operand : Value)
  | divideByZero
  | invalidOperand (method : String) (detail : String)
  | unknownType (name : String)
  deriving Inhabited

/-- The word that names the kind of fault. -/
def Fault.kind : Fault → String
  | .nullReference _ => "NullReference"
  | .missingNative _ => "MissingNative"
  | .missingBody _ => "MissingBody"
  | .uncaught _ => "Uncaught"
  | .stackUnderflow _ => "StackUnderflow"
  | .stackOverflow => "StackOverflow"
  | .typeConfusion _ _ => "TypeConfusion"
  | .invalidCast _ _ => "InvalidCast"
  | .invalidOpcode _ _ => "InvalidOpcode"
  | .divideByZero => "DivideByZero"
  | .invalidOperand _ _ => "InvalidOperand"
  | .unknownType _ => "UnknownType"

/-- The wording, with values as the heap has them. -/
def Fault.message (h : Heap) : Fault → String
  | .nullReference context => "null reference in " ++ context
  | .missingNative name => "no native implementation of " ++ name
  | .missingBody name => "method " ++ name ++ " has no body"
  | .uncaught message => "uncaught exception: " ++ message
  | .stackUnderflow method => "stack underflow in " ++ method
  | .stackOverflow => "stack overflow"
  | .typeConfusion expected found => "expected " ++ expected ++ ", found " ++ found.quoted h
  | .invalidCast value target => "cannot cast " ++ value.quoted h ++ " to " ++ target.text
  | .invalidOpcode op operand => "cannot apply " ++ op.text ++ " to " ++ operand.quoted h
  | .divideByZero => "division by zero"
  | .invalidOperand method detail => "invalid operand in " ++ method ++ ": " ++ detail
  | .unknownType name => "type " ++ name ++ " is not part of the program"

/-- Complete lines, and text that waits for the end of its line. -/
structure Output where
  lines : Array String := #[]
  pending : String := ""
  deriving Repr, Inhabited

namespace Output

def write (o : Output) (text : String) : Output := { o with pending := o.pending ++ text }

def writeLine (o : Output) (text : String) : Output :=
  { lines := o.lines.push (o.pending ++ text), pending := "" }

end Output

structure World where
  heap : Heap := {}
  /-- Static fields by number, those that were written. -/
  statics : Std.TreeMap Nat Value := ∅
  output : Output := {}

/-- Work in a world that may end in a fault. -/
abbrev Act (α : Type) := ExceptT Fault (StateM World) α

namespace Act

variable {α : Type}

def exec (x : Act α) (w : World) : Except Fault α × World := x.run.run w

def heap : Act Heap := do pure (← get).heap

/-- Makes something on the heap. -/
def allocate (make : Heap → Value × Heap) : Act Value := do
  let w ← get
  let (v, heap) := make w.heap
  set { w with heap }
  pure v

def changeHeap (f : Heap → Heap) : Act Unit := modify fun w => { w with heap := f w.heap }

def print (f : Output → Output) : Act Unit := modify fun w => { w with output := f w.output }

end Act

end Stackwright.Machine
