import Stackwright.Types.Hierarchy
import Stackwright.Machine.Fault

/-
  Stackwright.Machine.Natives — methods that the machine provides.

  A native method gets a receiver, which is null for static methods and for constructors
  that make a new object, and exactly as many arguments as it asks for. Null counts as the
  empty text where a text is expected.
-/

namespace Stackwright.Machine

structure Native where
  name : String
  arity : Nat
  run : Value → Vector Value arity → Act Value

/-- Of several methods with one name the first counts. -/
abbrev Natives := List Native

def exceptionType : Ty := .named "Exception"

/-- What a thrown value says when nobody catches it. -/
def describeException (h : Heap) (v : Value) : String :=
  match v with
  | .object address =>
    let o := h.object address
    if o.type == exceptionType then "Exception: " ++ (o.fields.getD 0 .null).text h else v.quoted h
  | _ => v.quoted h

namespace Native

def textArg : Value → Act String
  | .str s => pure s
  | .null => pure ""
  | v => throw (.typeConfusion "string" v)

def objectConstructor : Native where
  name := "object::.ctor"
  arity := 0
  run _ _ := pure .null

def objectToString : Native where
  name := "object::ToString"
  arity := 0
  run receiver _ := do
    if receiver.isNull then throw (.nullReference "object::ToString")
    else pure (.str (receiver.text (← Act.heap)))

def consoleWriteLine : Native where
  name := "Console::WriteLine"
  arity := 1
  run _ args := do
    let text := args[0].text (← Act.heap)
    Act.print fun o => o.writeLine text
    pure .null

def consoleWrite : Native where
  name := "Console::Write"
  arity := 1
  run _ args := do
    let text := args[0].text (← Act.heap)
    Act.print fun o => o.write text
    pure .null

def stringConcat : Native where
  name := "string::Concat"
  arity := 2
  run _ args := do
    let left ← textArg args[0]
    let right ← textArg args[1]
    pure (.str (left ++ right))

/-- The number of characters. -/
def stringLength : Native where
  name := "string::get_Length"
  arity := 0
  run receiver _ := do
    if receiver.isNull then throw (.nullReference "string::get_Length")
    else
      let text ← textArg receiver
      pure (.i32 (Int32.ofNat (min text.length 2147483647)))

/-- Makes an exception object, or leaves an object that is already there as it is. -/
def exceptionConstructor : Native where
  name := "Exception::.ctor"
  arity := 1
  run receiver args := do
    let message ← textArg args[0]
    if receiver.isNull then
      Act.allocate fun h => h.newObject { type := exceptionType, fields := #[.str message] }
    else pure receiver

def exceptionMessage : Native where
  name := "Exception::get_Message"
  arity := 0
  run receiver _ := do
    match receiver with
    | .object address =>
      let o := (← Act.heap).object address
      if o.type == exceptionType then pure (o.fields.getD 0 .null)
      else throw (.typeConfusion "Exception" receiver)
    | _ => throw (.typeConfusion "Exception" receiver)

end Native

namespace Natives

/-- The methods that every machine has. -/
def standard : Natives :=
  [.objectConstructor, .objectToString, .consoleWriteLine, .consoleWrite, .stringConcat,
   .stringLength, .exceptionConstructor, .exceptionMessage]

def wrongCount {α : Type} (native : Native) (found : Nat) : Act α :=
  throw (.invalidOperand native.name
    ("expected " ++ toString native.arity ++ " arguments, got " ++ toString found))

/-- Runs a method by name; the receiver comes first. -/
def call (natives : Natives) (name : String) (args : List Value) : Act Value :=
  match natives.find? fun n => n.name == name with
  | none => throw (.missingNative name)
  | some native =>
    match args with
    | [] => wrongCount native 0
    | receiver :: rest =>
      if h : rest.length = native.arity then native.run receiver ⟨rest.toArray, by simpa using h⟩
      else wrongCount native rest.length

/-- What is known about the named types that the methods belong to. -/
def catalog : Catalog :=
  (∅ : Catalog).insert "Exception" { base := some .object } |>.insert "Console" {}

end Natives

end Stackwright.Machine
