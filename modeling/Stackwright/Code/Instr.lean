import Stackwright.Text.Quoted
import Stackwright.Decimal.Text
import Stackwright.Names.Symbol
import Stackwright.Names.Member
import Stackwright.Code.Opcode

/-
  Stackwright.Code.Instr — symbolic stack code.

  Labels and locals are symbols; entities are references that are followed when the code is
  emitted. A protected region opens with `beginTry`, whose symbol names the label that its
  blocks leave to, and closes with the `endTry` of the same symbol, which defines it.
-/

namespace Stackwright

inductive Instr where
  | op (opcode : Opcode)
  | loadI32 (v : Int32)
  | loadI64 (v : Int64)
  | loadF64 (v : Float)
  | loadString (v : String)
  | loadNull
  | loadArg (index : UInt16)
  | storeArg (index : UInt16)
  | loadLocal (name : Symbol)
  | storeLocal (name : Symbol)
  | label (name : Symbol)
  | branch (kind : BranchKind) (target : Symbol)
  | switch (targets : List Symbol)
  | leave (target : Symbol)
  | loadField (field : FieldRef)
  | storeField (field : FieldRef)
  | loadStatic (field : FieldRef)
  | storeStatic (field : FieldRef)
  | newObject (ctor : ConstructorRef)
  /-- Runs a constructor on an object that is already there. -/
  | callConstructor (ctor : ConstructorRef)
  | call (method : MethodRef) (tail : Bool)
  | callVirtual (method : MethodRef) (tail : Bool)
  | typeOp (op : TypeOp) (type : TypeRef)
  | newDelegate (delegate : TypeRef) (method : MethodRef)
  | invokeDelegate (delegate : TypeRef) (tail : Bool)
  | beginTry (endLabel : Symbol)
  | beginCatch (type : TypeRef)
  | beginFinally
  | endTry (endLabel : Symbol)
  deriving BEq, Inhabited

/-- The mark of a call that replaces its caller. -/
def tailMark (tail : Bool) : String := if tail then "tail. " else ""

namespace Instr

/-- Control never goes on to the next instruction. -/
def isTerminator : Instr → Bool
  | .op .ret | .op .throw | .branch .always _ | .leave _ => true
  | _ => false

def definedLabel? : Instr → Option Symbol
  | .label name | .endTry name => some name
  | _ => none

def usedLabels : Instr → List Symbol
  | .branch _ target | .leave target | .beginTry target => [target]
  | .switch targets => targets
  | _ => []

def local? : Instr → Option Symbol
  | .loadLocal name | .storeLocal name => some name
  | _ => none

def addKeys : Instr → KeySet → KeySet
  | .loadField field, s | .storeField field, s | .loadStatic field, s | .storeStatic field, s =>
    field.addKeys s
  | .newObject ctor, s | .callConstructor ctor, s => ctor.addKeys s
  | .call method _, s | .callVirtual method _, s => method.addKeys s
  | .typeOp _ type, s | .beginCatch type, s => type.addKeys s
  | .newDelegate delegate method, s => method.addKeys (delegate.addKeys s)
  | .invokeDelegate delegate _, s => delegate.addKeys s
  | _, s => s

def text : Instr → String
  | .op opcode => opcode.text
  | .loadI32 v => "ldc.i4 " ++ toString v.toInt
  | .loadI64 v => "ldc.i8 " ++ toString v.toInt
  | .loadF64 v => "ldc.r8 " ++ Decimal.plainText v
  | .loadString v => "ldstr " ++ Text.quoted v
  | .loadNull => "ldnull"
  | .loadArg index => "ldarg " ++ toString index.toNat
  | .storeArg index => "starg " ++ toString index.toNat
  | .loadLocal name => "ldloc " ++ name.text
  | .storeLocal name => "stloc " ++ name.text
  | .label name => name.text ++ ":"
  | .branch kind target => kind.text ++ " " ++ target.text
  | .switch targets => "switch (" ++ ", ".intercalate (targets.map Symbol.text) ++ ")"
  | .leave target => "leave " ++ target.text
  | .loadField field => "ldfld " ++ field.text
  | .storeField field => "stfld " ++ field.text
  | .loadStatic field => "ldsfld " ++ field.text
  | .storeStatic field => "stsfld " ++ field.text
  | .newObject ctor => "newobj " ++ ctor.text
  | .callConstructor ctor => "call " ++ ctor.text
  | .call method tail => tailMark tail ++ "call " ++ method.text
  | .callVirtual method tail => tailMark tail ++ "callvirt " ++ method.text
  | .typeOp kind type => kind.text ++ " " ++ type.text
  | .newDelegate delegate method => "newdelegate " ++ delegate.text ++ " " ++ method.text
  | .invokeDelegate delegate tail => tailMark tail ++ "invokedelegate " ++ delegate.text
  | .beginTry endLabel => ".try (end " ++ endLabel.text ++ ")"
  | .beginCatch type => ".catch " ++ type.text
  | .beginFinally => ".finally"
  | .endTry endLabel => ".end " ++ endLabel.text ++ ":"

end Instr

end Stackwright
