import Stackwright.Code.Instr

/-
  Stackwright.Target.Handles — what a target calls its entities.

  A build never looks into a handle; it only carries handles from where they were made to
  where they are used. The texts serve listings of emitted code.
-/

namespace Stackwright

structure Handles where
  Ty : Type
  Completed : Type
  Field : Type
  Method : Type
  Constructor : Type
  Property : Type
  Label : Type
  Local : Type
  tyText : Ty → String
  fieldText : Field → String
  methodText : Method → String
  constructorText : Constructor → String
  labelText : Label → String
  localText : Local → String

/-- The handle that belongs to a key. -/
def Handles.At (H : Handles) : ItemKey → Type
  | .type _ => H.Ty
  | .completed _ => H.Completed
  | .method _ => H.Method
  | .constructor _ => H.Constructor
  | .field _ => H.Field
  | .property _ => H.Property

/-- An instruction whose operands are handles. -/
inductive Op (H : Handles) where
  | op (opcode : Opcode)
  | loadI32 (v : Int32)
  | loadI64 (v : Int64)
  | loadF64 (v : Float)
  | loadString (v : String)
  | loadNull
  | loadArg (index : UInt16)
  | storeArg (index : UInt16)
  | loadLocal (slot : H.Local)
  | storeLocal (slot : H.Local)
  | branch (kind : BranchKind) (target : H.Label)
  | switch (targets : List H.Label)
  | leave (target : H.Label)
  | loadField (field : H.Field)
  | storeField (field : H.Field)
  | loadStatic (field : H.Field)
  | storeStatic (field : H.Field)
  | newObject (ctor : H.Constructor)
  | callConstructor (ctor : H.Constructor)
  | call (method : H.Method) (tail : Bool)
  | callVirtual (method : H.Method) (tail : Bool)
  | typeOp (kind : TypeOp) (type : H.Ty)
  | newDelegate (delegate : H.Ty) (method : H.Method)
  | invokeDelegate (delegate : H.Ty) (tail : Bool)

def Op.text {H : Handles} : Op H → String
  | .op opcode => opcode.text
  | .loadI32 v => "ldc.i4 " ++ toString v.toInt
  | .loadI64 v => "ldc.i8 " ++ toString v.toInt
  | .loadF64 v => "ldc.r8 " ++ Decimal.plainText v
  | .loadString v => "ldstr " ++ Text.quoted v
  | .loadNull => "ldnull"
  | .loadArg index => "ldarg " ++ toString index.toNat
  | .storeArg index => "starg " ++ toString index.toNat
  | .loadLocal slot => "ldloc " ++ H.localText slot
  | .storeLocal slot => "stloc " ++ H.localText slot
  | .branch kind target => kind.text ++ " " ++ H.labelText target
  | .switch targets => "switch [" ++ ", ".intercalate (targets.map H.labelText) ++ "]"
  | .leave target => "leave " ++ H.labelText target
  | .loadField field => "ldfld " ++ H.fieldText field
  | .storeField field => "stfld " ++ H.fieldText field
  | .loadStatic field => "ldsfld " ++ H.fieldText field
  | .storeStatic field => "stsfld " ++ H.fieldText field
  | .newObject ctor => "newobj " ++ H.constructorText ctor
  | .callConstructor ctor => "call " ++ H.constructorText ctor
  | .call method tail => tailMark tail ++ "call " ++ H.methodText method
  | .callVirtual method tail => tailMark tail ++ "callvirt " ++ H.methodText method
  | .typeOp kind type => kind.text ++ " " ++ H.tyText type
  | .newDelegate delegate method => "newdelegate " ++ H.tyText delegate ++ " " ++ H.methodText method
  | .invokeDelegate delegate tail => tailMark tail ++ "invokedelegate " ++ H.tyText delegate

end Stackwright
