import Stackwright.Effect
import Stackwright.Types.Attributes
import Stackwright.Target.Slots

/-
  Stackwright.Target.Basic — what a build can ask of a target, and how references are followed.

  A target holds the program made so far in its state. A body is collected apart, one
  instruction at a time, and handed over when it is complete. Following a reference to a
  key reads that key's slot; any other reference is asked of the target, parts first.
-/

namespace Stackwright

structure FieldSignature (H : Handles) where
  name : String
  attributes : FieldAttributes
  fieldType : H.Ty

/-- The receiver of an instance method is not among its parameters. -/
structure MethodSignature (H : Handles) where
  name : String
  attributes : MethodAttributes
  params : List H.Ty
  returnType : H.Ty

structure ConstructorSignature (H : Handles) where
  attributes : MethodAttributes
  params : List H.Ty

structure PropertySignature (H : Handles) where
  name : String
  attributes : PropertyAttributes
  propertyType : H.Ty
  getter : Option H.Method
  setter : Option H.Method

structure Target extends Handles where
  /-- The program made so far. -/
  State : Type
  /-- A body that is being collected. -/
  Draft : Type
  primitiveType : Primitive → Effect State Ty
  namedType : String → Effect State Ty
  cellType : Ty → Effect State Ty
  delegateType : List Ty → Ty → Effect State Ty
  existingMethod (owner : Ty) (name : String) (params : List Ty) (ret : Ty) (isInstance : Bool) :
    Effect State Method
  existingConstructor (owner : Ty) (params : List Ty) : Effect State Constructor
  existingField (owner : Ty) (name : String) (type : Ty) (isInstance : Bool) : Effect State Field
  defineType (name : String) (attributes : TypeAttributes) (base : Option Ty) (interfaces : List Ty) :
    Effect State Ty
  finalizeType : Ty → Effect State Completed
  defineField : Ty → FieldSignature toHandles → Effect State Field
  defineMethod : Ty → MethodSignature toHandles → Effect State Method
  defineConstructor : Ty → ConstructorSignature toHandles → Effect State Constructor
  defineProperty : Ty → PropertySignature toHandles → Effect State Property
  emptyDraft : Draft
  defineLabel : Effect Draft Label
  markLabel : Label → Effect Draft Unit
  declareLocal : Ty → Effect Draft Local
  /-- Opens a protected region and answers the label that its blocks leave to. -/
  beginTry : Effect Draft Label
  beginCatch : Ty → Effect Draft Unit
  beginFinally : Effect Draft Unit
  endTry : Effect Draft Unit
  emit : Op toHandles → Effect Draft Unit
  methodBody : Method → Draft → Effect State Unit
  constructorBody : Constructor → Draft → Effect State Unit

/-! ## Following references -/

mutual
def TypeRef.resolve (T : Target) (slots : Slots T.toHandles) : TypeRef → Effect T.State T.Ty
  | .deferred key => slots.type key
  | .primitive p => T.primitiveType p
  | .named name => T.namedType name
  | .cell content => do
    let content ← TypeRef.resolve T slots content
    T.cellType content
  | .delegate params ret => do
    let params ← TypeRef.resolveAll T slots params
    let ret ← TypeRef.resolve T slots ret
    T.delegateType params ret

def TypeRef.resolveAll (T : Target) (slots : Slots T.toHandles) :
    List TypeRef → Effect T.State (List T.Ty)
  | [] => pure []
  | t :: ts => do
    let type ← TypeRef.resolve T slots t
    let types ← TypeRef.resolveAll T slots ts
    pure (type :: types)
end

variable (T : Target) (slots : Slots T.toHandles)

def MethodRef.resolve : MethodRef → Effect T.State T.Method
  | .deferred key => slots.method key
  | .existing m => do
    let owner ← m.owner.resolve T slots
    let params ← TypeRef.resolveAll T slots m.params
    let ret ← m.returnType.resolve T slots
    T.existingMethod owner m.name params ret m.isInstance

def ConstructorRef.resolve : ConstructorRef → Effect T.State T.Constructor
  | .deferred key => slots.constructor key
  | .existing c => do
    let owner ← c.owner.resolve T slots
    let params ← TypeRef.resolveAll T slots c.params
    T.existingConstructor owner params

def FieldRef.resolve : FieldRef → Effect T.State T.Field
  | .deferred key => slots.field key
  | .existing f => do
    let owner ← f.owner.resolve T slots
    let type ← f.fieldType.resolve T slots
    T.existingField owner f.name type f.isInstance

end Stackwright
