import Stackwright.Names.Key

/-
  Stackwright.Names.Member — references to methods, constructors and fields.

  A member reference is a key of the module being built, or the full description of a
  member that the target already has.
-/

namespace Stackwright

structure ExistingMethod where
  owner : TypeRef
  name : String
  params : List TypeRef
  returnType : TypeRef
  isInstance : Bool
  isVirtual : Bool := false
  deriving DecidableEq, Inhabited

structure ExistingConstructor where
  owner : TypeRef
  params : List TypeRef
  deriving DecidableEq, Inhabited

/-- The constructor of `object`, which takes nothing. -/
def ExistingConstructor.object : ExistingConstructor := { owner := .object, params := [] }

structure ExistingField where
  owner : TypeRef
  name : String
  fieldType : TypeRef
  isInstance : Bool
  deriving DecidableEq, Inhabited

inductive MethodRef where
  | deferred (key : MethodKey)
  | existing (method : ExistingMethod)
  deriving DecidableEq, Inhabited

inductive ConstructorRef where
  | deferred (key : ConstructorKey)
  | existing (ctor : ExistingConstructor)
  deriving DecidableEq, Inhabited

inductive FieldRef where
  | deferred (key : FieldKey)
  | existing (field : ExistingField)
  deriving DecidableEq, Inhabited

namespace MethodRef

def text : MethodRef → String
  | .deferred key => key.text
  | .existing m =>
    (if m.isInstance then "" else "static ") ++ m.owner.text ++ "::" ++ m.name ++ paramsText m.params

/-- Adds the keys that must exist before the reference can be followed. -/
def addKeys : MethodRef → KeySet → KeySet
  | .deferred key, s => s.insert (.method key)
  | .existing m, s => m.returnType.addKeys (TypeRef.addAllKeys m.params (m.owner.addKeys s))

def keys (m : MethodRef) : KeySet := m.addKeys ∅

end MethodRef

namespace ConstructorRef

def text : ConstructorRef → String
  | .deferred key => key.text
  | .existing c => c.owner.text ++ "::.ctor" ++ paramsText c.params

def addKeys : ConstructorRef → KeySet → KeySet
  | .deferred key, s => s.insert (.constructor key)
  | .existing c, s => TypeRef.addAllKeys c.params (c.owner.addKeys s)

def keys (c : ConstructorRef) : KeySet := c.addKeys ∅

def owner : ConstructorRef → TypeRef
  | .deferred key => .deferred key.owner
  | .existing c => c.owner

def params : ConstructorRef → List TypeRef
  | .deferred key => key.params
  | .existing c => c.params

end ConstructorRef

namespace FieldRef

def text : FieldRef → String
  | .deferred key => key.text
  | .existing f => f.owner.text ++ "::" ++ f.name

def addKeys : FieldRef → KeySet → KeySet
  | .deferred key, s => s.insert (.field key)
  | .existing f, s => f.fieldType.addKeys (f.owner.addKeys s)

def keys (f : FieldRef) : KeySet := f.addKeys ∅

end FieldRef

end Stackwright
