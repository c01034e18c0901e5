import Stackwright.Expr.Lowering

/-
  Stackwright.Module.Definition — types to build, with their members.

  A method or constructor has a body of raw code or a body given as an expression; methods
  can also be abstract. Parameters of raw and abstract bodies leave the receiver out;
  expression bodies of instance members list it first, with the type being defined.
-/

namespace Stackwright

structure FieldDefinition where
  name : String
  attributes : FieldAttributes
  fieldType : TypeRef
  deriving BEq, Inhabited

inductive MethodBody where
  | code (params : List TypeRef) (block : Block)
  | expr (body : Body)
  | abstract (params : List TypeRef)
  deriving BEq, Inhabited

structure MethodDefinition where
  name : String
  attributes : MethodAttributes
  returnType : TypeRef
  body : MethodBody
  deriving BEq, Inhabited

inductive ConstructorBody where
  | code (params : List TypeRef) (block : Block)
  /-- Without a base call the base type's constructor without parameters runs first. -/
  | expr (body : Body) (base : Option BaseCall)
  deriving BEq, Inhabited

structure ConstructorDefinition where
  attributes : MethodAttributes
  body : ConstructorBody
  deriving BEq, Inhabited

structure PropertyDefinition where
  name : String
  attributes : PropertyAttributes
  propertyType : TypeRef
  getter : Option MethodRef
  setter : Option MethodRef
  deriving BEq, Inhabited

inductive Member where
  | field (definition : FieldDefinition)
  | method (definition : MethodDefinition)
  | constructor (definition : ConstructorDefinition)
  | property (definition : PropertyDefinition)
  deriving BEq, Inhabited

structure TypeDefinition where
  key : TypeKey
  attributes : TypeAttributes := {}
  base : Option TypeRef := none
  interfaces : List TypeRef := []
  members : List Member := []
  deriving BEq, Inhabited

def FieldDefinition.isInstance (f : FieldDefinition) : Bool := !f.attributes.isStatic

def MethodDefinition.isInstance (m : MethodDefinition) : Bool := !m.attributes.isStatic

/-- The parameters after the receiver, which has to be of the owner's type. -/
def Body.paramsAfterReceiver (b : Body) (owner : TypeKey) (what : String) :
    Except BuildError (List TypeRef) :=
  match b.params with
  | [] => .error (.structural (.noReceiver what owner))
  | this :: params =>
    if this.type == .deferred owner then .ok (params.map (·.type))
    else .error (.structural (.wrongReceiver this.name what this.type owner))

namespace TypeDefinition

variable (d : TypeDefinition)

def fieldKey (f : FieldDefinition) : FieldKey := d.key.field f.name

def propertyKey (p : PropertyDefinition) : PropertyKey := d.key.property p.name

def methodKey (m : MethodDefinition) : Except BuildError MethodKey := do
  let params ← match m.body with
    | .code params _ | .abstract params => .ok params
    | .expr body =>
      if m.isInstance then body.paramsAfterReceiver d.key ("method " ++ m.name)
      else .ok (body.params.map (·.type))
  .ok (d.key.method m.name params m.isInstance)

def constructorKey (c : ConstructorDefinition) : Except BuildError ConstructorKey := do
  let params ← match c.body with
    | .code params _ => .ok params
    | .expr body _ => body.paramsAfterReceiver d.key "constructor"
  .ok (d.key.constructor params)

/-- What a constructor without a base call starts with. -/
def defaultBaseCall : BaseCall :=
  let ctor := match d.base with
    | none => .existing ExistingConstructor.object
    | some (.deferred base) => .deferred (base.constructor [])
    | some base => .existing { owner := base, params := [] }
  { ctor, args := [] }

/-- Keys of the types that this type derives from. -/
def supertypeKeys : KeySet := TypeRef.addAllKeys (d.base.toList ++ d.interfaces) ∅

def declareMember (t : Table) : Member → Except BuildError Table
  | .field f => t.declare (.field (d.fieldKey f)) (.field ⟨f.attributes, f.fieldType⟩)
  | .method m => do
    let key ← d.methodKey m
    t.declare (.method key) (.method ⟨m.attributes, m.returnType⟩)
  | .constructor c => do
    let key ← d.constructorKey c
    t.declare (.constructor key) (.constructor ⟨c.attributes⟩)
  | .property p =>
    t.declare (.property (d.propertyKey p))
      (.property ⟨p.attributes, p.propertyType, p.getter, p.setter⟩)

/-- Adds the type's key and then its members' keys. -/
def declare (t : Table) : Except BuildError Table := do
  let t ← t.declare (.type d.key) (.type ⟨d.attributes, d.base, d.interfaces⟩)
  d.members.foldlM d.declareMember t

end TypeDefinition

end Stackwright
