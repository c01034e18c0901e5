import Std.Data.TreeMap
import Stackwright.Error
import Stackwright.Types.Attributes

/-
  Stackwright.Types.Table — what a module declares.

  A table maps keys to declarations. A key is declared at most once: `declare` refuses a
  second declaration, whatever it says. Typed look-ups answer only when the declaration is
  of the kind that the key asks for.
-/

namespace Stackwright

structure TypeDeclaration where
  attributes : TypeAttributes
  base : Option TypeRef
  interfaces : List TypeRef
  deriving DecidableEq, Inhabited

structure MethodDeclaration where
  attributes : MethodAttributes
  returnType : TypeRef
  deriving DecidableEq, Inhabited

structure ConstructorDeclaration where
  attributes : MethodAttributes
  deriving DecidableEq, Inhabited

structure FieldDeclaration where
  attributes : FieldAttributes
  fieldType : TypeRef
  deriving DecidableEq, Inhabited

structure PropertyDeclaration where
  attributes : PropertyAttributes
  propertyType : TypeRef
  getter : Option MethodRef
  setter : Option MethodRef
  deriving DecidableEq, Inhabited

inductive Declaration where
  | type (decl : TypeDeclaration)
  | method (decl : MethodDeclaration)
  | constructor (decl : ConstructorDeclaration)
  | field (decl : FieldDeclaration)
  | property (decl : PropertyDeclaration)
  deriving DecidableEq, Inhabited

abbrev Table := Std.TreeMap ItemKey Declaration ItemKey.order

namespace Table

def declare (t : Table) (key : ItemKey) (decl : Declaration) : Except BuildError Table :=
  if t.contains key then .error (.declaration key) else .ok (t.insert key decl)

def type? (t : Table) (key : TypeKey) : Option TypeDeclaration :=
  match t.get? (.type key) with
  | some (.type decl) => some decl
  | _ => none

def method? (t : Table) (key : MethodKey) : Option MethodDeclaration :=
  match t.get? (.method key) with
  | some (.method decl) => some decl
  | _ => none

def constructor? (t : Table) (key : ConstructorKey) : Option ConstructorDeclaration :=
  match t.get? (.constructor key) with
  | some (.constructor decl) => some decl
  | _ => none

def field? (t : Table) (key : FieldKey) : Option FieldDeclaration :=
  match t.get? (.field key) with
  | some (.field decl) => some decl
  | _ => none

def property? (t : Table) (key : PropertyKey) : Option PropertyDeclaration :=
  match t.get? (.property key) with
  | some (.property decl) => some decl
  | _ => none

/-- The declaration of the kind that the key asks for; a completed type is declared as its type. -/
def lookup (t : Table) : ItemKey → Option Declaration
  | .type key | .completed key => (t.type? key).map .type
  | .method key => (t.method? key).map .method
  | .constructor key => (t.constructor? key).map .constructor
  | .field key => (t.field? key).map .field
  | .property key => (t.property? key).map .property

end Table

/-! ## What a body needs to know about a member -/

structure MethodInfo where
  owner : TypeRef
  params : List TypeRef
  returnType : TypeRef
  isInstance : Bool
  isVirtual : Bool
  deriving DecidableEq, Inhabited

structure FieldInfo where
  owner : TypeRef
  fieldType : TypeRef
  isInstance : Bool
  deriving DecidableEq, Inhabited

def MethodRef.info (t : Table) : MethodRef → Except BuildError MethodInfo
  | .deferred key =>
    match t.method? key with
    | none => .error (.type (.undeclaredMethod key) none)
    | some decl =>
      .ok { owner := .deferred key.owner, params := key.params, returnType := decl.returnType,
            isInstance := key.isInstance, isVirtual := decl.attributes.isVirtual }
  | .existing m =>
    .ok { owner := m.owner, params := m.params, returnType := m.returnType,
          isInstance := m.isInstance, isVirtual := m.isVirtual }

def FieldRef.info (t : Table) : FieldRef → Except BuildError FieldInfo
  | .deferred key =>
    match t.field? key with
    | none => .error (.type (.undeclaredField key) none)
    | some decl =>
      .ok { owner := .deferred key.owner, fieldType := decl.fieldType,
            isInstance := !decl.attributes.isStatic }
  | .existing f => .ok { owner := f.owner, fieldType := f.fieldType, isInstance := f.isInstance }

/-- A deferred constructor has to be declared. -/
def ConstructorRef.checkDeclared (t : Table) : ConstructorRef → Except BuildError Unit
  | .deferred key =>
    match t.constructor? key with
    | none => .error (.type (.undeclaredConstructor key) none)
    | some _ => .ok ()
  | .existing _ => .ok ()

end Stackwright
