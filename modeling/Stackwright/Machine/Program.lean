import Stackwright.Types.Attributes
import Stackwright.Target.Handles
import Stackwright.Machine.Type

/-
  Stackwright.Machine.Program — a program with all its entities.

  A body is a list of operations, the position of each label, the types of its locals, and
  its protected regions, innermost first. A type's supertypes always stand before it, so
  searches along supertypes end after at most as many steps as there are types.
-/

namespace Stackwright.Machine

abbrev handles : Handles where
  Ty := Ty
  Completed := TypeId
  Field := FieldId
  Method := MethodId
  Constructor := MethodId
  Property := PropertyId
  Label := LabelId
  Local := LocalId
  tyText := Ty.text
  fieldText := FieldId.name
  methodText := MethodId.name
  constructorText := MethodId.name
  labelText := LabelId.text
  localText l := toString l.index

/-! ## Code -/

inductive Op where
  | plain (op : Stackwright.Op handles)
  /-- Ends a finally handler and resumes what it interrupted. -/
  | endFinally

def Op.text : Op → String
  | .plain op => op.text
  | .endFinally => "endfinally"

/-- Code positions from `start` on and before `stop`. -/
structure Span where
  start : Nat
  stop : Nat
  deriving DecidableEq, Repr, Inhabited

def Span.contains (s : Span) (pc : Nat) : Bool := s.start ≤ pc && pc < s.stop

inductive HandlerKind where
  | catching (type : Ty)
  | finally
  deriving DecidableEq, Inhabited

structure Handler where
  kind : HandlerKind
  span : Span
  deriving DecidableEq, Inhabited

structure Region where
  tried : Span
  handlers : List Handler
  deriving DecidableEq, Inhabited

namespace Region

def handlerAt (r : Region) (pc : Nat) : Option Handler := r.handlers.find? fun h => h.span.contains pc

def contains (r : Region) (pc : Nat) : Bool := r.tried.contains pc || (r.handlerAt pc).isSome

def finallyHandler (r : Region) : Option Handler := r.handlers.find? fun h => h.kind == .finally

end Region

structure Code where
  ops : Array Op := #[]
  /-- The position of each label. -/
  labels : Array Nat := #[]
  locals : List Ty := []
  /-- Innermost first. -/
  regions : List Region := []
  deriving Inhabited

/-! ## Entities -/

structure TypeRecord where
  name : String
  attributes : TypeAttributes
  base : Option Ty
  interfaces : List Ty
  fields : List FieldId := []
  methods : List MethodId := []
  properties : List PropertyId := []
  /-- Instance fields, inherited ones first; known once the type is complete. -/
  layout : Option (List FieldId) := none
  deriving Inhabited

structure FieldRecord where
  owner : Ty
  name : String
  type : Ty
  isStatic : Bool
  /-- The place in an object; known once the owner is complete. -/
  slot : Option Nat := none
  deriving Inhabited

inductive MethodKind where
  /-- A method of the program, and its body once it has one. -/
  | defined (code : Option Code)
  | abstract
  /-- Provided by the machine. -/
  | native
  deriving Inhabited

def MethodKind.text : MethodKind → String
  | .defined (some _) => "defined"
  | .defined none => "bodiless"
  | .abstract => "abstract"
  | .native => "native"

def MethodKind.isNative : MethodKind → Bool
  | .native => true
  | _ => false

def MethodKind.isAbstract : MethodKind → Bool
  | .abstract => true
  | _ => false

structure MethodRecord where
  owner : Ty
  name : String
  params : List Ty
  ret : Ty
  isStatic : Bool
  isVirtual : Bool
  kind : MethodKind
  deriving Inhabited

/-- The number of arguments, the receiver included. -/
def MethodRecord.arity (m : MethodRecord) : Nat := m.params.length + if m.isStatic then 0 else 1

structure PropertyRecord where
  owner : Ty
  name : String
  type : Ty
  getter : Option MethodId
  setter : Option MethodId
  deriving Inhabited

structure Program where
  types : Array TypeRecord := #[]
  fields : Array FieldRecord := #[]
  methods : Array MethodRecord := #[]
  properties : Array PropertyRecord := #[]
  deriving Inhabited

namespace Program

variable (p : Program)

def type (id : TypeId) : TypeRecord := p.types.getD id.index default

def field (id : FieldId) : FieldRecord := p.fields.getD id.index default

def method (id : MethodId) : MethodRecord := p.methods.getD id.index default

def findType (name : String) : Option TypeId :=
  (p.types.findIdx? fun t => t.name == name).map fun index => { index, name }

/-- A method declared by the type itself. -/
def findMethod (id : TypeId) (name : String) (params : List Ty) : Option MethodId :=
  (p.type id).methods.find? fun m => (p.method m).name == name && (p.method m).params == params

def findField (id : TypeId) (name : String) : Option FieldId :=
  (p.type id).fields.find? fun f => (p.field f).name == name

/-- Everything except `object` has a base. -/
def baseOf : Ty → Option Ty
  | .defined id => some ((p.type id).base.getD .object)
  | .primitive .object => none
  | _ => some .object

def supertypes : Ty → List Ty
  | .defined id => (p.type id).base.getD .object :: (p.type id).interfaces
  | t => (p.baseOf t).toList

def reaches (goal : Ty) : Nat → Ty → Bool
  | 0, t => t == goal
  | n + 1, t => t == goal || (p.supertypes t).any (reaches goal n)

/-- Whether a value of the first type can stand where the second is expected. -/
def isSubtype (source target : Ty) : Bool := p.reaches target (p.types.size + 1) source

/-- The nearest implementation, searched from a type along its bases. -/
def implementation? (name : String) (params : List Ty) : Nat → Ty → Option MethodId
  | 0, _ => none
  | n + 1, .defined id =>
    let further := match (p.type id).base with
      | some base => implementation? name params n base
      | none => none
    match p.findMethod id name params with
    | some found => if (p.method found).kind.isAbstract then further else some found
    | none => further
  | _, _ => none

/-- The method that a call on a receiver of the given type runs. -/
def dispatch (receiver : Ty) (id : MethodId) : MethodId :=
  let declared := p.method id
  if declared.isVirtual then
    (p.implementation? declared.name declared.params (p.types.size + 1) receiver).getD id
  else id

end Program

/-! ## Listing -/

/-- Padded with blanks on the left. -/
def padLeft (width : Nat) (s : String) : String :=
  String.ofList (List.replicate (width - s.length) ' ') ++ s

def Code.labelLines (c : Code) (pc : Nat) : List String :=
  (c.labels.toList.zipIdx.filter fun entry => entry.1 == pc).map fun entry =>
    "   L" ++ toString entry.2 ++ ":"

def Code.listing (c : Code) : List String :=
  c.ops.toList.zipIdx.flatMap fun (op, pc) =>
    c.labelLines pc ++ ["    " ++ padLeft 3 (toString pc) ++ "  " ++ op.text]

namespace Program

variable (p : Program)

def fieldLine (f : FieldId) : String :=
  let record := p.field f
  let slot := (record.slot.map fun slot => " @" ++ toString slot).getD ""
  "  field " ++ record.name ++ ": " ++ record.type.text ++ slot

def methodLines (m : MethodId) : List String :=
  let record := p.method m
  let head := "  " ++ (if record.isStatic then "static " else "") ++ "method " ++ record.name ++
    Ty.listText record.params ++ " -> " ++ record.ret.text
  match record.kind with
  | .defined (some code) => head :: code.listing
  | _ => [head]

def typeLines (t : TypeRecord) : List String :=
  let base := (t.base.map fun base => " : " ++ base.text).getD ""
  ("type " ++ t.name ++ base) :: t.fields.map p.fieldLine ++ t.methods.flatMap p.methodLines

/-- All types with their members and code, one line each. -/
def listing : String :=
  String.join ((p.types.toList.flatMap p.typeLines).map fun line => line ++ "\n")

end Program

end Stackwright.Machine
