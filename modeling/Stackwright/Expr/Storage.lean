import Stackwright.Code.Block

/-
  Stackwright.Expr.Storage — where a variable lives, and the code that reads and writes it.

  A variable is an argument, a local, or a field of the object in another storage. A boxed
  storage holds a cell; reading and writing go through the cell.
-/

namespace Stackwright

inductive Storage where
  | argument (index : UInt16) (type : TypeRef)
  | slot (name : Symbol) (type : TypeRef) (boxed : Bool)
  | field (target : Storage) (field : FieldRef) (type : TypeRef) (boxed : Bool)
  deriving Inhabited

namespace Storage

/-- The type of the variable's value. -/
def type : Storage → TypeRef
  | .argument _ type | .slot _ type _ | .field _ _ type _ => type

def isBoxed : Storage → Bool
  | .argument _ _ => false
  | .slot _ _ boxed | .field _ _ _ boxed => boxed

/-- The type of what is physically stored. -/
def slotType (s : Storage) : TypeRef := if s.isBoxed then .cell s.type else s.type

def cellLoad (boxed : Bool) (type : TypeRef) : List Instr :=
  if boxed then [.typeOp .loadCell type] else []

/-- Pushes what is physically stored. -/
def loadSlot : Storage → List Instr
  | .argument index _ => [.loadArg index]
  | .slot name _ _ => [.loadLocal name]
  | .field target f _ _ => target.loadSlot ++ cellLoad target.isBoxed target.type ++ [.loadField f]

/-- Pushes the value. -/
def fetch (s : Storage) : List Instr := s.loadSlot ++ cellLoad s.isBoxed s.type

def locationText : Storage → String
  | .argument index _ => "Argument(" ++ toString index.toNat ++ ")"
  | .slot name _ _ => "Local(" ++ name.quoted ++ ")"
  | .field target f _ _ => "Field(" ++ target.locationText ++ ", " ++ f.text ++ ")"

/-- Pushes the cell itself. -/
def fetchBox (s : Storage) : Except BuildError (List Instr) :=
  if s.isBoxed then .ok s.loadSlot else .error (.structural (.notBoxed s.locationText))

/-- What has to be pushed before the value that is going to be stored. -/
def beforeStore (s : Storage) : List Instr :=
  if s.isBoxed then s.loadSlot
  else match s with
    | .field target _ _ _ => target.fetch
    | _ => []

/-- What stores the value on top. -/
def afterStore (s : Storage) : Instr :=
  if s.isBoxed then .typeOp .storeCell s.type
  else match s with
    | .argument index _ => .storeArg index
    | .slot name _ _ => .storeLocal name
    | .field _ f _ _ => .storeField f

/-- Writes the value that the given code pushes. -/
def store (s : Storage) (value : List Instr) : List Instr :=
  s.beforeStore ++ value ++ [s.afterStore]

end Storage

end Stackwright
