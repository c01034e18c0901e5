import Stackwright.Target.Basic

/-
  Stackwright.Target.Recorder — a target that writes down what it is asked to do.

  Every handle is a text. Definitions become events; bodies become lines.
-/

namespace Stackwright

namespace Recorder

structure Log where
  /-- Definitions in the order they happened. -/
  events : Array String := #[]
  /-- Bodies with the members they belong to. -/
  bodies : Array (String × Array String) := #[]
  deriving Repr, Inhabited

structure Lines where
  lines : Array String := #[]
  labels : Nat := 0
  locals : Nat := 0
  deriving Repr, Inhabited

def handles : Handles where
  Ty := String
  Completed := String
  Field := String
  Method := String
  Constructor := String
  Property := String
  Label := String
  Local := String
  tyText := id
  fieldText := id
  methodText := id
  constructorText := id
  labelText := id
  localText := id

/-- Any text is a handle for any key. -/
def handle : (key : ItemKey) → String → handles.At key
  | .type _, s | .completed _, s | .method _, s | .constructor _, s | .field _, s | .property _, s => s

def textOf : (key : ItemKey) → handles.At key → String
  | .type _, s | .completed _, s | .method _, s | .constructor _, s | .field _, s | .property _, s => s

def list (types : List String) : String := ", ".intercalate types

/-! ## Definitions -/

def event (text : String) : Effect Log Unit := modify fun s => { s with events := s.events.push text }

def namedType (name : String) : Effect Log String :=
  if name.isEmpty then throw (.backend .emptyTypeName) else pure name

def member (owner name : String) : String := owner ++ "::" ++ name

def constructorOf (owner : String) : String := member owner ".ctor"

def defineType (name : String) (base : Option String) (interfaces : List String) :
    Effect Log String := do
  event ("define type " ++ name ++ " : " ++ base.getD "-" ++ " [" ++ list interfaces ++ "]")
  pure name

def finalizeType (type : String) : Effect Log String := do
  event ("finalize " ++ type)
  pure (type ++ "!")

def defineField (owner : String) (s : FieldSignature handles) : Effect Log String := do
  event ("define field " ++ member owner s.name ++ ": " ++ handles.tyText s.fieldType)
  pure (member owner s.name)

def defineMethod (owner : String) (s : MethodSignature handles) : Effect Log String := do
  event ("define method " ++ member owner s.name ++ "(" ++ list s.params ++ ") -> " ++
    handles.tyText s.returnType)
  pure (member owner s.name)

def defineConstructor (owner : String) (s : ConstructorSignature handles) : Effect Log String := do
  event ("define constructor " ++ constructorOf owner ++ "(" ++ list s.params ++ ")")
  pure (constructorOf owner)

def defineProperty (owner : String) (s : PropertySignature handles) : Effect Log String := do
  event ("define property " ++ member owner s.name)
  pure (member owner s.name)

/-! ## Bodies -/

def line (text : String) : Effect Lines Unit := modify fun s => { s with lines := s.lines.push text }

def defineLabel : Effect Lines String := do
  let s ← get
  set { s with labels := s.labels + 1 }
  pure ("L" ++ toString s.labels)

def declareLocal (type : String) : Effect Lines String := do
  let s ← get
  set { s with locals := s.locals + 1 }
  line ("local " ++ toString s.locals ++ ": " ++ type)
  pure (toString s.locals)

def beginTry : Effect Lines String := do
  let endLabel ← defineLabel
  line (".try " ++ endLabel)
  pure endLabel

def body (member : String) (draft : Lines) : Effect Log Unit := do
  event ("body " ++ member)
  modify fun s => { s with bodies := s.bodies.push (member, draft.lines) }

end Recorder

open Recorder in
def recorder : Target where
  toHandles := handles
  State := Log
  Draft := Lines
  primitiveType p := pure p.text
  namedType := namedType
  cellType (content : String) := pure ("cell<" ++ content ++ ">")
  delegateType (params : List String) (ret : String) := pure ("fn(" ++ list params ++ ") -> " ++ ret)
  existingMethod (owner : String) name _ _ _ := pure (member owner name)
  existingConstructor (owner : String) _ := pure (constructorOf owner)
  existingField (owner : String) name _ _ := pure (member owner name)
  defineType name _ base interfaces := defineType name base interfaces
  finalizeType := finalizeType
  defineField := defineField
  defineMethod := defineMethod
  defineConstructor := defineConstructor
  defineProperty := defineProperty
  emptyDraft := {}
  defineLabel := defineLabel
  markLabel (label : String) := line (label ++ ":")
  declareLocal := declareLocal
  beginTry := beginTry
  beginCatch (type : String) := line (".catch " ++ type)
  beginFinally := line ".finally"
  endTry := line ".end"
  emit op := line op.text
  methodBody := body
  constructorBody := body

end Stackwright
