import Std.Data.DTreeMap
import Stackwright.Error
import Stackwright.Target.Handles

/-
  Stackwright.Target.Slots — write-once places for handles.

  A slot is written at most once and read only after that. A slot table has one slot per
  created key; reading a key without a slot counts as reading too early, writing one is a
  fault of the writer.
-/

namespace Stackwright

structure Slot (α : Type) where
  key : ItemKey
  content : Option α := none

namespace Slot

variable {α : Type}

def isWritten (s : Slot α) : Bool := s.content.isSome

def write (s : Slot α) (value : α) : Except BuildError (Slot α) :=
  match s.content with
  | none => .ok { s with content := some value }
  | some _ => .error (.singleAssignment s.key)

def read (s : Slot α) : Except BuildError α :=
  match s.content with
  | some value => .ok value
  | none => .error (.uninitialized s.key)

end Slot

abbrev Slots (H : Handles) := Std.DTreeMap ItemKey (fun key => Slot (H.At key)) ItemKey.order

namespace Slots

variable {H : Handles}

/-- An empty slot, unless there is one. -/
def create (s : Slots H) (key : ItemKey) : Slots H := s.insertIfNew key { key }

def isWritten (s : Slots H) (key : ItemKey) : Bool := (s.get? key).any Slot.isWritten

def read (s : Slots H) (key : ItemKey) : Except BuildError (H.At key) :=
  match s.get? key with
  | some slot => slot.read
  | none => .error (.uninitialized key)

def write (s : Slots H) (key : ItemKey) (value : H.At key) : Except BuildError (Slots H) :=
  match s.get? key with
  | none => .error (.structural (.missingSlot key))
  | some slot => do
    let slot ← slot.write value
    .ok (s.insert key slot)

def type (s : Slots H) (key : TypeKey) : Except BuildError H.Ty := s.read (.type key)

def completed (s : Slots H) (key : TypeKey) : Except BuildError H.Completed := s.read (.completed key)

def method (s : Slots H) (key : MethodKey) : Except BuildError H.Method := s.read (.method key)

def constructor (s : Slots H) (key : ConstructorKey) : Except BuildError H.Constructor :=
  s.read (.constructor key)

def field (s : Slots H) (key : FieldKey) : Except BuildError H.Field := s.read (.field key)

def property (s : Slots H) (key : PropertyKey) : Except BuildError H.Property := s.read (.property key)

/-- The completed types written so far, in key order. -/
def completedTypes (s : Slots H) : List (TypeKey × H.Completed) :=
  s.toList.filterMap fun
    | ⟨.completed key, slot⟩ => slot.content.map fun handle => (key, handle)
    | _ => none

end Slots

end Stackwright
