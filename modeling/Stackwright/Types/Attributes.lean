/-
  Stackwright.Types.Attributes — the flags a definition carries.

  Each kind of entity has its own flags. `ofNames` reads a set of flags from their names, and
  `bits` is the number that it is reported as.
-/

namespace Stackwright

/-- The flag's bit if it is set. -/
def flagBit (set : Bool) (bit : Nat) : Nat := if set then Nat.pow 2 bit else 0

structure TypeAttributes where
  isPublic : Bool := false
  isSealed : Bool := false
  isAbstract : Bool := false
  isInterface : Bool := false
  /-- Instances are values: they never convert to a reference type by themselves. -/
  isValueType : Bool := false
  deriving DecidableEq, Repr, Inhabited

def TypeAttributes.bits (a : TypeAttributes) : Nat :=
  flagBit a.isPublic 0 + flagBit a.isSealed 1 + flagBit a.isAbstract 2 + flagBit a.isInterface 3 +
    flagBit a.isValueType 4

def TypeAttributes.ofNames (names : List String) : TypeAttributes where
  isPublic := names.contains "public"
  isSealed := names.contains "sealed"
  isAbstract := names.contains "abstract"
  isInterface := names.contains "interface"
  isValueType := names.contains "value_type"

structure MethodAttributes where
  isPublic : Bool := false
  isPrivate : Bool := false
  isStatic : Bool := false
  isVirtual : Bool := false
  isAbstract : Bool := false
  isFinal : Bool := false
  hideBySig : Bool := false
  specialName : Bool := false
  deriving DecidableEq, Repr, Inhabited

def MethodAttributes.bits (a : MethodAttributes) : Nat :=
  flagBit a.isPublic 0 + flagBit a.isPrivate 1 + flagBit a.isStatic 2 + flagBit a.isVirtual 3 +
    flagBit a.isAbstract 4 + flagBit a.isFinal 5 + flagBit a.hideBySig 6 + flagBit a.specialName 7

def MethodAttributes.ofNames (names : List String) : MethodAttributes where
  isPublic := names.contains "public"
  isPrivate := names.contains "private"
  isStatic := names.contains "static"
  isVirtual := names.contains "virtual"
  isAbstract := names.contains "abstract"
  isFinal := names.contains "final"
  hideBySig := names.contains "hide_by_sig"
  specialName := names.contains "special_name"

structure FieldAttributes where
  isPublic : Bool := false
  isPrivate : Bool := false
  isStatic : Bool := false
  initOnly : Bool := false
  deriving DecidableEq, Repr, Inhabited

def FieldAttributes.bits (a : FieldAttributes) : Nat :=
  flagBit a.isPublic 0 + flagBit a.isPrivate 1 + flagBit a.isStatic 2 + flagBit a.initOnly 3

def FieldAttributes.ofNames (names : List String) : FieldAttributes where
  isPublic := names.contains "public"
  isPrivate := names.contains "private"
  isStatic := names.contains "static"
  initOnly := names.contains "init_only"

structure PropertyAttributes where
  specialName : Bool := false
  deriving DecidableEq, Repr, Inhabited

def PropertyAttributes.bits (a : PropertyAttributes) : Nat := flagBit a.specialName 0

def PropertyAttributes.ofNames (names : List String) : PropertyAttributes where
  specialName := names.contains "special_name"

end Stackwright
