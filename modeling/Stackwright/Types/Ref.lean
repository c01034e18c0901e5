/-
  Stackwright.Types.Ref — references to types.

  A type is referred to before it exists by its key (`deferred`); every other reference is
  to something the target already has: a primitive, a class known by name, a cell that
  holds a captured variable, or a delegate.
-/

namespace Stackwright

inductive Primitive where
  | void | bool | char
  | i8 | i16 | i32 | i64
  | u8 | u16 | u32 | u64
  | f32 | f64
  | string | object
  deriving DecidableEq, Repr, Inhabited

namespace Primitive

def all : List Primitive :=
  [.void, .bool, .char, .i8, .i16, .i32, .i64, .u8, .u16, .u32, .u64, .f32, .f64, .string, .object]

def text : Primitive → String
  | .void => "void" | .bool => "bool" | .char => "char"
  | .i8 => "i8" | .i16 => "i16" | .i32 => "i32" | .i64 => "i64"
  | .u8 => "u8" | .u16 => "u16" | .u32 => "u32" | .u64 => "u64"
  | .f32 => "f32" | .f64 => "f64"
  | .string => "string" | .object => "object"

def ofText? (s : String) : Option Primitive := all.find? (·.text == s)

/-- Primitives in their fixed order. -/
def rank : Primitive → Nat
  | .void => 0 | .bool => 1 | .char => 2
  | .i8 => 3 | .i16 => 4 | .i32 => 5 | .i64 => 6
  | .u8 => 7 | .u16 => 8 | .u32 => 9 | .u64 => 10
  | .f32 => 11 | .f64 => 12
  | .string => 13 | .object => 14

theorem rank_injective {p q : Primitive} (h : p.rank = q.rank) : p = q := by
  cases p <;> cases q <;> first | rfl | cases h

def isValueType : Primitive → Bool
  | .void | .string | .object => false
  | _ => true

def isSigned : Primitive → Bool
  | .i8 | .i16 | .i32 | .i64 => true
  | _ => false

def isUnsigned : Primitive → Bool
  | .u8 | .u16 | .u32 | .u64 | .char => true
  | _ => false

def isInteger (p : Primitive) : Bool := p.isSigned || p.isUnsigned

def isFloat : Primitive → Bool
  | .f32 | .f64 => true
  | _ => false

def isNumeric (p : Primitive) : Bool := p.isInteger || p.isFloat

end Primitive

/-- The identity of a type that the module defines. -/
structure TypeKey where
  name : String
  deriving DecidableEq, Repr, Inhabited

namespace TypeKey

def text (k : TypeKey) : String := k.name

end TypeKey

inductive TypeRef where
  | deferred (key : TypeKey)
  | primitive (p : Primitive)
  | named (name : String)
  | cell (content : TypeRef)
  | delegate (params : List TypeRef) (ret : TypeRef)
  deriving Inhabited

namespace TypeRef

abbrev void : TypeRef := .primitive .void
abbrev bool : TypeRef := .primitive .bool
abbrev i32 : TypeRef := .primitive .i32
abbrev object : TypeRef := .primitive .object

/-! ## Text -/

mutual
def text : TypeRef → String
  | .deferred key => key.text
  | .primitive p => p.text
  | .named name => name
  | .cell content => "cell<" ++ content.text ++ ">"
  | .delegate params ret => "fn(" ++ ", ".intercalate (textAll params) ++ ") -> " ++ ret.text

def textAll : List TypeRef → List String
  | [] => []
  | t :: ts => t.text :: textAll ts
end

/-! ## Parts -/

def primitive? : TypeRef → Option Primitive
  | .primitive p => some p
  | _ => none

def key? : TypeRef → Option TypeKey
  | .deferred key => some key
  | _ => none

def isVoid (t : TypeRef) : Bool := t.primitive? == some .void

def isBool (t : TypeRef) : Bool := t.primitive? == some .bool

/-- The content type of a cell. -/
def content? : TypeRef → Option TypeRef
  | .cell content => some content
  | _ => none

def signature? : TypeRef → Option (List TypeRef × TypeRef)
  | .delegate params ret => some (params, ret)
  | _ => none

/-- Whether the type is a primitive that passes the test. -/
def isPrimitiveWith (t : TypeRef) (test : Primitive → Bool) : Bool := t.primitive?.any test

end TypeRef

end Stackwright
