import Std.Data.TreeSet
import Stackwright.Types.Order

/-
  Stackwright.Names.Key — the identities of what a module defines.

  A key says which entity is meant before the entity exists: a type, the completed form of
  a type, a method, a constructor, a field or a property. Members are told apart by owner,
  name and parameter types. Keys are ordered by kind, then part by part; `KeySet` is a set
  of keys listed in that order.
-/

namespace Stackwright

structure MethodKey where
  owner : TypeKey
  name : String
  params : List TypeRef
  isInstance : Bool
  deriving DecidableEq, Inhabited

structure ConstructorKey where
  owner : TypeKey
  params : List TypeRef
  deriving DecidableEq, Inhabited

structure FieldKey where
  owner : TypeKey
  name : String
  deriving DecidableEq, Inhabited

structure PropertyKey where
  owner : TypeKey
  name : String
  deriving DecidableEq, Inhabited

inductive ItemKey where
  | type (key : TypeKey)
  | completed (key : TypeKey)
  | method (key : MethodKey)
  | constructor (key : ConstructorKey)
  | field (key : FieldKey)
  | property (key : PropertyKey)
  deriving DecidableEq, Inhabited

/-! ## Text -/

def paramsText (params : List TypeRef) : String :=
  "(" ++ ", ".intercalate (params.map TypeRef.text) ++ ")"

def MethodKey.text (k : MethodKey) : String :=
  (if k.isInstance then "" else "static ") ++ k.owner.text ++ "::" ++ k.name ++ paramsText k.params

def ConstructorKey.text (k : ConstructorKey) : String :=
  k.owner.text ++ "::.ctor" ++ paramsText k.params

def FieldKey.text (k : FieldKey) : String := k.owner.text ++ "::" ++ k.name

def PropertyKey.text (k : PropertyKey) : String := k.owner.text ++ "::" ++ k.name

namespace ItemKey

/-- The text of the key without its kind. -/
def inner : ItemKey → String
  | .type key => key.text
  | .completed key => key.text ++ "!"
  | .method key => key.text
  | .constructor key => key.text
  | .field key => key.text
  | .property key => key.text

def text : ItemKey → String
  | .type key => "type " ++ key.text
  | .completed key => "completed type " ++ key.text
  | .method key => "method " ++ key.text
  | .constructor key => "constructor " ++ key.text
  | .field key => "field " ++ key.text
  | .property key => "property " ++ key.text

/-- The type that the entity is, or belongs to. -/
def owner : ItemKey → TypeKey
  | .type key | .completed key => key
  | .method key => key.owner
  | .constructor key => key.owner
  | .field key => key.owner
  | .property key => key.owner

end ItemKey

/-! ## Order -/

def MethodKey.order : MethodKey → MethodKey → Ordering :=
  compareLex (compareOn (·.owner)) <| compareLex (compareOn (Text.bytes ·.name)) <|
    compareLex (compareOn (·.params)) (compareOn (·.isInstance))

def ConstructorKey.order : ConstructorKey → ConstructorKey → Ordering :=
  compareLex (compareOn (·.owner)) (compareOn (·.params))

def FieldKey.order : FieldKey → FieldKey → Ordering :=
  compareLex (compareOn (·.owner)) (compareOn (Text.bytes ·.name))

def PropertyKey.order : PropertyKey → PropertyKey → Ordering :=
  compareLex (compareOn (·.owner)) (compareOn (Text.bytes ·.name))

instance : Std.TransCmp MethodKey.order := by unfold MethodKey.order; infer_instance
instance : Std.TransCmp ConstructorKey.order := by unfold ConstructorKey.order; infer_instance
instance : Std.TransCmp FieldKey.order := by unfold FieldKey.order; infer_instance
instance : Std.TransCmp PropertyKey.order := by unfold PropertyKey.order; infer_instance

instance : Std.LawfulEqCmp MethodKey.order where
  compare_self {_} := Std.ReflCmp.compare_self
  eq_of_compare {a b} h := by
    simp only [MethodKey.order, compareLex_eq_eq, compareOn, Std.compare_eq_iff_eq, Text.bytes_inj] at h
    cases a; cases b
    simp_all

instance : Std.LawfulEqCmp ConstructorKey.order where
  compare_self {_} := Std.ReflCmp.compare_self
  eq_of_compare {a b} h := by
    simp only [ConstructorKey.order, compareLex_eq_eq, compareOn, Std.compare_eq_iff_eq] at h
    cases a; cases b
    simp_all

instance : Std.LawfulEqCmp FieldKey.order where
  compare_self {_} := Std.ReflCmp.compare_self
  eq_of_compare {a b} h := by
    simp only [FieldKey.order, compareLex_eq_eq, compareOn, Std.compare_eq_iff_eq, Text.bytes_inj] at h
    cases a; cases b
    simp_all

instance : Std.LawfulEqCmp PropertyKey.order where
  compare_self {_} := Std.ReflCmp.compare_self
  eq_of_compare {a b} h := by
    simp only [PropertyKey.order, compareLex_eq_eq, compareOn, Std.compare_eq_iff_eq, Text.bytes_inj] at h
    cases a; cases b
    simp_all

namespace ItemKey

def rank : ItemKey → Nat
  | .type _ => 0
  | .completed _ => 1
  | .method _ => 2
  | .constructor _ => 3
  | .field _ => 4
  | .property _ => 5

def order : ItemKey → ItemKey → Ordering
  | .type a, .type b => a.order b
  | .completed a, .completed b => a.order b
  | .method a, .method b => a.order b
  | .constructor a, .constructor b => a.order b
  | .field a, .field b => a.order b
  | .property a, .property b => a.order b
  | a, b => compare a.rank b.rank

instance : Ord ItemKey := ⟨order⟩

instance : Std.TransCmp order where
  eq_swap {a b} := by
    cases a <;> cases b <;> simp only [order]
    case type.type => exact Std.OrientedOrd.eq_swap
    case completed.completed => exact Std.OrientedOrd.eq_swap
    case method.method => exact Std.OrientedCmp.eq_swap
    case constructor.constructor => exact Std.OrientedCmp.eq_swap
    case field.field => exact Std.OrientedCmp.eq_swap
    case property.property => exact Std.OrientedCmp.eq_swap
    all_goals rfl
  isLE_trans {a b c} hab hbc := by
    cases a <;> cases b <;> cases c <;> simp only [order] at hab hbc ⊢
    case type.type.type => exact Std.TransOrd.isLE_trans hab hbc
    case completed.completed.completed => exact Std.TransOrd.isLE_trans hab hbc
    case method.method.method => exact Std.TransCmp.isLE_trans hab hbc
    case constructor.constructor.constructor => exact Std.TransCmp.isLE_trans hab hbc
    case field.field.field => exact Std.TransCmp.isLE_trans hab hbc
    case property.property.property => exact Std.TransCmp.isLE_trans hab hbc
    all_goals first | rfl | contradiction

instance : Std.LawfulEqCmp order where
  compare_self {a} := by
    cases a <;> simp only [order]
    case type => exact Std.ReflOrd.compare_self
    case completed => exact Std.ReflOrd.compare_self
    all_goals exact Std.ReflCmp.compare_self
  eq_of_compare {a b} h := by
    cases a <;> cases b <;> simp only [order] at h
    case type.type => exact congrArg _ (Std.LawfulEqOrd.eq_of_compare h)
    case completed.completed => exact congrArg _ (Std.LawfulEqOrd.eq_of_compare h)
    case method.method => exact congrArg _ (Std.LawfulEqCmp.eq_of_compare h)
    case constructor.constructor => exact congrArg _ (Std.LawfulEqCmp.eq_of_compare h)
    case field.field => exact congrArg _ (Std.LawfulEqCmp.eq_of_compare h)
    case property.property => exact congrArg _ (Std.LawfulEqCmp.eq_of_compare h)
    all_goals contradiction

end ItemKey

/-! ## Sets of keys -/

abbrev KeySet := Std.TreeSet ItemKey ItemKey.order

namespace KeySet

def texts (s : KeySet) : List String := s.toList.map ItemKey.text

end KeySet

mutual
/-- Adds the deferred types that a reference mentions, through cells and delegates too. -/
def TypeRef.addKeys : TypeRef → KeySet → KeySet
  | .deferred key, s => s.insert (.type key)
  | .primitive _, s => s
  | .named _, s => s
  | .cell content, s => content.addKeys s
  | .delegate params ret, s => ret.addKeys (TypeRef.addAllKeys params s)

def TypeRef.addAllKeys : List TypeRef → KeySet → KeySet
  | [], s => s
  | t :: ts, s => TypeRef.addAllKeys ts (t.addKeys s)
end

def TypeRef.keys (t : TypeRef) : KeySet := t.addKeys ∅

namespace TypeKey

def method (owner : TypeKey) (name : String) (params : List TypeRef) (isInstance : Bool) : MethodKey :=
  { owner, name, params, isInstance }

def constructor (owner : TypeKey) (params : List TypeRef) : ConstructorKey := { owner, params }

def field (owner : TypeKey) (name : String) : FieldKey := { owner, name }

def property (owner : TypeKey) (name : String) : PropertyKey := { owner, name }

end TypeKey

end Stackwright
