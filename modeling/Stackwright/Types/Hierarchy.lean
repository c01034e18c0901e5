import Stackwright.Types.Table

/-
  Stackwright.Types.Hierarchy — questions about types, declared or already there.

  Four questions about the types that are already there are answered by whoever provides them
  (`Metadata`). A hierarchy joins a table with such answers. A value of one type may be stored
  where another is expected when the types are equal, or when both are reference types and the
  expected one is `object` or a supertype reached through bases and interfaces. Hierarchies may
  be cyclic, so the search keeps the types it has seen.

  A catalog answers for classes that the target provides by name; a class it does not list
  derives from `object`.
-/

namespace Stackwright

structure NamedType where
  isValueType : Bool := false
  isInterface : Bool := false
  base : Option TypeRef := none
  interfaces : List TypeRef := []
  deriving DecidableEq, Inhabited

abbrev Catalog := Std.TreeMap String NamedType Text.order

/-- What is known about types that are already there; of declared types nothing is asked. A search
along supertypes ends because a type leads to no others than those above it. -/
structure Metadata where
  isValueType : TypeRef → Bool
  isInterface : TypeRef → Bool
  base? : TypeRef → Option TypeRef
  interfaces : TypeRef → List TypeRef
  above : TypeRef → List TypeRef
  direct : ∀ t, ∀ u ∈ (base? t).toList ++ interfaces t, u ∈ above t
  onward : ∀ t, ∀ u ∈ above t, ∀ v ∈ (base? u).toList ++ interfaces u, v ∈ above t

namespace Catalog

/-- The base class. Value types need none; a class that names no base derives from `object`. -/
def base? (c : Catalog) : TypeRef → Option TypeRef
  | .primitive .string => some .object
  | .named name =>
    match c.get? name with
    | none => some .object
    | some info =>
      if info.isInterface || info.isValueType then info.base else some (info.base.getD .object)
  | .cell _ | .delegate _ _ => some .object
  | .primitive _ | .deferred _ => none

def interfaces (c : Catalog) : TypeRef → List TypeRef
  | .named name => ((c.get? name).map (·.interfaces)).getD []
  | _ => []

/-- The supertypes that the catalog writes down, and `object`. -/
def written (c : Catalog) : List TypeRef :=
  .object :: c.toList.flatMap fun entry => entry.2.base.getD .object :: entry.2.interfaces

theorem mem_written {c : Catalog} {t u : TypeRef} (hu : u ∈ (c.base? t).toList ++ c.interfaces t) : u ∈ c.written := by
  have hlisted {name : String} {info : NamedType} (hinfo : c.get? name = some info)
      (hu : u ∈ info.base.getD .object :: info.interfaces) : u ∈ c.written :=
    List.mem_cons_of_mem _ (List.mem_flatMap.mpr ⟨_, Std.TreeMap.mem_toList_iff_getElem?_eq_some.mpr hinfo, hu⟩)
  cases t with
  | named name =>
    cases hinfo : c.get? name with
    | none => simp_all [base?, interfaces, written]
    | some info => exact hlisted hinfo (by cases hbase : info.base <;> grind [base?, interfaces])
  | primitive p => cases p <;> simp_all [base?, interfaces, written]
  | deferred key | cell content | delegate params ret => simp_all [base?, interfaces, written]

def metadata (c : Catalog) : Metadata where
  isValueType
    | .primitive p => p.isValueType
    | .named name => (c.get? name).any (·.isValueType)
    | _ => false
  isInterface
    | .named name => (c.get? name).any (·.isInterface)
    | _ => false
  base? := c.base?
  interfaces := c.interfaces
  above _ := c.written
  direct _ _ := mem_written
  onward _ _ _ _ := mem_written

instance : Coe Catalog Metadata := ⟨metadata⟩

instance : EmptyCollection Metadata := ⟨metadata ∅⟩

end Catalog

structure Hierarchy where
  table : Table
  catalog : Metadata

namespace Hierarchy

def isValueType (h : Hierarchy) : TypeRef → Bool
  | .deferred key => (h.table.type? key).any (·.attributes.isValueType)
  | t => h.catalog.isValueType t

def isInterface (h : Hierarchy) : TypeRef → Bool
  | .deferred key => (h.table.type? key).any (·.attributes.isInterface)
  | t => h.catalog.isInterface t

def isReference (h : Hierarchy) (t : TypeRef) : Bool := !t.isVoid && !h.isValueType t

/-- The base class. Interfaces and undeclared types have none; a class that names no base
derives from `object`. -/
def base? (h : Hierarchy) : TypeRef → Option TypeRef
  | .deferred key =>
    match h.table.type? key with
    | none => none
    | some decl => if decl.attributes.isInterface then none else some (decl.base.getD .object)
  | t => h.catalog.base? t

def interfaces (h : Hierarchy) : TypeRef → List TypeRef
  | .deferred key => ((h.table.type? key).map (·.interfaces)).getD []
  | t => h.catalog.interfaces t

/-- Direct supertypes: the base, then the interfaces. -/
def supertypes (h : Hierarchy) (t : TypeRef) : List TypeRef := (h.base? t).toList ++ h.interfaces t

/-- The supertypes that the table writes down, `object` for a base left out. -/
def written (h : Hierarchy) : List TypeRef :=
  h.table.toList.flatMap fun entry =>
    match entry.2 with
    | .type decl => decl.base.getD .object :: decl.interfaces
    | _ => []

/-- Types among which all are that `start` leads to. -/
def comesTo (h : Hierarchy) (start : TypeRef) : List TypeRef :=
  (start :: h.written).flatMap fun t => t :: h.catalog.above t

/-- Looks for `goal` among the queued types and their supertypes. -/
def search (h : Hierarchy) (goal : TypeRef) : Nat → List TypeRef → List TypeRef → Bool
  | 0, _, _ => false
  | _ + 1, _, [] => false
  | fuel + 1, seen, t :: queue =>
    if seen.contains t then h.search goal fuel seen queue
    else t == goal || h.search goal fuel (t :: seen) (queue ++ h.supertypes t)

/-- Whether `goal` is `start` or one of its supertypes. A type adds its supertypes to the queue
at most once, which bounds the search. -/
def reaches (h : Hierarchy) (start goal : TypeRef) : Bool :=
  h.search goal (((h.comesTo start).flatMap h.supertypes).length + 2) [] [start]

def isAssignable (h : Hierarchy) (source target : TypeRef) : Bool :=
  source == target ||
    (h.isReference source && h.isReference target &&
      (target == .object || h.reaches source target))

end Hierarchy

end Stackwright
