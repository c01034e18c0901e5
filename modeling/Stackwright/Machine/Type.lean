import Stackwright.Types.Ref

/-
  Stackwright.Machine.Type — the entities of a program and the types of its values.

  Entities of a program are numbered; a handle carries the number and, for listings, the
  name.
-/

namespace Stackwright.Machine

structure TypeId where
  index : Nat
  name : String
  deriving DecidableEq, Repr, Inhabited

structure FieldId where
  index : Nat
  name : String
  deriving DecidableEq, Repr, Inhabited

structure MethodId where
  index : Nat
  name : String
  deriving DecidableEq, Repr, Inhabited

structure PropertyId where
  index : Nat
  name : String
  deriving DecidableEq, Repr, Inhabited

structure LabelId where
  index : Nat
  deriving DecidableEq, Repr, Inhabited

structure LocalId where
  index : Nat
  deriving DecidableEq, Repr, Inhabited

def LabelId.text (l : LabelId) : String := "L" ++ toString l.index

inductive Ty where
  | primitive (p : Primitive)
  /-- A class that the machine itself provides. -/
  | named (name : String)
  | cell (content : Ty)
  | delegate (params : List Ty) (ret : Ty)
  /-- A type of the program. -/
  | defined (id : TypeId)
  deriving Inhabited

namespace Ty

abbrev object : Ty := .primitive .object
abbrev void : Ty := .primitive .void

/-! ## Equality -/

mutual
def same : Ty → Ty → Bool
  | .primitive p, .primitive q => p == q
  | .named a, .named b => a == b
  | .cell a, .cell b => same a b
  | .delegate ps r, .delegate qs s => sameAll ps qs && same r s
  | .defined a, .defined b => a == b
  | _, _ => false

def sameAll : List Ty → List Ty → Bool
  | [], [] => true
  | a :: as, b :: bs => same a b && sameAll as bs
  | _, _ => false
end

mutual
theorem same_refl : ∀ t : Ty, same t t = true
  | .primitive _ | .named _ | .defined _ => by simp [same]
  | .cell content => by simp [same, same_refl content]
  | .delegate params ret => by simp [same, sameAll_refl params, same_refl ret]

theorem sameAll_refl : ∀ ts : List Ty, sameAll ts ts = true
  | [] => by simp [sameAll]
  | t :: ts => by simp [sameAll, same_refl t, sameAll_refl ts]
end

mutual
theorem eq_of_same : ∀ a b : Ty, same a b = true → a = b
  | .primitive _, b, h => by cases b <;> simp_all [same]
  | .named _, b, h => by cases b <;> simp_all [same]
  | .defined _, b, h => by cases b <;> simp_all [same]
  | .cell a, b, h => by
    cases b with
    | cell b => simp only [same] at h; rw [eq_of_same a b h]
    | _ => simp [same] at h
  | .delegate ps r, b, h => by
    cases b with
    | delegate qs s =>
      simp only [same, Bool.and_eq_true] at h
      rw [eq_of_sameAll ps qs h.1, eq_of_same r s h.2]
    | _ => simp [same] at h

theorem eq_of_sameAll : ∀ as bs : List Ty, sameAll as bs = true → as = bs
  | [], bs, h => by cases bs <;> simp_all [sameAll]
  | a :: as, bs, h => by
    cases bs with
    | nil => simp [sameAll] at h
    | cons b bs =>
      simp only [sameAll, Bool.and_eq_true] at h
      rw [eq_of_same a b h.1, eq_of_sameAll as bs h.2]
end

instance : DecidableEq Ty := fun a b =>
  decidable_of_bool (same a b) ⟨eq_of_same a b, fun h => h ▸ same_refl a⟩

/-! ## Text -/

mutual
def text : Ty → String
  | .primitive p => p.text
  | .named name => name
  | .cell content => "cell<" ++ text content ++ ">"
  | .delegate params ret => "fn(" ++ ", ".intercalate (texts params) ++ ") -> " ++ text ret
  | .defined id => id.name

def texts : List Ty → List String
  | [] => []
  | t :: ts => text t :: texts ts
end

/-- A list of types in brackets. -/
def listText (ts : List Ty) : String := "[" ++ ", ".intercalate (texts ts) ++ "]"

end Ty

end Stackwright.Machine
