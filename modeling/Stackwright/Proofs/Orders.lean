import Mathlib.Data.Prod.Lex
import Stackwright.Names.Symbol
import Stackwright.Names.Key

/-
  Stackwright.Proofs.Orders — the orders behind all maps and sets are lawful.

  `Before` says of symbols, type references and keys which comes first, without computing
  it: names by their bytes, kinds before content, parts from the first to the last. The
  comparisons decide it, any two values compare, and `eq` is said of values that are the
  same, where two symbols from a supply are the same when their numbers are.
-/

namespace Stackwright

variable {α β : Type}

structure LawfulOrder (cmp : α → α → Ordering) (before same : α → α → Prop) : Prop where
  lt_iff : ∀ a b, cmp a b = .lt ↔ before a b
  eq_iff : ∀ a b, cmp a b = .eq ↔ same a b
  total : ∀ a b, (cmp a b).isLE ∨ (cmp b a).isLE
  antisymm : ∀ a b, (cmp a b).isLE → (cmp b a).isLE → same a b
  trans : ∀ a b c, (cmp a b).isLE → (cmp b c).isLE → (cmp a c).isLE
  swap : ∀ a b, cmp a b = (cmp b a).swap

theorem LawfulOrder.of {cmp : α → α → Ordering} {before same : α → α → Prop} [Std.TransCmp cmp]
    (lt_iff : ∀ a b, cmp a b = .lt ↔ before a b) (eq_iff : ∀ a b, cmp a b = .eq ↔ same a b) :
    LawfulOrder cmp before same where
  lt_iff := lt_iff
  eq_iff := eq_iff
  total a b := by
    rw [@Std.OrientedCmp.eq_swap _ cmp _ a b]
    cases cmp b a <;> simp
  antisymm a b hab hba := by
    rw [@Std.OrientedCmp.eq_swap _ cmp _ b a] at hba
    rw [← eq_iff]
    cases h : cmp a b <;> simp_all
  trans _ _ _ := Std.TransCmp.isLE_trans
  swap _ _ := Std.OrientedCmp.eq_swap

theorem LawfulOrder.ofEq {cmp : α → α → Ordering} {before : α → α → Prop} [Std.TransCmp cmp] [Std.LawfulEqCmp cmp]
    (lt_iff : ∀ a b, cmp a b = .lt ↔ before a b) : LawfulOrder cmp before Eq :=
  .of lt_iff fun _ _ => Std.LawfulEqCmp.compare_eq_iff_eq

theorem then_lt_iff {first second : Ordering} {r : α → α → Prop} {s : β → β → Prop} {a a' : α} {b b' : β}
    (hlt : first = .lt ↔ r a a') (heq : first = .eq ↔ a = a') (hsecond : second = .lt ↔ s b b') :
    first.then second = .lt ↔ Prod.Lex r s (a, b) (a', b') := by
  rw [Ordering.then_eq_lt, hlt, heq, hsecond, Prod.lex_def]

theorem compare_list_lt_iff [Ord α] [Std.LawfulEqOrd α] {r : α → α → Prop}
    (hlt : ∀ a b : α, compare a b = .lt ↔ r a b) : ∀ as bs : List α, compare as bs = .lt ↔ List.Lex r as bs
  | [], [] => by simp
  | [], _ :: _ => by simp
  | _ :: _, [] => by simp
  | a :: as, b :: bs => by
    rw [List.compare_cons_cons, Ordering.then_eq_lt, hlt, Std.compare_eq_iff_eq, compare_list_lt_iff hlt as bs,
      List.cons_lex_cons_iff]

theorem compare_bool_lt_iff : ∀ a b : Bool, compare a b = .lt ↔ a < b := by decide

/-! ## What comes first -/

def Text.Before (s t : String) : Prop := List.Lex (· < ·) (Text.bytes s) (Text.bytes t)

theorem Text.order_lt_iff (s t : String) : Text.order s t = .lt ↔ Text.Before s t :=
  compare_list_lt_iff (fun _ _ => Std.compare_eq_lt) _ _

/-- Written names come first, by their bytes; drawn ones follow, by their numbers. -/
inductive Symbol.Before : Symbol → Symbol → Prop
  | named {a b : String} : Text.Before a b → Before (.named a) (.named b)
  | kind {a : String} {i : Nat} {hint : Option String} : Before (.named a) (.generated i hint)
  | generated {i j : Nat} {hint hint' : Option String} : i < j → Before (.generated i hint) (.generated j hint')

/-- Hints do not tell symbols apart. -/
inductive Symbol.Same : Symbol → Symbol → Prop
  | named (a : String) : Same (.named a) (.named a)
  | generated (i : Nat) (hint hint' : Option String) : Same (.generated i hint) (.generated i hint')

def TypeKey.Before (a b : TypeKey) : Prop := Text.Before a.name b.name

inductive TypeRef.Before : TypeRef → TypeRef → Prop
  | kind {a b : TypeRef} : a.rank < b.rank → Before a b
  | deferred {a b : TypeKey} : a.Before b → Before (.deferred a) (.deferred b)
  | primitive {p q : Primitive} : p.rank < q.rank → Before (.primitive p) (.primitive q)
  | named {a b : String} : Text.Before a b → Before (.named a) (.named b)
  | cell {a b : TypeRef} : Before a b → Before (.cell a) (.cell b)
  | params {ps qs : List TypeRef} {r s : TypeRef} : List.Lex Before ps qs → Before (.delegate ps r) (.delegate qs s)
  | ret {ps : List TypeRef} {r s : TypeRef} : Before r s → Before (.delegate ps r) (.delegate ps s)

def MethodKey.Before (a b : MethodKey) : Prop :=
  Prod.Lex TypeKey.Before (Prod.Lex Text.Before (Prod.Lex (List.Lex TypeRef.Before) (· < ·)))
    (a.owner, a.name, a.params, a.isInstance) (b.owner, b.name, b.params, b.isInstance)

def ConstructorKey.Before (a b : ConstructorKey) : Prop :=
  Prod.Lex TypeKey.Before (List.Lex TypeRef.Before) (a.owner, a.params) (b.owner, b.params)

def FieldKey.Before (a b : FieldKey) : Prop :=
  Prod.Lex TypeKey.Before Text.Before (a.owner, a.name) (b.owner, b.name)

def PropertyKey.Before (a b : PropertyKey) : Prop :=
  Prod.Lex TypeKey.Before Text.Before (a.owner, a.name) (b.owner, b.name)

inductive ItemKey.Before : ItemKey → ItemKey → Prop
  | kind {a b : ItemKey} : a.rank < b.rank → Before a b
  | type {a b : TypeKey} : a.Before b → Before (.type a) (.type b)
  | completed {a b : TypeKey} : a.Before b → Before (.completed a) (.completed b)
  | method {a b : MethodKey} : a.Before b → Before (.method a) (.method b)
  | constructor {a b : ConstructorKey} : a.Before b → Before (.constructor a) (.constructor b)
  | field {a b : FieldKey} : a.Before b → Before (.field a) (.field b)
  | property {a b : PropertyKey} : a.Before b → Before (.property a) (.property b)

/-! ## The comparisons decide it -/

theorem Symbol.order_lt_iff (a b : Symbol) : a.order b = .lt ↔ a.Before b := by
  cases a <;> cases b <;> simp only [order]
  case named.named => exact (Text.order_lt_iff _ _).trans ⟨.named, fun h => by cases h; assumption⟩
  case named.generated => exact ⟨fun _ => .kind, fun _ => trivial⟩
  case generated.named => exact ⟨by rintro ⟨⟩, by rintro ⟨⟩⟩
  case generated.generated => exact Std.compare_eq_lt.trans ⟨.generated, fun h => by cases h; assumption⟩

theorem Symbol.order_eq_iff (a b : Symbol) : a.order b = .eq ↔ a.Same b := by
  cases a <;> cases b <;> simp only [order]
  case named.named => exact Std.LawfulEqCmp.compare_eq_iff_eq.trans ⟨fun h => h ▸ .named _, fun h => by cases h; rfl⟩
  case generated.generated =>
    exact Std.compare_eq_iff_eq.trans ⟨fun h => h ▸ .generated _ _ _, fun h => by cases h; rfl⟩
  all_goals exact ⟨by rintro ⟨⟩, by rintro ⟨⟩⟩

namespace TypeRef

mutual
theorem order_lt_iff (a b : TypeRef) : order a b = .lt ↔ Before a b := by
  cases a <;> cases b <;> simp only [order]
  case deferred.deferred a b =>
    exact (Text.order_lt_iff a.name b.name).trans ⟨.deferred, fun h => by cases h <;> trivial⟩
  case primitive.primitive =>
    exact Std.compare_eq_lt.trans ⟨.primitive, fun h => by cases h <;> first | assumption | contradiction⟩
  case named.named => exact (Text.order_lt_iff _ _).trans ⟨.named, fun h => by cases h <;> trivial⟩
  case cell.cell a b => exact (order_lt_iff a b).trans ⟨.cell, fun h => by cases h <;> trivial⟩
  case delegate.delegate ps r qs s =>
    rw [Ordering.then_eq_lt, orderAll_lt_iff ps qs, order_lt_iff r s]
    constructor
    · rintro (h | ⟨heq, h⟩)
      · exact .params h
      · exact eq_of_orderAll heq ▸ .ret h
    · intro h
      cases h with
      | kind h => exact absurd h (Nat.lt_irrefl _)
      | params h => exact .inl h
      | ret h => exact .inr ⟨orderAll_self _, h⟩
  all_goals exact Std.compare_eq_lt.trans ⟨.kind, fun h => by cases h; assumption⟩

theorem orderAll_lt_iff (as bs : List TypeRef) : orderAll as bs = .lt ↔ List.Lex Before as bs := by
  cases as <;> cases bs <;> simp only [orderAll]
  case cons.cons a as b bs =>
    rw [Ordering.then_eq_lt, order_lt_iff a b, orderAll_lt_iff as bs, List.cons_lex_cons_iff]
    exact or_congr_right (and_congr_left' ⟨eq_of_order, fun h => h ▸ order_self a⟩)
  all_goals simp
end

end TypeRef

theorem MethodKey.order_lt_iff (a b : MethodKey) : a.order b = .lt ↔ a.Before b :=
  then_lt_iff (Text.order_lt_iff _ _) Std.compare_eq_iff_eq <|
    then_lt_iff (Text.order_lt_iff _ _) (Std.compare_eq_iff_eq.trans Text.bytes_inj) <|
    then_lt_iff (compare_list_lt_iff TypeRef.order_lt_iff _ _) Std.compare_eq_iff_eq (compare_bool_lt_iff _ _)

theorem ConstructorKey.order_lt_iff (a b : ConstructorKey) : a.order b = .lt ↔ a.Before b :=
  then_lt_iff (Text.order_lt_iff _ _) Std.compare_eq_iff_eq (compare_list_lt_iff TypeRef.order_lt_iff _ _)

theorem FieldKey.order_lt_iff (a b : FieldKey) : a.order b = .lt ↔ a.Before b :=
  then_lt_iff (Text.order_lt_iff _ _) Std.compare_eq_iff_eq (Text.order_lt_iff _ _)

theorem PropertyKey.order_lt_iff (a b : PropertyKey) : a.order b = .lt ↔ a.Before b :=
  then_lt_iff (Text.order_lt_iff _ _) Std.compare_eq_iff_eq (Text.order_lt_iff _ _)

theorem ItemKey.order_lt_iff (a b : ItemKey) : a.order b = .lt ↔ a.Before b := by
  cases a <;> cases b <;> simp only [order]
  case type.type => exact (Text.order_lt_iff _ _).trans ⟨.type, fun h => by cases h <;> trivial⟩
  case completed.completed => exact (Text.order_lt_iff _ _).trans ⟨.completed, fun h => by cases h <;> trivial⟩
  case method.method => exact (MethodKey.order_lt_iff _ _).trans ⟨.method, fun h => by cases h <;> trivial⟩
  case constructor.constructor =>
    exact (ConstructorKey.order_lt_iff _ _).trans ⟨.constructor, fun h => by cases h <;> trivial⟩
  case field.field => exact (FieldKey.order_lt_iff _ _).trans ⟨.field, fun h => by cases h <;> trivial⟩
  case property.property => exact (PropertyKey.order_lt_iff _ _).trans ⟨.property, fun h => by cases h <;> trivial⟩
  all_goals exact Std.compare_eq_lt.trans ⟨.kind, fun h => by cases h; assumption⟩

/-- Symbols, type references and keys of every kind have lawful orders. -/
theorem orders_are_lawful :
    LawfulOrder Symbol.order Symbol.Before Symbol.Same ∧ LawfulOrder TypeKey.order TypeKey.Before Eq ∧
      LawfulOrder TypeRef.order TypeRef.Before Eq ∧ LawfulOrder MethodKey.order MethodKey.Before Eq ∧
      LawfulOrder ConstructorKey.order ConstructorKey.Before Eq ∧ LawfulOrder FieldKey.order FieldKey.Before Eq ∧
      LawfulOrder PropertyKey.order PropertyKey.Before Eq ∧ LawfulOrder ItemKey.order ItemKey.Before Eq ∧
      ∀ a b : Symbol, (a == b) = true ↔ a.Same b := by
  have : Std.TransCmp TypeKey.order := inferInstanceAs (Std.TransOrd TypeKey)
  have : Std.LawfulEqCmp TypeKey.order := inferInstanceAs (Std.LawfulEqOrd TypeKey)
  have : Std.TransCmp TypeRef.order := inferInstanceAs (Std.TransOrd TypeRef)
  have : Std.LawfulEqCmp TypeRef.order := inferInstanceAs (Std.LawfulEqOrd TypeRef)
  exact ⟨.of Symbol.order_lt_iff Symbol.order_eq_iff, .ofEq fun _ _ => Text.order_lt_iff _ _,
    .ofEq TypeRef.order_lt_iff, .ofEq MethodKey.order_lt_iff, .ofEq ConstructorKey.order_lt_iff,
    .ofEq FieldKey.order_lt_iff, .ofEq PropertyKey.order_lt_iff, .ofEq ItemKey.order_lt_iff,
    fun a b => (beq_iff_eq (a := a.order b)).trans (Symbol.order_eq_iff a b)⟩

end Stackwright
