import Stackwright.Text.Order
import Stackwright.Types.Ref

/-
  Stackwright.Types.Order — the order of type references.

  References are ordered by kind (deferred, primitive, named, cell, delegate), then by
  content, so that sets and maps of them come out the same in every build. The order is
  total, transitive, and says `eq` of equal references only; equality of references is
  decided through it.
-/

namespace Stackwright

namespace TypeKey

def order (a b : TypeKey) : Ordering := Text.order a.name b.name

instance : Ord TypeKey := ⟨order⟩

instance : Std.TransOrd TypeKey where
  eq_swap {_ _} := @Std.OrientedCmp.eq_swap _ Text.order _ _ _
  isLE_trans {_ _ _} := @Std.TransCmp.isLE_trans _ Text.order _ _ _ _

instance : Std.LawfulEqOrd TypeKey where
  compare_self {_} := @Std.ReflCmp.compare_self _ Text.order _ _
  eq_of_compare {a b} h := by
    cases a; cases b
    exact congrArg TypeKey.mk (@Std.LawfulEqCmp.eq_of_compare _ Text.order _ _ _ h)

end TypeKey

namespace TypeRef

def rank : TypeRef → Nat
  | .deferred _ => 0
  | .primitive _ => 1
  | .named _ => 2
  | .cell _ => 3
  | .delegate _ _ => 4

mutual
def order : TypeRef → TypeRef → Ordering
  | .deferred a, .deferred b => a.order b
  | .primitive p, .primitive q => compare p.rank q.rank
  | .named a, .named b => Text.order a b
  | .cell a, .cell b => order a b
  | .delegate ps r, .delegate qs s => (orderAll ps qs).then (order r s)
  | a, b => compare a.rank b.rank

def orderAll : List TypeRef → List TypeRef → Ordering
  | [], [] => .eq
  | [], _ :: _ => .lt
  | _ :: _, [] => .gt
  | a :: as, b :: bs => (order a b).then (orderAll as bs)
end

instance : Ord TypeRef := ⟨order⟩

mutual
theorem order_swap (a b : TypeRef) : order a b = (order b a).swap := by
  cases a <;> cases b <;> simp only [order]
  case deferred.deferred => exact @Std.OrientedCmp.eq_swap _ Text.order _ _ _
  case primitive.primitive => exact Std.OrientedOrd.eq_swap
  case named.named => exact Std.OrientedCmp.eq_swap
  case cell.cell => exact order_swap _ _
  case delegate.delegate ps r qs s => rw [orderAll_swap ps qs, order_swap r s, Ordering.swap_then]
  all_goals rfl

theorem orderAll_swap (as bs : List TypeRef) : orderAll as bs = (orderAll bs as).swap := by
  cases as <;> cases bs <;> simp only [orderAll]
  case cons.cons a as b bs => rw [order_swap a b, orderAll_swap as bs, Ordering.swap_then]
  all_goals rfl
end

mutual
theorem eq_of_order : ∀ {a b : TypeRef}, order a b = .eq → a = b
  | .deferred a, .deferred b, h => by
    simp only [order] at h
    exact congrArg _ (Std.LawfulEqOrd.eq_of_compare h)
  | .primitive p, .primitive q, h => by
    simp only [order] at h
    exact congrArg _ (Primitive.rank_injective (Std.LawfulEqOrd.eq_of_compare h))
  | .named a, .named b, h => by
    simp only [order] at h
    exact congrArg _ (Std.LawfulEqCmp.eq_of_compare h)
  | .cell a, .cell b, h => by
    simp only [order] at h
    exact congrArg _ (eq_of_order h)
  | .delegate ps r, .delegate qs s, h => by
    simp only [order, Ordering.then_eq_eq] at h
    rw [eq_of_orderAll h.1, eq_of_order h.2]

theorem eq_of_orderAll : ∀ {as bs : List TypeRef}, orderAll as bs = .eq → as = bs
  | [], [], _ => rfl
  | a :: as, b :: bs, h => by
    simp only [orderAll, Ordering.then_eq_eq] at h
    rw [eq_of_order h.1, eq_of_orderAll h.2]
end

mutual
theorem order_self : ∀ a : TypeRef, order a a = .eq
  | .deferred a => by simp only [order]; exact Std.ReflOrd.compare_self
  | .primitive p => by simp only [order]; exact Std.ReflOrd.compare_self
  | .named a => by simp only [order]; exact Std.ReflCmp.compare_self
  | .cell a => by simp only [order]; exact order_self a
  | .delegate ps r => by simp [order, orderAll_self ps, order_self r]

theorem orderAll_self : ∀ as : List TypeRef, orderAll as as = .eq
  | [] => rfl
  | a :: as => by simp [orderAll, order_self a, orderAll_self as]
end

/-- Comparing first parts, then second parts, keeps "at most" transitive. -/
theorem isLE_then_trans {α : Type} {cmp : α → α → Ordering} {a b c : α} {x y z : Ordering}
    (swap : ∀ a b, cmp a b = (cmp b a).swap) (eq : ∀ {a b}, cmp a b = .eq → a = b)
    (first : (cmp a b).isLE → (cmp b c).isLE → (cmp a c).isLE)
    (second : x.isLE → y.isLE → z.isLE)
    (hab : ((cmp a b).then x).isLE) (hbc : ((cmp b c).then y).isLE) :
    ((cmp a c).then z).isLE := by
  cases h₁ : cmp a b with
  | gt => simp [h₁] at hab
  | eq =>
    cases eq h₁
    cases h₂ : cmp a c with
    | gt => simp [h₂] at hbc
    | lt => simp
    | eq =>
      simp only [h₁, h₂, Ordering.then] at hab hbc ⊢
      exact second hab hbc
  | lt =>
    cases h₂ : cmp b c with
    | gt => simp [h₂] at hbc
    | eq =>
      cases eq h₂
      simp [h₁]
    | lt =>
      cases h₃ : cmp a c with
      | lt => simp
      | gt => simp [h₁, h₂, h₃] at first
      | eq =>
        cases eq h₃
        have := swap a b
        simp [h₁, h₂] at this

mutual
theorem order_isLE_trans (a b c : TypeRef) (hab : (order a b).isLE) (hbc : (order b c).isLE) :
    (order a c).isLE := by
  cases a <;> cases b <;> cases c <;> simp only [order] at hab hbc ⊢
  case deferred.deferred.deferred =>
    exact @Std.TransCmp.isLE_trans _ Text.order _ _ _ _ hab hbc
  case primitive.primitive.primitive => exact Std.TransOrd.isLE_trans hab hbc
  case named.named.named => exact Std.TransCmp.isLE_trans hab hbc
  case cell.cell.cell => exact order_isLE_trans _ _ _ hab hbc
  case delegate.delegate.delegate =>
    exact isLE_then_trans orderAll_swap eq_of_orderAll (orderAll_isLE_trans _ _ _)
      (order_isLE_trans _ _ _) hab hbc
  all_goals first | rfl | contradiction

theorem orderAll_isLE_trans (as bs cs : List TypeRef) (hab : (orderAll as bs).isLE)
    (hbc : (orderAll bs cs).isLE) : (orderAll as cs).isLE := by
  cases as <;> cases bs <;> cases cs <;> simp only [orderAll] at hab hbc ⊢
  case cons.cons.cons =>
    exact isLE_then_trans order_swap eq_of_order (order_isLE_trans _ _ _)
      (orderAll_isLE_trans _ _ _) hab hbc
  all_goals first | rfl | contradiction
end

instance : Std.TransOrd TypeRef where
  eq_swap {a b} := order_swap a b
  isLE_trans {a b c} := order_isLE_trans a b c

instance : Std.LawfulEqOrd TypeRef where
  compare_self {a} := order_self a
  eq_of_compare {_ _} := eq_of_order

instance : DecidableEq TypeRef := fun _ _ =>
  decidable_of_iff _ Std.LawfulEqOrd.compare_eq_iff_eq

end TypeRef

end Stackwright
