import Stackwright.Proofs.Tidy
import Stackwright.Proofs.Meaning

/-
  Stackwright.Proofs.Usages — which variables an expression uses.

  Usages are read by asking whether a variable occurs with a usage that passes some test. Each way
  of joining usages has one equation, which holds for every test that joined usages pass when one of
  them does. Whether a variable occurs at all, and whether it is captured, are two such questions.
-/

namespace Stackwright

namespace Usages

variable {m a b : Usages} {x y : Symbol} {u : Usage} {test : Usage → Bool}

/-- The variable occurs, with a usage that passes the test. -/
def asks (m : Usages) (test : Usage → Bool) (x : Symbol) : Bool := m[x]?.any test

/-- Joined usages pass the test when one of them does. -/
def IsJoint (test : Usage → Bool) : Prop := ∀ a b : Usage, test (a.merge b) = (test a || test b)

theorem isJoint_true : IsJoint fun _ => true := fun _ _ => rfl

theorem isJoint_written : IsJoint (·.written) := fun _ _ => rfl

theorem isJoint_captured : IsJoint (·.captured) := fun _ _ => rfl

/-- The same question about an expression inside a lambda. -/
theorem IsJoint.inside (h : IsJoint test) : IsJoint fun u => test { u with captured := true } :=
  fun a b => h { a with captured := true } { b with captured := true }

theorem contains_eq (m : Usages) (x : Symbol) : m.contains x = m.asks (fun _ => true) x := by
  rw [Std.TreeMap.contains_eq_isSome_getElem?, asks]
  cases m[x]? <;> rfl

theorem isWritten_eq (m : Usages) (x : Symbol) : m.isWritten x = m.asks (·.written) x := rfl

theorem isCaptured_eq (m : Usages) (x : Symbol) : m.isCaptured x = m.asks (·.captured) x := rfl

theorem order_getKeyD (m : Usages) (y x : Symbol) : (m.getKeyD y y).order x = y.order x := by
  refine Std.TransCmp.congr_left ?_
  by_cases h : y ∈ m
  · have heq : m.getKey y h = m.getKeyD y y := Std.TreeMap.getKey_eq_getKeyD
    rw [← heq]
    exact Std.TreeMap.compare_getKey_self h
  · rw [Std.TreeMap.getKeyD_eq_fallback h]
    exact Std.ReflCmp.compare_self

theorem getElem?_congr {m : Usages} (h : x == y) : m[x]? = m[y]? :=
  Std.TreeMap.getElem?_congr (Symbol.beq_iff.mp h)

theorem asks_congr (h : x == y) : m.asks test x = m.asks test y := by
  rw [asks, asks, getElem?_congr h]

/-! ### Joining usages -/

theorem asks_add (htest : IsJoint test) : (m.add y u).asks test x = (m.asks test x || ((y == x) && test u)) := by
  rw [asks, asks, add, Std.TreeMap.getElem?_insert, order_getKeyD]
  by_cases h : (y == x) = true
  · rw [if_pos (Symbol.beq_iff.mp h), h, ← getElem?_congr h, Std.TreeMap.getD_eq_getD_getElem?, Option.any_some, htest]
    cases m[y]? with
    | some v => rfl
    | none =>
      have hnone := htest {} u
      have hmerge : Usage.merge {} u = u := by simp [Usage.merge]
      rw [hmerge] at hnone
      simpa using hnone.symm
  · rw [if_neg fun e => h (Symbol.beq_iff.mpr e)]
    simp [h]

theorem asks_foldl_add (htest : IsJoint test) (entries : List (Symbol × Usage)) (m : Usages) :
    (entries.foldl (fun m entry => m.add entry.1 entry.2) m).asks test x =
      (m.asks test x || entries.any fun entry => entry.1 == x && test entry.2) := by
  induction entries generalizing m with
  | nil => simp
  | cons entry entries ih => rw [List.foldl_cons, ih, asks_add htest, List.any_cons, Bool.or_assoc]

theorem any_toList (m : Usages) (test : Usage → Bool) (x : Symbol) :
    (m.toList.any fun entry => entry.1 == x && test entry.2) = m.asks test x := by
  rw [asks, Bool.eq_iff_iff, List.any_eq_true]
  constructor
  · rintro ⟨⟨y, u⟩, hmem, htest⟩
    obtain ⟨hyx, hu⟩ := Bool.and_eq_true_iff.mp htest
    rw [Std.TreeMap.mem_toList_iff_getKey?_eq_some_and_getElem?_eq_some] at hmem
    rw [← getElem?_congr hyx, hmem.2]
    exact hu
  · intro h
    cases hu : m[x]? with
    | none => simp [hu] at h
    | some u =>
      rw [hu] at h
      have hmem : x ∈ m := Std.TreeMap.mem_iff_isSome_getElem?.mpr (by rw [hu]; rfl)
      have hkey : (m.getKey x hmem == x) := Symbol.beq_iff.mpr (Std.TreeMap.compare_getKey_self hmem)
      refine ⟨(m.getKey x hmem, u), ?_, by simpa [hkey] using h⟩
      rw [Std.TreeMap.mem_toList_iff_getKey?_eq_some_and_getElem?_eq_some, getElem?_congr hkey]
      have hsome : m.getKey? x = some (m.getKey x hmem) := Std.TreeMap.getKey?_eq_some_getKey hmem
      rw [← hsome]
      exact ⟨Std.TreeMap.getKey?_congr (Symbol.beq_iff.mp hkey), hu⟩

theorem asks_union (htest : IsJoint test) : (a.union b).asks test x = (a.asks test x || b.asks test x) := by
  rw [union, asks_foldl_add htest, any_toList]

theorem asks_foldl_union (htest : IsJoint test) {α : Type} (of : α → Usages) (as : List α) (m : Usages) :
    (as.foldl (fun m a => m.union (of a)) m).asks test x = (m.asks test x || as.any fun a => (of a).asks test x) := by
  induction as generalizing m with
  | nil => simp
  | cons a as ih => rw [List.foldl_cons, ih, asks_union htest, List.any_cons, Bool.or_assoc]

theorem asks_erase : asks (m.erase y) test x = (!(y == x) && m.asks test x) := by
  rw [asks, asks, Std.TreeMap.getElem?_erase]
  by_cases h : (y == x) = true
  · rw [if_pos (Symbol.beq_iff.mp h)]
    simp [h]
  · rw [if_neg fun e => h (Symbol.beq_iff.mpr e)]
    simp [h]

theorem asks_without (m : Usages) (bound : List Symbol) :
    (m.without bound).asks test x = (!bound.contains x && m.asks test x) := by
  induction bound generalizing m with
  | nil => simp [without]
  | cons y bound ih =>
    show (Usages.without (m.erase y) bound).asks test x = _
    rw [ih, asks_erase, List.contains_cons, BEq.comm]
    grind

/-- Inside a lambda every usage is a captured one. -/
theorem asks_markCaptured : m.markCaptured.asks test x = m.asks (fun u => test { u with captured := true }) x := by
  rw [← any_toList, ← any_toList, markCaptured, Std.TreeMap.toList_map, List.any_map]
  rfl

/-! ### Occurring at all, and being captured -/

@[simp] theorem contains_add : (m.add y u).contains x = ((y == x) || m.contains x) := by
  rw [contains_eq, contains_eq, asks_add isJoint_true, Bool.and_true, Bool.or_comm]

@[simp] theorem contains_union : (a.union b).contains x = (a.contains x || b.contains x) := by
  simp only [contains_eq, asks_union isJoint_true]

@[simp] theorem contains_without (m : Usages) (bound : List Symbol) :
    (m.without bound).contains x = (!bound.contains x && m.contains x) := by
  rw [contains_eq, contains_eq, asks_without]

@[simp] theorem isCaptured_empty : isCaptured ∅ x = false := rfl

@[simp] theorem isCaptured_add : (m.add y u).isCaptured x = (m.isCaptured x || ((y == x) && u.captured)) :=
    asks_add isJoint_captured

@[simp] theorem isCaptured_union : (a.union b).isCaptured x = (a.isCaptured x || b.isCaptured x) :=
    asks_union isJoint_captured

@[simp] theorem isCaptured_without (m : Usages) (bound : List Symbol) :
    (m.without bound).isCaptured x = (!bound.contains x && m.isCaptured x) := asks_without m bound

@[simp] theorem isCaptured_markCaptured : m.markCaptured.isCaptured x = m.contains x := by
  rw [isCaptured_eq, asks_markCaptured, contains_eq]

theorem isCaptured_foldl_union {α : Type} (of : α → Usages) (as : List α) (m : Usages) :
    (as.foldl (fun m a => m.union (of a)) m).isCaptured x = (m.isCaptured x || as.any fun a => (of a).isCaptured x) :=
  asks_foldl_union isJoint_captured of as m

end Usages

/-! ## Expressions without lambdas -/

namespace Expr

mutual
/-- Without a lambda nothing is captured. -/
theorem usages_of_isPlain : ∀ (e : Expr) (x : Symbol), e.isPlain → e.usages.isCaptured x = false
  | .literal _, x, _ => rfl
  | .var y, x, _ => by simp [usages]
  | .assign y e, x, h => by simp [usages, usages_of_isPlain e x h]
  | .seq es, x, h | .and es, x, h | .or es, x, h => by simp [usages, usagesAll_of_isPlain es x h]
  | .ite c t f, x, h => by
    simp only [isPlain, Bool.and_eq_true] at h
    simp [usages, usages_of_isPlain c x h.1.1, usages_of_isPlain t x h.1.2, usages_of_isPlain f x h.2]
  | .switch value cases fallback, x, h => by
    simp only [isPlain, Bool.and_eq_true] at h
    simp [usages, usages_of_isPlain value x h.1.1, usagesCases_of_isPlain cases x h.1.2,
      usages_of_isPlain fallback x h.2]
  | .letIn bs body, x, h => by
    simp only [isPlain, Bool.and_eq_true] at h
    simp [usages, usagesBindings_of_isPlain bs x h.1, usages_of_isPlain body x h.2]
  | .binary _ l r, x, h => by
    simp only [isPlain, Bool.and_eq_true] at h
    simp [usages, usages_of_isPlain l x h.1, usages_of_isPlain r x h.2]
  | .unary _ e, x, h => by
    simp only [isPlain, Bool.and_eq_true] at h
    simp [usages, usages_of_isPlain e x h.2]
  | .lambda .., _, h | .invoke .., _, h | .getField .., _, h | .getStatic .., _, h | .setField .., _, h
  | .setStatic .., _, h | .new .., _, h | .call .., _, h | .callStatic .., _, h => by cases h

theorem usagesAll_of_isPlain : ∀ (es : List Expr) (x : Symbol), allPlain es →
    ∀ {m : Usages}, (usagesAll es m).isCaptured x = m.isCaptured x
  | [], _, _, _ => rfl
  | e :: es, x, h, m => by
    simp only [allPlain, Bool.and_eq_true] at h
    simp [usagesAll, usagesAll_of_isPlain es x h.2, usages_of_isPlain e x h.1]

theorem usagesCases_of_isPlain : ∀ (cs : List (CaseValues × Expr)) (x : Symbol), casesPlain cs →
    ∀ {m : Usages}, (usagesCases cs m).isCaptured x = m.isCaptured x
  | [], _, _, _ => rfl
  | (_, e) :: cs, x, h, m => by
    simp only [casesPlain, Bool.and_eq_true] at h
    simp [usagesCases, usagesCases_of_isPlain cs x h.2, usages_of_isPlain e x h.1]

theorem usagesBindings_of_isPlain : ∀ (bs : List (Symbol × Expr)) (x : Symbol), bindingsPlain bs →
    ∀ {m : Usages}, (usagesBindings bs m).isCaptured x = m.isCaptured x
  | [], _, _, _ => rfl
  | (_, e) :: bs, x, h, m => by
    simp only [bindingsPlain, Bool.and_eq_true] at h
    simp [usagesBindings, usagesBindings_of_isPlain bs x h.2, usages_of_isPlain e x h.1]
end

end Expr

end Stackwright
