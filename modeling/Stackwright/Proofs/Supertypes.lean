import Mathlib.Algebra.BigOperators.Ring.Finset
import Mathlib.Algebra.Order.BigOperators.Group.Finset
import Mathlib.Logic.Relation
import Stackwright.Types.Hierarchy

/-
  Stackwright.Proofs.Supertypes — the search along supertypes finds all of them.

  The search has enough fuel: a type is expanded once, and the types that it ever comes to are those
  written in the table and those above them, or above the first one, in the metadata.
  - `isAssignable_trans`: what may stand for a type may stand for all that the type may stand for.
-/

namespace Stackwright

variable {goal : TypeRef}

theorem Table.get?_of_type? {t : Table} {key : TypeKey} {decl : TypeDeclaration} (h : t.type? key = some decl) :
    t.get? (.type key) = some (.type decl) := by
  unfold Table.type? at h
  split at h
  · rename_i hget
    rw [hget, Option.some.inj h]
  · exact absurd h (by simp)

namespace Hierarchy

variable {h : Hierarchy}

/-- A chain of direct supertypes leads from one type to another. -/
def Derives (h : Hierarchy) : TypeRef → TypeRef → Prop := Relation.ReflTransGen fun t u => u ∈ h.supertypes t

/-! ## The search without a bound -/

/-- Types are taken from the queue until the goal comes up or none is left. A type that was not seen before adds its
    supertypes to the queue. -/
inductive Searches (h : Hierarchy) (goal : TypeRef) : List TypeRef → List TypeRef → Bool → Prop
  | empty {seen} : Searches h goal seen [] false
  | again {seen t queue answer} : t ∈ seen → Searches h goal seen queue answer →
    Searches h goal seen (t :: queue) answer
  | found {seen queue} : goal ∉ seen → Searches h goal seen (goal :: queue) true
  | further {seen t queue answer} : t ∉ seen → t ≠ goal → Searches h goal (t :: seen) (queue ++ h.supertypes t) answer →
    Searches h goal seen (t :: queue) answer

/-- A search that ends has found the goal exactly when a chain leads to it. What it has seen is closed under
    supertypes, up to the types that are still queued. -/
theorem Searches.answer_iff {seen queue : List TypeRef} {answer : Bool} (hs : h.Searches goal seen queue answer)
    (hseen : ∀ t ∈ seen, t ≠ goal ∧ ∀ u ∈ h.supertypes t, u ∈ seen ∨ u ∈ queue) :
    answer ↔ ∃ t, (t ∈ seen ∨ t ∈ queue) ∧ h.Derives t goal := by
  induction hs with
  | @empty seen =>
    refine ⟨fun hfalse => Bool.noConfusion hfalse, ?_⟩
    rintro ⟨t, ht, hder⟩
    simp only [List.not_mem_nil, or_false] at hseen ht
    have hclosed {u : TypeRef} (hu : h.Derives t u) : u ∈ seen := by
      induction hu with
      | refl => exact ht
      | tail _ hstep ih => exact (hseen _ ih).2 _ hstep
    exact absurd rfl (hseen _ (hclosed hder)).1
  | @again seen t queue answer hold _ ih =>
    -- already seen, so nothing is lost when it leaves the queue
    have hdrop (u : TypeRef) : u ∈ seen ∨ u ∈ t :: queue ↔ u ∈ seen ∨ u ∈ queue := by
      rw [List.mem_cons]
      exact ⟨by rintro (hu | rfl | hu) <;> tauto, by tauto⟩
    simp only [hdrop] at hseen ⊢
    exact ih hseen
  | @found seen queue _ => exact ⟨fun _ => ⟨goal, .inr List.mem_cons_self, .refl⟩, fun _ => rfl⟩
  | @further seen t queue answer _ hne _ ih =>
    have hkeep (u : TypeRef) : u ∈ seen ∨ u ∈ t :: queue → u ∈ t :: seen ∨ u ∈ queue ++ h.supertypes t := by
      simp only [List.mem_cons, List.mem_append]
      tauto
    rw [ih (List.forall_mem_cons.mpr ⟨⟨hne, fun w hw => .inr (List.mem_append_right _ hw)⟩,
      fun v hv => ⟨(hseen v hv).1, fun w hw => hkeep w ((hseen v hv).2 w hw)⟩⟩)]
    refine ⟨?_, fun hfound => hfound.imp fun u hu => ⟨hkeep u hu.1, hu.2⟩⟩
    rintro ⟨u, hu, hder⟩
    by_cases hup : u ∈ h.supertypes t
    · exact ⟨t, .inr List.mem_cons_self, .head hup hder⟩
    · refine ⟨u, ?_, hder⟩
      simp only [List.mem_cons, List.mem_append] at hu ⊢
      tauto

/-- What the search may still take from its queue: what is queued, and what the types not yet seen would add. -/
def pending (h : Hierarchy) (all : Finset TypeRef) (seen queue : List TypeRef) : Nat :=
  queue.length + ∑ t ∈ all \ seen.toFinset, (h.supertypes t).length

theorem pending_expand {all : Finset TypeRef} {seen queue : List TypeRef} {t : TypeRef} (ht : t ∈ all)
    (hseen : t ∉ seen) :
    h.pending all seen (t :: queue) = h.pending all (t :: seen) (queue ++ h.supertypes t) + 1 := by
  have hmem : t ∈ all \ seen.toFinset := by simp [ht, hseen]
  have hrest : all \ (t :: seen).toFinset = (all \ seen.toFinset).erase t := by
    ext u
    simp only [List.toFinset_cons, Finset.mem_sdiff, Finset.mem_insert, Finset.mem_erase]
    tauto
  have hsum := Finset.add_sum_erase _ (fun u => (h.supertypes u).length) hmem
  simp only [pending, hrest, List.length_cons, List.length_append]
  omega

/-- With enough fuel the bound is never met. -/
theorem searches_search {all : Finset TypeRef} (hall : ∀ t ∈ all, ∀ u ∈ h.supertypes t, u ∈ all) :
    ∀ {fuel : Nat} {seen queue : List TypeRef}, h.pending all seen queue < fuel → (∀ t ∈ queue, t ∈ all) →
      h.Searches goal seen queue (h.search goal fuel seen queue)
  | 0, _, _, hfuel, _ => by omega
  | _ + 1, _, [], _, _ => .empty
  | fuel + 1, seen, t :: queue, hfuel, hqueue => by
    obtain ⟨ht, hqueue⟩ := List.forall_mem_cons.mp hqueue
    rw [search]
    split
    · rename_i hold
      refine .again (List.contains_iff_mem.mp hold) (searches_search hall ?_ hqueue)
      simp only [pending, List.length_cons] at hfuel ⊢
      omega
    · rename_i hnew
      rw [List.contains_iff_mem] at hnew
      by_cases hgoal : t = goal
      · subst hgoal
        simpa using Searches.found hnew
      rw [beq_false_of_ne hgoal, Bool.false_or]
      rw [pending_expand ht hnew] at hfuel
      refine .further hnew hgoal (searches_search hall (by omega) fun u hu => ?_)
      exact (List.mem_append.mp hu).elim (hqueue u) (hall t ht u)

/-! ## The fuel suffices -/

theorem mem_comesTo {start t : TypeRef} :
    t ∈ h.comesTo start ↔ ∃ w, (w = start ∨ w ∈ h.written) ∧ (t = w ∨ t ∈ h.catalog.above w) := by
  simp [comesTo, or_assoc]

theorem mem_written {key : TypeKey} {u : TypeRef} (hu : u ∈ h.supertypes (.deferred key)) : u ∈ h.written := by
  cases hdecl : h.table.type? key with
  | none => simp [supertypes, base?, interfaces, hdecl] at hu
  | some decl =>
    have hget := Std.TreeMap.mem_toList_iff_getElem?_eq_some.mpr (Table.get?_of_type? hdecl)
    refine List.mem_flatMap.mpr ⟨_, hget, ?_⟩
    grind [supertypes, base?, interfaces]

/-- Declared types lead to what the table writes down, the others to what is above them. -/
theorem comesTo_closed {start t u : TypeRef} (ht : t ∈ h.comesTo start) (hu : u ∈ h.supertypes t) :
    u ∈ h.comesTo start := by
  have habove (ht : ∀ key, t ≠ .deferred key) : u ∈ (h.catalog.base? t).toList ++ h.catalog.interfaces t := by
    cases t with
    | deferred key => exact absurd rfl (ht key)
    | _ => exact hu
  obtain ⟨w, hw, ht⟩ := mem_comesTo.mp ht
  by_cases hdeclared : ∃ key, t = .deferred key
  · obtain ⟨key, rfl⟩ := hdeclared
    exact mem_comesTo.mpr ⟨u, .inr (mem_written hu), .inl rfl⟩
  · have hsuper := habove fun key hkey => hdeclared ⟨key, hkey⟩
    refine mem_comesTo.mpr ⟨w, hw, .inr ?_⟩
    rcases ht with rfl | ht
    · exact h.catalog.direct _ u hsuper
    · exact h.catalog.onward w t ht u hsuper

theorem sum_toFinset_le (types : List TypeRef) :
    ∑ t ∈ types.toFinset, (h.supertypes t).length ≤ (types.flatMap h.supertypes).length := by
  induction types with
  | nil => simp
  | cons t types ih =>
    rw [List.toFinset_cons, List.flatMap_cons, List.length_append]
    by_cases ht : t ∈ types.toFinset
    · rw [Finset.insert_eq_of_mem ht]
      omega
    · rw [Finset.sum_insert ht]
      omega

/-- The bounded search gives the answer of the search without a bound. -/
theorem searches_reaches (start goal : TypeRef) : h.Searches goal [] [start] (h.reaches start goal) := by
  have hstart : start ∈ h.comesTo start := mem_comesTo.mpr ⟨start, .inl rfl, .inl rfl⟩
  refine @searches_search goal h (h.comesTo start).toFinset ?_ _ _ _ ?_ (by simpa using hstart)
  · intro t ht u hu
    exact List.mem_toFinset.mpr (comesTo_closed (List.mem_toFinset.mp ht) hu)
  · have hsum := sum_toFinset_le (h := h) (h.comesTo start)
    simp only [pending, List.toFinset_nil, Finset.sdiff_empty, List.length_singleton]
    omega

/-- The search finds exactly the supertypes of a type. -/
theorem reaches_iff {start : TypeRef} : h.reaches start goal ↔ h.Derives start goal := by
  rw [(searches_reaches start goal).answer_iff (by simp)]
  simp

/-! ## Standing for another type -/

theorem isAssignable_iff {source target : TypeRef} : h.isAssignable source target ↔
    source = target ∨
      h.isReference source ∧ h.isReference target ∧ (target = .object ∨ h.Derives source target) := by
  simp only [isAssignable, Bool.or_eq_true, Bool.and_eq_true, beq_iff_eq, reaches_iff, and_assoc]

/-- Where nothing is above `object`, nothing but itself is derived from. -/
theorem eq_object_of_derives (hobject : h.supertypes .object = []) {t : TypeRef} (ht : h.Derives .object t) :
    t = .object := by
  induction ht with
  | refl => rfl
  | tail _ hstep ih =>
    rw [ih, hobject] at hstep
    exact absurd hstep (List.not_mem_nil)

theorem isAssignable_refl (t : TypeRef) : h.isAssignable t t := isAssignable_iff.mpr (.inl rfl)

theorem isAssignable_trans (hobject : h.supertypes .object = []) {t u v : TypeRef} (htu : h.isAssignable t u)
    (huv : h.isAssignable u v) : h.isAssignable t v := by
  rw [isAssignable_iff] at htu huv ⊢
  rcases htu with rfl | ⟨ht, hu, htu⟩
  · exact huv
  rcases huv with rfl | ⟨-, hv, huv⟩
  · exact .inr ⟨ht, hu, htu⟩
  refine .inr ⟨ht, hv, ?_⟩
  rcases huv with rfl | huv
  · exact .inl rfl
  rcases htu with rfl | htu
  · exact .inl (eq_object_of_derives hobject huv)
  · exact .inr (htu.trans huv)

/-- The search that decides what may stand for what always ends, whatever is declared and however it refers to itself.
    One type may stand for another exactly when they are equal, or both are references and the other is `object` or
    above the first. Nothing but itself stands for a value type or for `void`, and they stand for nothing else. -/
theorem assignability_is_reachability (table : Table) (catalog : Catalog) :
    let h : Hierarchy := { table, catalog }
    (∀ source target, h.Searches target [] [source] (h.reaches source target)) ∧
    (∀ source target, h.isAssignable source target = true ↔ source = target ∨
      h.isReference source = true ∧ h.isReference target = true ∧ (target = .object ∨ h.Derives source target)) ∧
    (∀ t, h.isAssignable t t = true) ∧
    (∀ t u v, h.isAssignable t u = true → h.isAssignable u v = true → h.isAssignable t v = true) ∧
    ∀ t u, h.isValueType t = true ∨ t = .void → h.isAssignable t u = true ∨ h.isAssignable u t = true → t = u := by
  intro h
  refine ⟨searches_reaches, fun _ _ => isAssignable_iff, isAssignable_refl, fun _ _ _ => isAssignable_trans rfl, ?_⟩
  intro t u ht hassign
  have hreference : h.isReference t = false := by
    rcases ht with ht | rfl
    · simp [isReference, ht]
    · rfl
  rcases hassign with hassign | hassign <;> rcases isAssignable_iff.mp hassign with heq | ⟨hfirst, hsecond, -⟩
  · exact heq
  · exact Bool.noConfusion (hfirst.symm.trans hreference)
  · exact heq.symm
  · exact Bool.noConfusion (hsecond.symm.trans hreference)

end Hierarchy

end Stackwright
