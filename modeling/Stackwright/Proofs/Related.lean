import Mathlib.Data.List.Forall2

/-
  Stackwright.Proofs.Related — lists whose members are related one by one.
-/

namespace Stackwright

variable {α β γ : Type} {R : α → β → Prop} {as : List α} {bs : List β}

theorem exists_of_forall₂_left (h : List.Forall₂ R as bs) {a : α} (ha : a ∈ as) : ∃ b ∈ bs, R a b := by
  induction h with
  | nil => cases ha
  | cons hr _ ih =>
    rcases List.mem_cons.mp ha with rfl | ha
    · exact ⟨_, List.mem_cons_self, hr⟩
    · obtain ⟨b, hb, hr⟩ := ih ha
      exact ⟨b, List.mem_cons_of_mem _ hb, hr⟩

theorem exists_of_forall₂_right (h : List.Forall₂ R as bs) {b : β} (hb : b ∈ bs) : ∃ a ∈ as, R a b :=
  exists_of_forall₂_left h.flip hb

theorem forall₂_comp {S : β → γ → Prop} {cs : List γ} (hab : List.Forall₂ R as bs) (hbc : List.Forall₂ S bs cs) :
    List.Forall₂ (fun a c => ∃ b ∈ bs, R a b ∧ S b c) as cs := by
  induction hab generalizing cs with
  | nil =>
    cases hbc
    exact .nil
  | cons hfirst _ ih =>
    cases hbc with
    | cons hsecond hrest =>
      refine .cons ⟨_, List.mem_cons_self, hfirst, hsecond⟩ ((ih hrest).imp fun a c hac => ?_)
      obtain ⟨b, hb, hac⟩ := hac
      exact ⟨b, List.mem_cons_of_mem _ hb, hac⟩

theorem forall₂_trans {R : α → α → Prop} (hR : ∀ {a b c}, R a b → R b c → R a c) {as bs cs : List α}
    (hab : List.Forall₂ R as bs) (hbc : List.Forall₂ R bs cs) : List.Forall₂ R as cs := by
  refine (forall₂_comp hab hbc).imp fun a c hac => ?_
  obtain ⟨b, -, hab, hbc⟩ := hac
  exact hR hab hbc

theorem map_eq_of_forall₂ {f : α → γ} {g : β → γ} (h : List.Forall₂ R as bs) (hfg : ∀ a b, R a b → f a = g b) :
    as.map f = bs.map g := by
  induction h with
  | nil => rfl
  | cons hab _ ih => rw [List.map_cons, List.map_cons, hfg _ _ hab, ih]

theorem forall₂_pairwise {S : α → α → Prop} {S' : β → β → Prop} (h : List.Forall₂ R as bs) (hS : as.Pairwise S)
    (hS' : ∀ a ∈ as, ∀ a' ∈ as, S a a' → ∀ b b', R a b → R a' b' → S' b b') : bs.Pairwise S' := by
  induction h with
  | nil => exact .nil
  | @cons a b as bs hab hrest ih =>
    rw [List.pairwise_cons] at hS ⊢
    refine ⟨fun b' hb' => ?_, ih hS.2 fun a ha a' ha' => hS' a (List.mem_cons_of_mem _ ha) a'
      (List.mem_cons_of_mem _ ha')⟩
    obtain ⟨a', ha', hab'⟩ := exists_of_forall₂_right hrest hb'
    exact hS' a List.mem_cons_self a' (List.mem_cons_of_mem _ ha') (hS.1 a' ha') b b' hab hab'

theorem last_of_forall₂ {R : α → α → Prop} {as bs : List α} {x y : α} (h : List.Forall₂ R (as ++ [x]) (bs ++ [y])) :
    R x y := by
  rw [← List.forall₂_reverse_iff, List.reverse_append, List.reverse_append] at h
  cases h with
  | cons hxy _ => exact hxy

end Stackwright
