import Stackwright.Proofs.Effects
import Stackwright.Module.Build

/-
  Stackwright.Proofs.Orderly — errors that a module can have.

  Some errors say that the library broke its own rules: a slot read too early or written twice,
  a label without a place, a step that did not keep its word. An answer is orderly when it is
  none of them.
-/

namespace Stackwright

/-- Errors that say that the library or the target broke the rules, not the module. -/
def BuildError.isInternal : BuildError → Bool
  | .label _ _ | .uninitialized _ | .singleAssignment _ | .backend _ => true
  | .structural (.missingSlot _) | .structural (.unproduced _ _) => true
  | .structural (.localTwice _) | .structural (.localUndeclared _) => true
  | .structural (.labelOutsideRegion _) => true
  | _ => false

/-- An answer that is no internal error. -/
def Orderly {α : Type} (x : Except BuildError α) : Prop := ∀ e, x = .error e → e.isInternal = false

namespace Orderly

variable {α β : Type}

theorem ok (a : α) : Orderly (.ok a) := by
  intro e h
  cases h

theorem error {e : BuildError} (he : e.isInternal = false) : Orderly (.error e : Except BuildError α) := by
  intro e' h
  cases h
  exact he

theorem bind {x : Except BuildError α} {f : α → Except BuildError β} (hx : Orderly x) (hf : ∀ a, Orderly (f a)) :
    Orderly (x >>= f) := by
  intro e h
  rcases except_bind_error.mp h with h | ⟨a, -, h⟩
  · exact hx e h
  · exact hf a e h

theorem ite {c : Prop} [Decidable c] {x y : Except BuildError α} (hx : Orderly x) (hy : Orderly y) :
    Orderly (if c then x else y) := by
  split <;> assumption

theorem type (f : TypeFault) (within : Option Expr) : Orderly (.error (.type f within) : Except BuildError α) :=
  error rfl

theorem fault (whole : Expr) (f : TypeFault) : Orderly (Expr.fault whole f : Except BuildError α) := type f whole

theorem foldlM {f : β → α → Except BuildError β} (hf : ∀ b a, Orderly (f b a)) :
    ∀ (as : List α) (b : β), Orderly (as.foldlM f b)
  | [], b => ok b
  | a :: as, b => by
    rw [List.foldlM_cons]
    exact (hf b a).bind (foldlM hf as)

theorem mapM {f : α → Except BuildError β} (hf : ∀ a, Orderly (f a)) : ∀ as : List α, Orderly (as.mapM f)
  | [] => ok []
  | a :: as => by
    rw [List.mapM_cons]
    exact (hf a).bind fun _ => (mapM hf as).bind fun _ => .ok _

end Orderly

namespace Effect

variable {σ τ α β : Type}

/-- Work that never ends with an internal error. -/
def Orderly (x : Effect σ α) : Prop := ∀ s, Stackwright.Orderly (x.exec s).1

namespace Orderly

theorem pure (a : α) : Orderly (pure a : Effect σ α) := fun _ => .ok a

theorem lift {x : Except BuildError α} (hx : Stackwright.Orderly x) : Orderly (liftM x : Effect σ α) := fun _ => hx

theorem bind {x : Effect σ α} {f : α → Effect σ β} (hx : x.Orderly) (hf : ∀ a, (f a).Orderly) : (x >>= f).Orderly := by
  intro s e h
  rcases hb : (x >>= f).exec s with ⟨r, u⟩
  rw [hb] at h
  obtain rfl : r = .error e := h
  rcases exec_bind_error.mp hb with hx' | ⟨a, t, -, hf'⟩
  · exact hx s e (by rw [hx'])
  · exact hf a t e (by rw [hf'])

end Orderly

end Effect

/-! ## Lookups -/

theorem MethodRef.info_orderly (m : MethodRef) (t : Table) : Orderly (m.info t) := by
  cases m with
  | existing => exact .ok _
  | deferred key =>
    simp only [info]
    split
    · exact .type _ _
    · exact .ok _

theorem FieldRef.info_orderly (f : FieldRef) (t : Table) : Orderly (f.info t) := by
  cases f with
  | existing => exact .ok _
  | deferred key =>
    simp only [info]
    split
    · exact .type _ _
    · exact .ok _

theorem ConstructorRef.checkDeclared_orderly (c : ConstructorRef) (t : Table) : Orderly (c.checkDeclared t) := by
  cases c with
  | existing => exact .ok _
  | deferred key =>
    simp only [checkDeclared]
    split
    · exact .type _ _
    · exact .ok _

theorem Scope.storage_orderly (scope : Scope) (x : Symbol) (whole : Expr) : Orderly (scope.storage x whole) := by
  unfold storage
  split
  · exact .ok _
  · exact .fault _ _

theorem checkDispatch_orderly (options : BuildOptions) (cases : List CaseValues) :
    Orderly (checkDispatch options cases) := by
  unfold checkDispatch
  split
  · exact Orderly.error rfl
  · exact .ite (.error rfl) (.ok _)

theorem captureCells_orderly (scope : Scope) (whole : Expr) : ∀ names :
    List Symbol, Orderly (captureCells scope whole names)
  | [] => .ok _
  | x :: names => by
    have hbox (storage : Storage) : Orderly storage.fetchBox := .ite (.ok _) (.error rfl)
    rw [captureCells]
    exact (scope.storage_orderly x whole).bind fun storage => (hbox storage).bind fun _ =>
      (captureCells_orderly scope whole names).bind fun _ => .ok _

end Stackwright
