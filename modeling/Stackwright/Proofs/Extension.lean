import Stackwright.Proofs.ClosureAgreement
import Stackwright.Proofs.SupplyIndependence

/-
  Stackwright.Proofs.Extension — more declarations do not change what was built.

  Typing keeps its answer when plain classes are declared. So does all that asks for types:
  collecting closures, lowering expressions and making the steps of a definition give what they
  gave before. Work that failed may succeed, so the comparison goes one way.

  - `TypeDefinition.closures_extend`: the closures of a definition.
-/

namespace Stackwright

theorem mapM_ok_congr {α β : Type} {f g : α → Except BuildError β} (hfg : ∀ a b, f a = .ok b → g a = .ok b) :
    ∀ {as : List α} {bs : List β}, as.mapM f = .ok bs → as.mapM g = .ok bs
  | [], bs, h => h
  | a :: as, bs, h => by
    rw [List.mapM_cons] at h ⊢
    obtain ⟨b, hb, h⟩ := except_bind_ok.mp h
    obtain ⟨rest, hrest, h⟩ := except_bind_ok.mp h
    exact except_bind_ok.mpr ⟨b, hfg a b hb, except_bind_ok.mpr ⟨rest, mapM_ok_congr hfg hrest, h⟩⟩

section Definitions

variable {small large : Hierarchy} (hext : small.Extends large)

include hext

theorem Member.closures_extend {m : Member} {layouts : List ClosureLayout} (h : m.closures small = .ok layouts) :
    m.closures large = .ok layouts := by
  have hexpr (body : Body) {e : Expr} {found : List ClosureLayout} (he : e.closures (body.typeEnv small) = .ok found) :
      e.closures (body.typeEnv large) = .ok found := by
    rw [body.typeEnv_eq large small]
    exact Expr.closures_extend (by rwa [body.typeEnv_hierarchy]) he
  cases m with
  | field f | property p => exact h
  | method m =>
    obtain ⟨name, attributes, returnType, body⟩ := m
    cases body with
    | code | abstract => exact h
    | expr body => exact hexpr body h
  | constructor c =>
    obtain ⟨attributes, body⟩ := c
    cases body with
    | code => exact h
    | expr body base =>
      obtain ⟨found, hfound, h⟩ := except_bind_ok.mp h
      exact except_bind_ok.mpr ⟨found, mapM_ok_congr (fun e found => hexpr body) hfound, h⟩

namespace TypeDefinition

variable {T : Target} (d : TypeDefinition) (options : BuildOptions)

theorem closures_extend {d : TypeDefinition} {ds : List TypeDefinition} (h : d.closures small = .ok ds) :
    d.closures large = .ok ds := by
  obtain ⟨layouts, hlayouts, h⟩ := except_bind_ok.mp h
  exact except_bind_ok.mpr ⟨layouts, mapM_ok_congr (fun m found => Member.closures_extend hext) hlayouts, h⟩

/-- With more declarations a definition has the same steps. -/
theorem steps_extend {s t : Supply} {steps : List (Step T)} (h : (d.steps T small options).exec s = (.ok steps, t)) :
    (d.steps T large options).exec s = (.ok steps, t) := by
  have hw : small.Widens False large := ⟨hext, False.elim⟩
  obtain ⟨r, u, hexec, hagain, -⟩ := @steps_shifts T 0 d _ _ _ hw options s
  rw [h] at hexec
  cases hexec
  exact hagain (.inr rfl)

end TypeDefinition

end Definitions

end Stackwright
