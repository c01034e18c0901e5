import Stackwright.Proofs.Lowerable

/-
  Stackwright.Proofs.TypingLocality — typing looks at free variables only, also when it fails.

  `Expr.typeOf_keeps` compares the answers in two scopes, the fault and the expression it is
  blamed on included.
-/

namespace Stackwright

/-- Scopes that agree on the free variables lead to the same answer. -/
theorem Expr.typeOf_congr (e : Expr) {env env' : TypeEnv}
    (h : env'.hierarchy = env.hierarchy ∧ ∀ x, e.Uses x → env'.lookup x = env.lookup x) :
    e.typeOf env' = e.typeOf env := by
  have hw : env.hierarchy.Widens True env'.hierarchy := by
    rw [h.1]
    exact .refl True _
  exact (e.typeOf_keeps ⟨hw, h.2⟩).same (.inl trivial)

namespace Lambda.HasLayout

variable {l : Lambda} {types : TypeEnv} {layout : ClosureLayout} (h : l.HasLayout types layout)

include h

theorem typeOf_body : l.body.typeOf (types.bindParams l.params) = .ok layout.returnType := by
  obtain ⟨ret, hbody, hret⟩ := Expr.typeOf_lambda h.type
  rw [hbody, (TypeRef.delegate.inj hret).2]

/-- The body of a lambda has the same type inside of its closure, also when more classes are declared by then. -/
theorem typeOf_invoke {large : Hierarchy} (hextends : types.hierarchy.Extends large) :
    l.body.typeOf (layout.invokeBody.typeEnv large) = .ok layout.returnType := by
  refine Expr.typeOf_retype ?_ (fun x hx => h.lookup_invoke large hx) h.typeOf_body
  rwa [TypeEnv.bindParams_hierarchy, Body.typeEnv_hierarchy]

end Lambda.HasLayout

namespace Expr

/-- Typing depends on the variables that the usages report: scopes that answer alike for them lead to the same type or
    the same fault, and all of them are bound where a type is found. So the body of a lambda has one type, where it is
    written and where its closure's method is entered. -/
theorem typing_is_local (e : Expr) :
    (∀ env env' : TypeEnv, env'.hierarchy = env.hierarchy →
      (∀ x, e.usages.contains x = true → env'.lookup x = env.lookup x) → e.typeOf env' = e.typeOf env) ∧
    (∀ env type, e.typeOf env = .ok type → ∀ x, e.usages.contains x = true → ∃ bound, env.lookup x = some bound) ∧
    ∀ closure params env layout, ClosureLayout.of closure params e env = .ok layout →
      e.typeOf (env.bindParams params) = .ok layout.returnType ∧
      ∀ large : Hierarchy, env.hierarchy.Extends large →
        e.typeOf (layout.invokeBody.typeEnv large) = .ok layout.returnType ∧
        ∀ usages s start scope t, (layout.invokeBody.enter large usages).exec s = (.ok (start, scope), t) →
          scope.types = layout.invokeBody.typeEnv large := by
  refine ⟨fun env env' hsame hvars => typeOf_congr e ⟨hsame, hvars⟩,
    fun env type htype x hx => (Typed.iff_typeOf.mp htype).lookup_of_uses hx,
      fun closure params env layout hlayout => ?_⟩
  have hlambda : (⟨closure, params, e⟩ : Lambda).HasLayout env layout := Lambda.of_layout hlayout
  exact ⟨hlambda.typeOf_body, fun large hextends =>
    ⟨hlambda.typeOf_invoke hextends, fun _ _ _ _ _ henter => (Body.enter_types henter).1⟩⟩

/-- The lambda's parameter `n` is added to the variable `x`. -/
def addsCaptured : Expr := .binary .add (.var (.named "x")) (.var (.named "n"))

/-- What the lambda's closure declares, as far as its method needs it. -/
def addsCapturedTable : Table :=
  (∅ : Table).insert (.field ((closureKey (.generated 0 none)).field "x")) (.field ⟨{}, .cell .i32⟩)

/-- Around the lambda `x` is a number; a variable `y` that is added there changes nothing, and inside of the closure the
    number is found again. -/
theorem addsCaptured_is_local :
    let around : TypeEnv := { hierarchy := { table := ∅, catalog := ∅ }, vars := [(.named "x", .i32),
      (.named "n", .i32)] }
    let large : Hierarchy := { table := addsCapturedTable, catalog := ∅ }
    addsCaptured.typeOf (around.bind (.named "y") .bool) = addsCaptured.typeOf around ∧
    (∃ bound, around.lookup (.named "x") = some bound) ∧
    ∃ layout start scope t, ClosureLayout.of (.generated 0 none) [⟨.named "n", .i32⟩] addsCaptured around = .ok layout ∧
      layout.captures = [(.named "x", .i32)] ∧
      (layout.invokeBody.enter large addsCaptured.usages).exec {} = (.ok (start, scope), t) ∧
      addsCaptured.typeOf scope.types = .ok layout.returnType := by
  intro around large
  obtain ⟨hsame, hbound, hclosure⟩ := typing_is_local addsCaptured
  refine ⟨hsame around _ rfl fun x hx => ?_, hbound around .i32 rfl _ (by decide +kernel), ?_⟩
  · have hother : (Symbol.named "y" == x) = false := by
      rw [Bool.eq_false_iff]
      intro hy
      rw [Usages.contains_eq, ← Usages.asks_congr hy] at hx
      revert hx
      decide +kernel
    rw [TypeEnv.lookup_bind, hother]
    rfl
  · have hextends : around.hierarchy.Extends large := by
      refine ⟨rfl, fun key decl hdecl => ?_, fun key decl hdecl => ?_⟩
      · simp [around] at hdecl
      · have hget := Table.get?_of_type? hdecl
        simp [large, addsCapturedTable, Std.TreeMap.getElem?_insert, ItemKey.order] at hget
    have hentered : (ClosureLayout.of (.generated 0 none) [⟨.named "n", .i32⟩] addsCaptured around).toOption.map
        (fun l =>
        (l.captures, ((l.invokeBody.enter large addsCaptured.usages).exec {}).1.isOk)) =
        some ([(.named "x", .i32)], true) := by decide +kernel
    cases hlayout : ClosureLayout.of (.generated 0 none) [⟨.named "n", .i32⟩] addsCaptured around with
    | error e =>
      rw [hlayout] at hentered
      cases hentered
    | ok layout =>
      rw [hlayout] at hentered
      obtain ⟨hcaptures, hok⟩ := Prod.mk.inj (Option.some.inj hentered)
      obtain ⟨-, hinside⟩ := hclosure _ _ _ _ hlayout
      obtain ⟨htype, hscope⟩ := hinside large hextends
      rcases henter : (layout.invokeBody.enter large addsCaptured.usages).exec {} with ⟨_ | ⟨start, scope⟩, t⟩
      · rw [henter] at hok
        cases hok
      · exact ⟨layout, start, scope, t, rfl, hcaptures, henter, by rw [hscope _ _ _ _ _ henter, htype]⟩

end Expr

end Stackwright
