import Stackwright.Proofs.Typed
import Stackwright.Expr.Closure

/-
  Stackwright.Proofs.Lambdas — the lambdas inside an expression, and what is collected for them.

  `Expr.Holds e env l types` says that the lambda `l` stands inside `e`, at a place where the
  variables have the types `types` when those around `e` have the types `env`.

  - `Expr.collect_collects`: collecting finds the layout of every lambda that an expression
    holds, and no other.
-/

namespace Stackwright

instance : Std.TransCmp TypeKey.order := inferInstanceAs (Std.TransOrd TypeKey)

instance : Std.LawfulEqCmp TypeKey.order := inferInstanceAs (Std.LawfulEqOrd TypeKey)

/-- A lambda as it stands in an expression. -/
structure Lambda where
  closure : Symbol
  params : List Param
  body : Expr

namespace Lambda

def expr (l : Lambda) : Expr := .lambda l.closure l.params l.body

/-- Its layout where the variables have the given types. -/
def layout (l : Lambda) (types : TypeEnv) : Except BuildError ClosureLayout :=
  ClosureLayout.of l.closure l.params l.body types

end Lambda

/-- Bindings whose values have types in `env` lead from `inner` to `result`. -/
inductive Binds (env : TypeEnv) : List (Symbol × Expr) → TypeEnv → TypeEnv → Prop
  | nil {inner} : Binds env [] inner inner
  | cons {x value bs type inner result} : value.typeOf env = .ok type → Binds env bs (inner.bind x type) result →
      Binds env ((x, value) :: bs) inner result

theorem Binds.unique {env inner result other : TypeEnv} {bs : List (Symbol × Expr)} (h : Binds env bs inner result)
    (h' : Binds env bs inner other) : result = other := by
  induction h with
  | nil =>
    cases h'
    rfl
  | cons htype _ ih =>
    cases h' with
    | cons htype' h' =>
      rw [htype] at htype'
      cases htype'
      exact ih h'

namespace Expr

/-- Immediate parts in the same scope. -/
def parts : Expr → List Expr
  | .letIn bs _ => bs.map (·.2)
  | .lambda _ _ _ => []
  | e => e.children

/-- The cases that some value leads to. -/
def liveCases (cs : List (CaseValues × Expr)) : List Expr := (cs.filter fun c => !c.1.isEmpty).map (·.2)

/-- The children that code is made for, in the order of the code. A lambda's body becomes a method of its own. -/
def compiled : Expr → List Expr
  | .lambda _ _ _ => []
  | .switch value cases fallback => value :: fallback :: liveCases cases
  | e => e.children

theorem compiled_subset_children {e : Expr} : e.compiled ⊆ e.children := by
  cases e with
  | switch value cases fallback =>
    simp only [compiled, liveCases, children]
    grind
  | _ => simp [compiled]

/-- The parts that code is made for in the same scope. -/
def lowered : Expr → List Expr
  | .letIn bs _ => bs.map (·.2)
  | e => e.compiled

theorem lowered_subset_parts {e : Expr} : e.lowered ⊆ e.parts := by
  cases e with
  | switch value cases fallback => exact compiled_subset_children (e := .switch value cases fallback)
  | _ => exact List.Subset.refl _

theorem lowered_subset_compiled {e : Expr} : e.lowered ⊆ e.compiled := by
  cases e with
  | letIn bs body => exact List.subset_append_left _ _
  | _ => exact List.Subset.refl _

inductive Holds : Expr → TypeEnv → Lambda → TypeEnv → Prop
  | self (l : Lambda) (env : TypeEnv) : Holds l.expr env l env
  | part {e part env l types} : part ∈ parts e → Holds part env l types → Holds e env l types
  | letBody {bs body env inner l types} : Binds env bs env inner → Holds body inner l types →
      Holds (.letIn bs body) env l types
  | lambdaBody {x ps body env l types} : Holds body (env.bindParams ps) l types →
      Holds (.lambda x ps body) env l types

variable {env types : TypeEnv} {l : Lambda}

theorem holds_letIn {bs : List (Symbol × Expr)} {body : Expr} : (letIn bs body).Holds env l types ↔
    (∃ e ∈ bs.map (·.2), e.Holds env l types) ∨ ∃ inner, Binds env bs env inner ∧ body.Holds inner l types := by
  constructor
  · rintro (_ | ⟨hpart, h⟩ | ⟨hbs, h⟩)
    · exact .inl ⟨_, hpart, h⟩
    · exact .inr ⟨_, hbs, h⟩
  · rintro (⟨e, he, h⟩ | ⟨inner, hbs, h⟩)
    · exact .part he h
    · exact .letBody hbs h

theorem holds_lambda {x : Symbol} {ps : List Param} {body : Expr} : (lambda x ps body).Holds env l types ↔
    (l = ⟨x, ps, body⟩ ∧ types = env) ∨ body.Holds (env.bindParams ps) l types := by
  constructor
  · rintro (_ | ⟨hpart, h⟩ | _ | h)
    · exact .inl ⟨rfl, rfl⟩
    · cases hpart
    · exact .inr h
  · rintro (⟨rfl, rfl⟩ | h)
    · exact .self ⟨x, ps, body⟩ _
    · exact .lambdaBody h

/-- Any other expression holds what its parts hold. -/
theorem holds_iff_parts {e : Expr} (hlet : ∀ bs body, e ≠ .letIn bs body)
    (hlambda : ∀ x ps body, e ≠ .lambda x ps body) :
    e.Holds env l types ↔ ∃ part ∈ e.parts, part.Holds env l types := by
  constructor
  · intro h
    cases h with
    | self | lambdaBody => exact absurd rfl (hlambda _ _ _)
    | part hpart h => exact ⟨_, hpart, h⟩
    | letBody => exact absurd rfl (hlet _ _)
  · rintro ⟨part, hpart, h⟩
    exact .part hpart h

end Expr

/-! ## Gathering under keys -/

/-- Values under the keys of their types. -/
abbrev Gathered (α : Type) := Std.TreeMap TypeKey α TypeKey.order

namespace Gathered

variable {ι α : Type}

theorem get?_insert (m : Gathered α) (key k : TypeKey) (x : α) :
    (m.insert key x).get? k = if key = k then some x else m.get? k := by
  show (m.insert key x)[k]? = _
  rw [Std.TreeMap.getElem?_insert]
  simp only [Std.LawfulEqCmp.compare_eq_iff_eq]
  rfl

theorem mem_values {m : Gathered α} {x : α} : x ∈ m.values ↔ ∃ key, m.get? key = some x := by
  have hvalues : m.values = m.toList.map (·.2) := by
    have : m.values = m.foldr (fun _ v vs => v :: vs) [] := rfl
    rw [this, Std.TreeMap.foldr_eq_foldr_toList]
    induction m.toList with
    | nil => rfl
    | cons entry entries ih => simp [ih]
  rw [hvalues, List.mem_map]
  constructor
  · rintro ⟨⟨key, _⟩, hentry, rfl⟩
    exact ⟨key, Std.TreeMap.mem_toList_iff_getElem?_eq_some.mp hentry⟩
  · rintro ⟨key, hkey⟩
    exact ⟨(key, x), Std.TreeMap.mem_toList_iff_getElem?_eq_some.mpr hkey, rfl⟩

variable [BEq α]

/-- The value is the one under the key, or was found equal to it. -/
def Has (m : Gathered α) (key : TypeKey) (x : α) : Prop := ∃ known, m.get? key = some known ∧ (known = x ∨ (known == x))

end Gathered

open Gathered (get?_insert)

/-- What adding some items under their keys leads to, when a different item under a key that is taken is refused. -/
structure Gathers {ι α : Type} [BEq α] (key : α → TypeKey) (item : ι → Except BuildError α) (holds : ι → Prop)
    (found result : Gathered α) : Prop where
  keeps : ∀ k x, found.get? k = some x → result.get? k = some x
  finds : ∀ i, holds i → ∃ x, item i = .ok x ∧ result.Has (key x) x
  only : ∀ k x, result.get? k = some x → found.get? k = some x ∨ key x = k ∧ ∃ i, holds i ∧ item i = .ok x

namespace Gathers

variable {ι α : Type} [BEq α] {key : α → TypeKey} {item : ι → Except BuildError α} {holds others : ι → Prop}
  {found middle result : Gathered α}

theorem has (h : Gathers key item holds found result) {k : TypeKey} {x : α} (hx : found.Has k x) : result.Has k x := by
  obtain ⟨known, hknown, hsame⟩ := hx
  exact ⟨known, h.keeps _ _ hknown, hsame⟩

theorem refl (hnone : ∀ i, ¬ holds i) : Gathers key item holds found found where
  keeps _ _ h := h
  finds i h := absurd h (hnone i)
  only _ _ h := .inl h

theorem trans (h₁ : Gathers key item holds found middle) (h₂ : Gathers key item others middle result) :
    Gathers key item (fun i => holds i ∨ others i) found result where
  keeps k x h := h₂.keeps _ _ (h₁.keeps _ _ h)
  finds i h := by
    rcases h with h | h
    · obtain ⟨x, hx, hhas⟩ := h₁.finds i h
      exact ⟨x, hx, h₂.has hhas⟩
    · exact h₂.finds i h
  only k x h := by
    rcases h₂.only k x h with h | ⟨hkey, i, hi, hx⟩
    · rcases h₁.only k x h with h | ⟨hkey, i, hi, hx⟩
      · exact .inl h
      · exact .inr ⟨hkey, i, .inl hi, hx⟩
    · exact .inr ⟨hkey, i, .inr hi, hx⟩

theorem congr (h : Gathers key item holds found result) (hiff : ∀ i, others i ↔ holds i) :
    Gathers key item others found result := by
  obtain rfl : holds = others := by
    funext i
    exact propext (hiff i).symm
  exact h

/-- A key that is free takes the item. -/
theorem insert {i : ι} {x : α} (hx : item i = .ok x) (hfree : found.get? (key x) = none) :
    Gathers key item (· = i) found (found.insert (key x) x) where
  keeps k known hknown := by
    rw [get?_insert, if_neg, hknown]
    rintro rfl
    rw [hfree] at hknown
    cases hknown
  finds := by
    rintro _ rfl
    exact ⟨x, hx, x, by rw [get?_insert, if_pos rfl], .inl rfl⟩
  only k known hknown := by
    rw [get?_insert] at hknown
    split at hknown
    · cases hknown
      exact .inr ⟨‹_›, i, rfl, hx⟩
    · exact .inl hknown

/-- Under a key that is taken, the item has to be equal to the one that is there. -/
theorem known {i : ι} {x known : α} (hx : item i = .ok x) (hknown : found.get? (key x) = some known)
    (hsame : known == x) : Gathers key item (· = i) found found where
  keeps _ _ h := h
  finds := by
    rintro _ rfl
    exact ⟨x, hx, known, hknown, .inr hsame⟩
  only _ _ h := .inl h

end Gathers

/-! ## Collecting -/

namespace Expr

/-- Collecting for some lambdas, each at a place of its own. -/
abbrev Collects (holds : Lambda × TypeEnv → Prop) (found result : Closures) : Prop :=
  Gathers ClosureLayout.key (fun i : Lambda × TypeEnv => i.1.layout i.2) holds found result

theorem add_collects {found result : Closures} {l : Lambda} {env : TypeEnv} {layout : ClosureLayout}
    (hlayout : l.layout env = .ok layout) (h : found.add layout = .ok result) :
    Collects (· = (l, env)) found result := by
  unfold Closures.add at h
  split at h
  · rename_i hfree
    cases h
    exact .insert hlayout hfree
  · rename_i known hknown
    split at h
    · cases h
    · rename_i hsame
      cases h
      exact .known hlayout hknown (by simpa [bne] using hsame)

mutual
theorem collect_collects : ∀ (e : Expr) {env : TypeEnv} {found result : Closures}, e.collect env found = .ok result →
    Collects (fun i => e.Holds env i.1 i.2) found result
  | .literal _, env, found, result, h | .var _, env, found, result, h | .getStatic _, env, found, result, h => by
    rw [collect] at h
    cases h
    refine .refl fun i hi => ?_
    obtain ⟨part, hpart, -⟩ := (holds_iff_parts (by simp) (by simp)).mp hi
    cases hpart
  | .assign _ e, env, found, result, h | .unary _ e, env, found, result, h | .getField e _, env, found, result, h
  | .setStatic _ e, env, found, result, h => by
    rw [collect] at h
    exact (collect_collects e h).congr fun i => by simp [holds_iff_parts, parts, children]
  | .seq es, env, found, result, h | .and es, env, found, result, h | .or es, env, found, result, h
  | .new _ es, env, found, result, h | .callStatic _ es, env, found, result, h => by
    rw [collect] at h
    exact (collectAll_collects es h).congr fun i => by simp [holds_iff_parts, parts, children]
  | .ite c t f, env, found, result, h => by
    rw [collect] at h
    obtain ⟨found₁, hc, h⟩ := except_bind_ok.mp h
    obtain ⟨found₂, ht, h⟩ := except_bind_ok.mp h
    exact (((collect_collects c hc).trans (collect_collects t ht)).trans (collect_collects f h)).congr fun i => by
      simp [holds_iff_parts, parts, children, or_assoc]
  | .switch value cases fallback, env, found, result, h => by
    rw [collect] at h
    obtain ⟨found₁, hv, h⟩ := except_bind_ok.mp h
    obtain ⟨found₂, hc, h⟩ := except_bind_ok.mp h
    exact (((collect_collects value hv).trans (collectCases_collects cases hc)).trans
      (collect_collects fallback h)).congr
      fun i => by simp [holds_iff_parts, parts, children, or_assoc]
  | .letIn bs body, env, found, result, h => by
    rw [collect] at h
    obtain ⟨⟨inner, found₁⟩, hbs, h⟩ := except_bind_ok.mp h
    obtain ⟨hbinds, hvalues⟩ := collectBindings_collects bs hbs
    refine (hvalues.trans (collect_collects body h)).congr fun i => ?_
    rw [holds_letIn]
    refine or_congr Iff.rfl ⟨?_, fun h => ⟨inner, hbinds, h⟩⟩
    rintro ⟨inner', hbinds', h⟩
    rwa [hbinds.unique hbinds']
  | .lambda x ps body, env, found, result, h => by
    rw [collect] at h
    obtain ⟨layout, hlayout, h⟩ := except_bind_ok.mp h
    obtain ⟨found₁, hadd, h⟩ := except_bind_ok.mp h
    have hself := @add_collects found found₁ ⟨x, ps, body⟩ env layout hlayout hadd
    refine (hself.trans (collect_collects body h)).congr fun i => ?_
    rw [holds_lambda, Prod.ext_iff]
  | .invoke e es, env, found, result, h | .call e _ es, env, found, result, h => by
    rw [collect] at h
    obtain ⟨found₁, he, h⟩ := except_bind_ok.mp h
    exact ((collect_collects e he).trans (collectAll_collects es h)).congr fun i => by
      simp [holds_iff_parts, parts, children]
  | .binary _ a b, env, found, result, h | .setField a _ b, env, found, result, h => by
    rw [collect] at h
    obtain ⟨found₁, ha, h⟩ := except_bind_ok.mp h
    exact ((collect_collects a ha).trans (collect_collects b h)).congr fun i => by
      simp [holds_iff_parts, parts, children]

theorem collectAll_collects : ∀ (es : List Expr) {env : TypeEnv} {found result : Closures},
    collectAll es env found = .ok result → Collects (fun i => ∃ e ∈ es, e.Holds env i.1 i.2) found result
  | [], env, found, result, h => by
    rw [collectAll] at h
    cases h
    exact .refl (by simp)
  | e :: es, env, found, result, h => by
    rw [collectAll] at h
    obtain ⟨found₁, he, h⟩ := except_bind_ok.mp h
    exact ((collect_collects e he).trans (collectAll_collects es h)).congr (by simp)

theorem collectCases_collects : ∀ (cs : List (CaseValues × Expr)) {env : TypeEnv} {found result : Closures},
    collectCases cs env found = .ok result → Collects (fun i => ∃ e ∈ cs.map (·.2), e.Holds env i.1 i.2) found result
  | [], env, found, result, h => by
    rw [collectCases] at h
    cases h
    exact .refl (by simp)
  | (_, e) :: cs, env, found, result, h => by
    rw [collectCases] at h
    obtain ⟨found₁, he, h⟩ := except_bind_ok.mp h
    exact ((collect_collects e he).trans (collectCases_collects cs h)).congr (by simp)

theorem collectBindings_collects : ∀ (bs : List (Symbol × Expr)) {env inner types : TypeEnv} {found result : Closures},
    collectBindings bs env inner found = .ok (types, result) →
      Binds env bs inner types ∧ Collects (fun i => ∃ e ∈ bs.map (·.2), e.Holds env i.1 i.2) found result
  | [], env, inner, types, found, result, h => by
    rw [collectBindings] at h
    cases h
    exact ⟨.nil, .refl (by simp)⟩
  | (x, e) :: bs, env, inner, types, found, result, h => by
    rw [collectBindings] at h
    obtain ⟨found₁, he, h⟩ := except_bind_ok.mp h
    obtain ⟨type, htype, h⟩ := except_bind_ok.mp h
    obtain ⟨hbinds, hvalues⟩ := collectBindings_collects bs h
    exact ⟨.cons htype hbinds, ((collect_collects e he).trans hvalues).congr (by simp)⟩
end

end Expr

end Stackwright
