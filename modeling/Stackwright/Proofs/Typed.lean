import Stackwright.Proofs.Effects
import Stackwright.Expr.Typing

/-
  Stackwright.Proofs.Typed — what a well-typed construct is made of.

  One lemma per construct: when typing succeeds, its parts are well typed, and their types are
  related as the construct asks for.
-/

namespace Stackwright

variable {t : TypeRef} {x : Symbol} {bs : List (Symbol × Expr)}
variable {cases : List (CaseValues × Expr)}

theorem TypeRef.eq_bool (h : t.isBool = true) : t = .bool := by
  cases t with
  | primitive p => cases p <;> first | rfl | contradiction
  | _ => contradiction

theorem TypeRef.eq_void_of_isVoid (ht : t.isVoid) : t = .void := by
  cases t with
  | primitive p => exact congrArg TypeRef.primitive (Option.some.inj (beq_iff_eq.mp ht))
  | _ => cases ht

theorem TypeRef.ne_void_of_isVoid (ht : t.isVoid = false) : t ≠ .void := by
  intro hvoid
  rw [hvoid] at ht
  cases ht

theorem TypeRef.delegate_ne_void {params : List TypeRef} {ret : TypeRef} : TypeRef.delegate params ret ≠ .void := by
  intro h
  cases h

namespace Expr

variable {env inner types : TypeEnv} {type : TypeRef} {whole e c e₁ e₂ value fallback body : Expr} {es : List Expr}

theorem typeOf_ite (h : (Expr.ite c e₁ e₂).typeOf env = .ok type) :
    c.typeOf env = .ok .bool ∧ e₁.typeOf env = .ok type ∧ e₂.typeOf env = .ok type := by
  rw [typeOf] at h
  obtain ⟨ctype, hc, h⟩ := except_bind_ok.mp h
  split at h
  · cases h
  · rename_i hbool
    obtain ⟨type₁, h₁, h⟩ := except_bind_ok.mp h
    obtain ⟨type₂, h₂, h⟩ := except_bind_ok.mp h
    split at h
    · rename_i hsame
      cases h
      rw [beq_iff_eq] at hsame
      cases TypeRef.eq_bool (by simpa using hbool)
      exact ⟨hc, h₁, hsame ▸ h₂⟩
    · cases h

theorem checkBools_cons (h : checkBools whole (e :: es) env = .ok ()) :
    e.typeOf env = .ok .bool ∧ checkBools whole es env = .ok () := by
  rw [checkBools] at h
  obtain ⟨type, he, h⟩ := except_bind_ok.mp h
  split at h
  · rename_i hbool
    cases TypeRef.eq_bool hbool
    exact ⟨he, h⟩
  · cases h

theorem typeOf_switch (h : (Expr.switch value cases fallback).typeOf env = .ok type) :
    (∃ selector, value.typeOf env = .ok selector ∧ isSwitchable selector) ∧ fallback.typeOf env = .ok type ∧
      checkCases (.switch value cases fallback) type cases env = .ok () := by
  rw [typeOf] at h
  obtain ⟨selector, hselector, h⟩ := except_bind_ok.mp h
  split at h
  · cases h
  · rename_i hswitchable
    obtain ⟨type', hfallback, h⟩ := except_bind_ok.mp h
    obtain ⟨_, hcases, h⟩ := except_bind_ok.mp h
    cases h
    exact ⟨⟨selector, hselector, by simpa using hswitchable⟩, hfallback, hcases⟩

theorem checkCases_cons {values : CaseValues} (h : checkCases whole type ((values, e) :: cases) env = .ok ()) :
    e.typeOf env = .ok type ∧ checkCases whole type cases env = .ok () := by
  rw [checkCases] at h
  obtain ⟨type', he, h⟩ := except_bind_ok.mp h
  split at h
  · rename_i hsame
    rw [beq_iff_eq] at hsame
    exact ⟨hsame ▸ he, h⟩
  · cases h

theorem typeBindings_cons {seen : List Symbol} (h : typeBindings whole seen ((x, value) :: bs) env inner = .ok types) :
    ∃ type, value.typeOf env = .ok type ∧ type.isVoid = false ∧
      typeBindings whole (x :: seen) bs env (inner.bind x type) = .ok types := by
  rw [typeBindings] at h
  split at h
  · cases h
  · obtain ⟨type, hvalue, h⟩ := except_bind_ok.mp h
    split at h
    · cases h
    · rename_i hvoid
      exact ⟨type, hvalue, by simpa using hvoid, h⟩

theorem typeOf_binary {op : BinaryOp} (h : (Expr.binary op e₁ e₂).typeOf env = .ok type) :
    ∃ left right, e₁.typeOf env = .ok left ∧ e₂.typeOf env = .ok right ∧
      binaryType? env.hierarchy op left right = some type := by
  rw [typeOf] at h
  obtain ⟨left, hleft, h⟩ := except_bind_ok.mp h
  obtain ⟨right, hright, h⟩ := except_bind_ok.mp h
  split at h
  · rename_i hop
    cases h
    exact ⟨left, right, hleft, hright, hop⟩
  · cases h

theorem typeOf_unary {op : UnaryOp} (h : (Expr.unary op e).typeOf env = .ok type) :
    ∃ operand, e.typeOf env = .ok operand ∧ unaryType? op operand = some type := by
  rw [typeOf] at h
  obtain ⟨operand, hoperand, h⟩ := except_bind_ok.mp h
  split at h
  · rename_i hop
    cases h
    exact ⟨operand, hoperand, hop⟩
  · cases h

theorem typeOf_var (h : (Expr.var x).typeOf env = .ok type) : env.lookup x = some type := by
  rw [typeOf] at h
  split at h
  · rename_i hx
    cases h
    exact hx
  · cases h

theorem typeOf_letIn (h : (Expr.letIn bs body).typeOf env = .ok type) :
    ∃ inner, typeBindings (.letIn bs body) [] bs env env = .ok inner ∧ body.typeOf inner = .ok type := by
  rw [typeOf] at h
  exact except_bind_ok.mp h

theorem typeOf_lambda {ps : List Param} (h : (Expr.lambda x ps body).typeOf env = .ok type) :
    ∃ ret, body.typeOf (env.bindParams ps) = .ok ret ∧ type = .delegate (ps.map (·.type)) ret := by
  rw [typeOf] at h
  obtain ⟨ret, hbody, h⟩ := except_bind_ok.mp h
  cases h
  exact ⟨ret, hbody, rfl⟩

end Expr

end Stackwright
