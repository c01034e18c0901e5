import Stackwright.Proofs.Typed

/-
  Stackwright.Proofs.Typing — the typing rules.

  `Typed env j` says that the judgement `j` holds where the variables have the types `env`.
  There is one rule per construct; the lists that a construct checks (arguments, cases,
  bindings) are judgements of their own, so that one induction covers them all.
-/

namespace Stackwright

/-- What can be typed: an expression, or one of the lists inside an expression. -/
inductive Judgement where
  | expr (e : Expr) (type : TypeRef)
  /-- The type of the last, or the given one when there is none. -/
  | seq (es : List Expr) (last type : TypeRef)
  | bools (es : List Expr)
  | cases (cs : List (CaseValues × Expr)) (type : TypeRef)
  /-- Bindings of names not yet seen lead from `inner` to `result`. -/
  | bindings (seen : List Symbol) (bs : List (Symbol × Expr)) (inner result : TypeEnv)
  | args (es : List Expr) (params : List TypeRef)

inductive Typed : TypeEnv → Judgement → Prop
  | literal {env v} : (∀ type, v = .null type → env.hierarchy.isReference type) →
      Typed env (.expr (.literal v) v.type)
  | var {env x type} : env.lookup x = some type → Typed env (.expr (.var x) type)
  | assign {env x e type target} : env.lookup x = some target → Typed env (.expr e type) →
      env.hierarchy.isAssignable type target → Typed env (.expr (.assign x e) .void)
  | seq {env es type} : Typed env (.seq es .void type) → Typed env (.expr (.seq es) type)
  | and {env es} : Typed env (.bools es) → Typed env (.expr (.and es) .bool)
  | or {env es} : Typed env (.bools es) → Typed env (.expr (.or es) .bool)
  | ite {env c t f type} : Typed env (.expr c .bool) → Typed env (.expr t type) → Typed env (.expr f type) →
      Typed env (.expr (.ite c t f) type)
  | switch {env value cases fallback selector type} : Typed env (.expr value selector) → Expr.isSwitchable selector →
      Typed env (.expr fallback type) → Typed env (.cases cases type) →
      Typed env (.expr (.switch value cases fallback) type)
  | letIn {env bs body inner type} : Typed env (.bindings [] bs env inner) → Typed inner (.expr body type) →
      Typed env (.expr (.letIn bs body) type)
  | lambda {env x ps body ret} : Typed (env.bindParams ps) (.expr body ret) →
      Typed env (.expr (.lambda x ps body) (.delegate (ps.map (·.type)) ret))
  | invoke {env function args params ret} : Typed env (.expr function (.delegate params ret)) →
      Typed env (.args args params) → Typed env (.expr (.invoke function args) ret)
  | binary {env op a b left right type} : Typed env (.expr a left) → Typed env (.expr b right) →
      Expr.binaryType? env.hierarchy op left right = some type → Typed env (.expr (.binary op a b) type)
  | unary {env op e operand type} : Typed env (.expr e operand) → Expr.unaryType? op operand = some type →
      Typed env (.expr (.unary op e) type)
  | getField {env target field type info} : field.info env.hierarchy.table = .ok info → info.isInstance →
      Typed env (.expr target type) → env.hierarchy.isAssignable type info.owner →
      Typed env (.expr (.getField target field) info.fieldType)
  | getStatic {env field info} : field.info env.hierarchy.table = .ok info → info.isInstance = false →
      Typed env (.expr (.getStatic field) info.fieldType)
  | setField {env target field value type stored info} : field.info env.hierarchy.table = .ok info →
      info.isInstance → Typed env (.expr target type) → env.hierarchy.isAssignable type info.owner →
      Typed env (.expr value stored) → env.hierarchy.isAssignable stored info.fieldType →
      Typed env (.expr (.setField target field value) .void)
  | setStatic {env field value stored info} : field.info env.hierarchy.table = .ok info → info.isInstance = false →
      Typed env (.expr value stored) → env.hierarchy.isAssignable stored info.fieldType →
      Typed env (.expr (.setStatic field value) .void)
  | new {env ctor args} : ctor.checkDeclared env.hierarchy.table = .ok () →
    env.hierarchy.isInterface ctor.owner = false →
      Typed env (.args args ctor.params) → Typed env (.expr (.new ctor args) ctor.owner)
  | call {env target method args type info} : method.info env.hierarchy.table = .ok info → info.isInstance →
      Typed env (.expr target type) → env.hierarchy.isAssignable type info.owner →
      Typed env (.args args info.params) → Typed env (.expr (.call target method args) info.returnType)
  | callStatic {env method args info} : method.info env.hierarchy.table = .ok info → info.isInstance = false →
      Typed env (.args args info.params) → Typed env (.expr (.callStatic method args) info.returnType)
  | seqNil {env last} : Typed env (.seq [] last last)
  | seqCons {env e es last type result} : Typed env (.expr e type) → Typed env (.seq es type result) →
      Typed env (.seq (e :: es) last result)
  | boolsNil {env} : Typed env (.bools [])
  | boolsCons {env e es} : Typed env (.expr e .bool) → Typed env (.bools es) → Typed env (.bools (e :: es))
  | casesNil {env type} : Typed env (.cases [] type)
  | casesCons {env values e cs type} : Typed env (.expr e type) → Typed env (.cases cs type) →
      Typed env (.cases ((values, e) :: cs) type)
  | bindingsNil {env seen inner} : Typed env (.bindings seen [] inner inner)
  | bindingsCons {env seen x e bs type inner result} : seen.contains x = false → Typed env (.expr e type) →
      type.isVoid = false → Typed env (.bindings (x :: seen) bs (inner.bind x type) result) →
      Typed env (.bindings seen ((x, e) :: bs) inner result)
  | argsNil {env} : Typed env (.args [] [])
  | argsCons {env e es type param params} : Typed env (.expr e type) → env.hierarchy.isAssignable type param →
      Typed env (.args es params) → Typed env (.args (e :: es) (param :: params))

namespace Expr

/-! ## What the checker accepts follows the rules -/

variable {env : TypeEnv} {whole : Expr}

theorem of_checkCount {params : List TypeRef} {args : List Expr} :
    checkCount whole params args = .ok () ↔ params.length = args.length := by
  unfold checkCount
  split <;> simp_all [fault]

theorem of_checkReceiver {owner type : TypeRef} :
    checkReceiver whole owner env type = .ok () ↔ env.hierarchy.isAssignable type owner := by
  unfold checkReceiver
  split <;> simp_all [fault]

theorem of_checkStored {field : FieldRef} {info : FieldInfo} {type : TypeRef} :
    checkStored whole field info env type = .ok () ↔ env.hierarchy.isAssignable type info.fieldType := by
  unfold checkStored
  split <;> simp_all [fault]

end Expr

namespace Typed

open Stackwright.Expr

mutual
theorem of_typeOf : ∀ (e : Expr) {env : TypeEnv} {type : TypeRef}, e.typeOf env = .ok type → Typed env (.expr e type)
  | .literal v, env, type, h => by
    cases v with
    | null t =>
      rw [typeOf] at h
      split at h
      · rename_i href
        cases h
        refine @Typed.literal env (.null _) fun u hu => ?_
        cases hu
        exact href
      · cases h
    | _ =>
      cases h
      refine @Typed.literal env _ fun u hu => ?_
      cases hu
  | .var x, env, type, h => .var (typeOf_var h)
  | .assign x e, env, type, h => by
    rw [typeOf] at h
    split at h
    · cases h
    rename_i target hx
    obtain ⟨found, he, h⟩ := except_bind_ok.mp h
    split at h
    · rename_i hfits
      cases h
      exact .assign hx (of_typeOf e he) hfits
    · cases h
  | .seq es, env, type, h => by
    rw [typeOf] at h
    exact .seq (of_typeOfLast es h)
  | .and es, env, type, h => by
    rw [typeOf] at h
    obtain ⟨_, hes, h⟩ := except_bind_ok.mp h
    cases h
    exact .and (of_checkBools es hes)
  | .or es, env, type, h => by
    rw [typeOf] at h
    obtain ⟨_, hes, h⟩ := except_bind_ok.mp h
    cases h
    exact .or (of_checkBools es hes)
  | .ite c t f, env, type, h => by
    obtain ⟨hc, ht, hf⟩ := typeOf_ite h
    exact .ite (of_typeOf c hc) (of_typeOf t ht) (of_typeOf f hf)
  | .switch value cases fallback, env, type, h => by
    obtain ⟨⟨selector, hvalue, hselector⟩, hfallback, hcases⟩ := typeOf_switch h
    exact .switch (of_typeOf value hvalue) hselector (of_typeOf fallback hfallback) (of_checkCases cases hcases)
  | .letIn bs body, env, type, h => by
    obtain ⟨inner, hbs, hbody⟩ := typeOf_letIn h
    exact .letIn (of_typeBindings bs hbs) (of_typeOf body hbody)
  | .lambda x ps body, env, type, h => by
    obtain ⟨ret, hbody, rfl⟩ := typeOf_lambda h
    exact .lambda (of_typeOf body hbody)
  | .invoke function args, env, type, h => by
    rw [typeOf] at h
    obtain ⟨delegate, hf, h⟩ := except_bind_ok.mp h
    split at h
    · cases h
    rename_i params ret hsignature
    obtain ⟨_, hcount, h⟩ := except_bind_ok.mp h
    obtain ⟨_, hargs, h⟩ := except_bind_ok.mp h
    cases h
    cases delegate <;> cases hsignature
    exact .invoke (of_typeOf function hf) (of_checkArgs args (of_checkCount.mp hcount) hargs)
  | .binary op a b, env, type, h => by
    obtain ⟨left, right, ha, hb, hop⟩ := typeOf_binary h
    exact .binary (of_typeOf a ha) (of_typeOf b hb) hop
  | .unary op e, env, type, h => by
    obtain ⟨operand, he, hop⟩ := typeOf_unary h
    exact .unary (of_typeOf e he) hop
  | .getField target field, env, type, h => by
    rw [typeOf] at h
    obtain ⟨info, hinfo, h⟩ := except_bind_ok.mp h
    split at h
    · cases h
    rename_i hinstance
    obtain ⟨owner, htarget, h⟩ := except_bind_ok.mp h
    obtain ⟨_, hreceiver, h⟩ := except_bind_ok.mp h
    cases h
    exact .getField hinfo (by simpa using hinstance) (of_typeOf target htarget) (of_checkReceiver.mp hreceiver)
  | .getStatic field, env, type, h => by
    rw [typeOf] at h
    obtain ⟨info, hinfo, h⟩ := except_bind_ok.mp h
    split at h
    · cases h
    rename_i hinstance
    cases h
    exact .getStatic hinfo (by simpa using hinstance)
  | .setField target field value, env, type, h => by
    rw [typeOf] at h
    obtain ⟨info, hinfo, h⟩ := except_bind_ok.mp h
    split at h
    · cases h
    rename_i hinstance
    obtain ⟨owner, htarget, h⟩ := except_bind_ok.mp h
    obtain ⟨_, hreceiver, h⟩ := except_bind_ok.mp h
    obtain ⟨stored, hvalue, h⟩ := except_bind_ok.mp h
    obtain ⟨_, hstored, h⟩ := except_bind_ok.mp h
    cases h
    exact .setField hinfo (by simpa using hinstance) (of_typeOf target htarget) (of_checkReceiver.mp hreceiver)
      (of_typeOf value hvalue) (of_checkStored.mp hstored)
  | .setStatic field value, env, type, h => by
    rw [typeOf] at h
    obtain ⟨info, hinfo, h⟩ := except_bind_ok.mp h
    split at h
    · cases h
    rename_i hinstance
    obtain ⟨stored, hvalue, h⟩ := except_bind_ok.mp h
    obtain ⟨_, hstored, h⟩ := except_bind_ok.mp h
    cases h
    exact .setStatic hinfo (by simpa using hinstance) (of_typeOf value hvalue) (of_checkStored.mp hstored)
  | .new ctor args, env, type, h => by
    rw [typeOf] at h
    obtain ⟨_, hdeclared, h⟩ := except_bind_ok.mp h
    split at h
    · cases h
    rename_i hinterface
    obtain ⟨_, hcount, h⟩ := except_bind_ok.mp h
    obtain ⟨_, hargs, h⟩ := except_bind_ok.mp h
    cases h
    exact .new hdeclared (by simpa using hinterface) (of_checkArgs args (of_checkCount.mp hcount) hargs)
  | .call target method args, env, type, h => by
    rw [typeOf] at h
    obtain ⟨info, hinfo, h⟩ := except_bind_ok.mp h
    split at h
    · cases h
    rename_i hinstance
    obtain ⟨owner, htarget, h⟩ := except_bind_ok.mp h
    obtain ⟨_, hreceiver, h⟩ := except_bind_ok.mp h
    obtain ⟨_, hcount, h⟩ := except_bind_ok.mp h
    obtain ⟨_, hargs, h⟩ := except_bind_ok.mp h
    cases h
    exact .call hinfo (by simpa using hinstance) (of_typeOf target htarget) (of_checkReceiver.mp hreceiver)
      (of_checkArgs args (of_checkCount.mp hcount) hargs)
  | .callStatic method args, env, type, h => by
    rw [typeOf] at h
    obtain ⟨info, hinfo, h⟩ := except_bind_ok.mp h
    split at h
    · cases h
    rename_i hinstance
    obtain ⟨_, hcount, h⟩ := except_bind_ok.mp h
    obtain ⟨_, hargs, h⟩ := except_bind_ok.mp h
    cases h
    exact .callStatic hinfo (by simpa using hinstance) (of_checkArgs args (of_checkCount.mp hcount) hargs)

theorem of_typeOfLast : ∀ (es : List Expr) {env : TypeEnv} {last type : TypeRef},
    typeOfLast es env last = .ok type → Typed env (.seq es last type)
  | [], env, last, type, h => by
    rw [typeOfLast] at h
    cases h
    exact .seqNil
  | e :: es, env, last, type, h => by
    rw [typeOfLast] at h
    obtain ⟨found, he, h⟩ := except_bind_ok.mp h
    exact .seqCons (of_typeOf e he) (of_typeOfLast es h)

theorem of_checkBools : ∀ (es : List Expr) {env : TypeEnv} {whole : Expr}, checkBools whole es env = .ok () →
    Typed env (.bools es)
  | [], _, _, _ => .boolsNil
  | e :: es, env, whole, h => by
    obtain ⟨he, hes⟩ := checkBools_cons h
    exact .boolsCons (of_typeOf e he) (of_checkBools es hes)

theorem of_checkCases : ∀ (cs : List (CaseValues × Expr)) {env : TypeEnv} {whole : Expr} {type : TypeRef},
    checkCases whole type cs env = .ok () → Typed env (.cases cs type)
  | [], _, _, _, _ => .casesNil
  | (values, e) :: cs, env, whole, type, h => by
    obtain ⟨he, hcs⟩ := checkCases_cons h
    exact .casesCons (of_typeOf e he) (of_checkCases cs hcs)

theorem of_typeBindings : ∀ (bs : List (Symbol × Expr)) {env inner result : TypeEnv} {whole : Expr}
    {seen : List Symbol},
    typeBindings whole seen bs env inner = .ok result → Typed env (.bindings seen bs inner result)
  | [], env, inner, result, whole, seen, h => by
    rw [typeBindings] at h
    cases h
    exact .bindingsNil
  | (x, e) :: bs, env, inner, result, whole, seen, h => by
    rw [typeBindings] at h
    split at h
    · cases h
    rename_i hnew
    obtain ⟨type, he, h⟩ := except_bind_ok.mp h
    split at h
    · cases h
    rename_i hvoid
    exact .bindingsCons (by simpa using hnew) (of_typeOf e he) (by simpa using hvoid) (of_typeBindings bs h)

theorem of_checkArgs : ∀ (es : List Expr) {env : TypeEnv} {whole : Expr} {params : List TypeRef},
    params.length = es.length → checkArgs whole es params env = .ok () → Typed env (.args es params)
  | [], env, whole, params, hcount, _ => by
    rw [List.eq_nil_of_length_eq_zero hcount]
    exact .argsNil
  | e :: es, env, whole, param :: params, hcount, h => by
    rw [checkArgs] at h
    obtain ⟨type, he, h⟩ := except_bind_ok.mp h
    split at h
    · rename_i hfits
      exact .argsCons (of_typeOf e he) hfits (of_checkArgs es (Nat.succ.inj hcount) h)
    · cases h
end

end Typed

/-! ## What follows the rules is accepted -/

open Stackwright.Expr in
/-- The answer of the checker that belongs to a judgement. -/
def Judgement.Accepted (env : TypeEnv) : Judgement → Prop
  | .expr e type => e.typeOf env = .ok type
  | .seq es last type => typeOfLast es env last = .ok type
  | .bools es => ∀ whole, checkBools whole es env = .ok ()
  | .cases cs type => ∀ whole, checkCases whole type cs env = .ok ()
  | .bindings seen bs inner result => ∀ whole, typeBindings whole seen bs env inner = .ok result
  | .args es params => params.length = es.length ∧ ∀ whole, checkArgs whole es params env = .ok ()

namespace Typed

open Stackwright.Expr

variable {env : TypeEnv}

theorem accepted {j : Judgement} (h : Typed env j) : j.Accepted env := by
  induction h with
  | @literal env v href =>
    show (Expr.literal v).typeOf env = .ok v.type
    cases v <;> try rfl
    rename_i t
    rw [typeOf, if_pos (href t rfl)]
    rfl
  | @var env x type hx =>
    show (Expr.var x).typeOf env = .ok type
    rw [typeOf, hx]
  | @assign env x e type target hx _ hfits ih =>
    show (Expr.assign x e).typeOf env = .ok .void
    rw [typeOf, hx]
    exact except_bind_ok.mpr ⟨type, ih, if_pos hfits⟩
  | @seq env es type _ ih => rwa [Judgement.Accepted, typeOf]
  | @and env es _ ih | @or env es _ ih => exact except_bind_ok.mpr ⟨(), ih _, rfl⟩
  | @ite env c t f type _ _ _ ihc iht ihf =>
    rw [Judgement.Accepted, typeOf]
    refine except_bind_ok.mpr ⟨.bool, ihc, ?_⟩
    exact except_bind_ok.mpr ⟨type, iht, except_bind_ok.mpr ⟨type, ihf, if_pos (beq_self_eq_true type)⟩⟩
  | @switch env value cases fallback selector type _ hselector _ _ ihvalue ihfallback ihcases =>
    rw [Judgement.Accepted, typeOf]
    refine except_bind_ok.mpr ⟨selector, ihvalue, ?_⟩
    rw [if_neg (by simp [hselector])]
    exact except_bind_ok.mpr ⟨type, ihfallback, except_bind_ok.mpr ⟨(), ihcases _, rfl⟩⟩
  | @letIn env bs body inner type _ _ ihbs ihbody => exact except_bind_ok.mpr ⟨inner, ihbs _, ihbody⟩
  | @lambda env x ps body ret _ ih => exact except_bind_ok.mpr ⟨ret, ih, rfl⟩
  | @invoke env function args params ret _ _ ihf ihargs =>
    rw [Judgement.Accepted, typeOf]
    refine except_bind_ok.mpr ⟨_, ihf, ?_⟩
    exact except_bind_ok.mpr ⟨(), of_checkCount.mpr ihargs.1, except_bind_ok.mpr ⟨(), ihargs.2 _, rfl⟩⟩
  | @binary env op a b left right type _ _ hop iha ihb =>
    rw [Judgement.Accepted, typeOf]
    refine except_bind_ok.mpr ⟨left, iha, except_bind_ok.mpr ⟨right, ihb, ?_⟩⟩
    rw [hop]
  | @unary env op e operand type _ hop ih =>
    rw [Judgement.Accepted, typeOf]
    refine except_bind_ok.mpr ⟨operand, ih, ?_⟩
    rw [hop]
  | @getField env target field type info hinfo hinstance _ hfits ih =>
    rw [Judgement.Accepted, typeOf]
    refine except_bind_ok.mpr ⟨info, hinfo, ?_⟩
    rw [if_neg (by simp [hinstance])]
    exact except_bind_ok.mpr ⟨type, ih, except_bind_ok.mpr ⟨(), of_checkReceiver.mpr hfits, rfl⟩⟩
  | @getStatic env field info hinfo hinstance =>
    rw [Judgement.Accepted, typeOf]
    refine except_bind_ok.mpr ⟨info, hinfo, ?_⟩
    rw [if_neg (by simp [hinstance])]
  | @setField env target field value type stored info hinfo hinstance _ howner _ hfits ihtarget ihvalue =>
    rw [Judgement.Accepted, typeOf]
    refine except_bind_ok.mpr ⟨info, hinfo, ?_⟩
    rw [if_neg (by simp [hinstance])]
    refine except_bind_ok.mpr ⟨type, ihtarget, except_bind_ok.mpr ⟨(), of_checkReceiver.mpr howner, ?_⟩⟩
    exact except_bind_ok.mpr ⟨stored, ihvalue, except_bind_ok.mpr ⟨(), of_checkStored.mpr hfits, rfl⟩⟩
  | @setStatic env field value stored info hinfo hinstance _ hfits ih =>
    rw [Judgement.Accepted, typeOf]
    refine except_bind_ok.mpr ⟨info, hinfo, ?_⟩
    rw [if_neg (by simp [hinstance])]
    exact except_bind_ok.mpr ⟨stored, ih, except_bind_ok.mpr ⟨(), of_checkStored.mpr hfits, rfl⟩⟩
  | @new env ctor args hdeclared hinterface _ ih =>
    rw [Judgement.Accepted, typeOf]
    refine except_bind_ok.mpr ⟨(), hdeclared, ?_⟩
    rw [if_neg (by simp [hinterface])]
    exact except_bind_ok.mpr ⟨(), of_checkCount.mpr ih.1, except_bind_ok.mpr ⟨(), ih.2 _, rfl⟩⟩
  | @call env target method args type info hinfo hinstance _ howner _ ihtarget ihargs =>
    rw [Judgement.Accepted, typeOf]
    refine except_bind_ok.mpr ⟨info, hinfo, ?_⟩
    rw [if_neg (by simp [hinstance])]
    refine except_bind_ok.mpr ⟨type, ihtarget, except_bind_ok.mpr ⟨(), of_checkReceiver.mpr howner, ?_⟩⟩
    exact except_bind_ok.mpr ⟨(), of_checkCount.mpr ihargs.1, except_bind_ok.mpr ⟨(), ihargs.2 _, rfl⟩⟩
  | @callStatic env method args info hinfo hinstance _ ih =>
    rw [Judgement.Accepted, typeOf]
    refine except_bind_ok.mpr ⟨info, hinfo, ?_⟩
    rw [if_neg (by simp [hinstance])]
    exact except_bind_ok.mpr ⟨(), of_checkCount.mpr ih.1, except_bind_ok.mpr ⟨(), ih.2 _, rfl⟩⟩
  | seqNil => rfl
  | @seqCons env e es last type result _ _ ihe ihes => exact except_bind_ok.mpr ⟨type, ihe, ihes⟩
  | boolsNil | casesNil | bindingsNil => exact fun _ => rfl
  | @boolsCons env e es _ _ ihe ihes =>
    intro whole
    exact except_bind_ok.mpr ⟨.bool, ihe, ihes whole⟩
  | @casesCons env values e cs type _ _ ihe ihcs =>
    intro whole
    refine except_bind_ok.mpr ⟨type, ihe, ?_⟩
    rw [if_pos (beq_self_eq_true type)]
    exact ihcs whole
  | @bindingsCons env seen x e bs type inner result hnew _ hvoid _ ihe ihbs =>
    intro whole
    rw [typeBindings, if_neg (by simpa using hnew)]
    refine except_bind_ok.mpr ⟨type, ihe, ?_⟩
    rw [if_neg (by simp [hvoid])]
    exact ihbs whole
  | argsNil => exact ⟨rfl, fun _ => rfl⟩
  | @argsCons env e es type param params _ hfits _ ihe ihes =>
    refine ⟨by rw [List.length_cons, List.length_cons, ihes.1], fun whole => ?_⟩
    rw [checkArgs]
    refine except_bind_ok.mpr ⟨type, ihe, ?_⟩
    rw [if_pos hfits]
    exact ihes.2 whole

/-- The checker answers with a type exactly when the rules give it. -/
theorem iff_typeOf {e : Expr} {type : TypeRef} : e.typeOf env = .ok type ↔ Typed env (.expr e type) :=
  ⟨of_typeOf e, accepted⟩

end Typed

end Stackwright
