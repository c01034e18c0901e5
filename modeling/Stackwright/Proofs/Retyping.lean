import Stackwright.Proofs.Lambdas
import Stackwright.Proofs.Orderly
import Stackwright.Proofs.Supertypes
import Stackwright.Proofs.Typing
import Stackwright.Proofs.Usages

/-
  Stackwright.Proofs.Retyping — typing looks at free variables only.

  A type found with some declarations is found with more of them, when those that are added
  are plain classes, and it is found in any scope that gives the free variables the same types.
  With the same declarations the whole answer is the same, the fault and the expression it is
  blamed on included: a fault in one part hides the parts after it, so the answers are compared
  step by step (`Keeps`).
-/

namespace Stackwright

variable {bs : List (Symbol × Expr)} {ps : List Param}
variable {y : Symbol} {body e : Expr} {env : TypeEnv}
variable {source : TypeRef} {large : Hierarchy} {es : List Expr} {env' : TypeEnv} {names : Symbol → Prop}

/-! ## Free variables -/

theorem Usages.contains_markCaptured (m : Usages) (x : Symbol) : m.markCaptured.contains x = m.contains x :=
  Std.TreeMap.contains_map

namespace Expr

/-- The variable occurs free. -/
def Uses (e : Expr) (x : Symbol) : Prop := e.usages.contains x = true

theorem contains_usagesAll (es : List Expr) (m : Usages) (x : Symbol) :
    (usagesAll es m).contains x ↔ m.contains x ∨ ∃ e ∈ es, e.Uses x := by
  induction es generalizing m with
  | nil => simp [usagesAll]
  | cons e es ih => simp [usagesAll, ih, Uses, or_assoc]

theorem contains_usagesCases (cs : List (CaseValues × Expr)) (m : Usages) (x : Symbol) :
    (usagesCases cs m).contains x ↔ m.contains x ∨ ∃ e ∈ cs.map (·.2), e.Uses x := by
  induction cs generalizing m with
  | nil => simp [usagesCases]
  | cons c cs ih => simp [usagesCases, ih, Uses, or_assoc]

theorem contains_usagesBindings (bs : List (Symbol × Expr)) (m : Usages) (x : Symbol) :
    (usagesBindings bs m).contains x ↔ m.contains x ∨ ∃ e ∈ bs.map (·.2), e.Uses x := by
  induction bs generalizing m with
  | nil => simp [usagesBindings]
  | cons b bs ih => simp [usagesBindings, ih, Uses, or_assoc]

variable {x : Symbol}

theorem uses_var : (var y).Uses x ↔ (y == x) := by
  simp [Uses, usages]

theorem uses_assign : (assign y e).Uses x ↔ (y == x) ∨ e.Uses x := by
  simp [Uses, usages]

theorem uses_letIn : (letIn bs body).Uses x ↔
    (∃ e ∈ bs.map (·.2), e.Uses x) ∨ (bs.map (·.1)).contains x = false ∧ body.Uses x := by
  simp only [Uses, usages, Usages.contains_union, Usages.contains_without, Bool.or_eq_true, Bool.and_eq_true,
    Bool.not_eq_true']
  rw [contains_usagesBindings]
  simp [Uses]

theorem uses_lambda : (lambda y ps body).Uses x ↔
    (ps.map (·.name)).contains x = false ∧ body.Uses x := by
  simp only [Uses, usages, Usages.contains_markCaptured, Usages.contains_without, Bool.and_eq_true, Bool.not_eq_true']

/-- An expression uses what its parts in the same scope use. -/
theorem uses_of_part {part : Expr} (hpart : part ∈ e.parts) (hx : part.Uses x) : e.Uses x := by
  cases e with
  | letIn bs body => exact uses_letIn.mpr (.inl ⟨part, hpart, hx⟩)
  | lambda y ps body | literal v | var y | getStatic f => cases hpart
  | switch value cases fallback =>
    simp only [parts, children, List.cons_append, List.mem_cons, List.mem_append, List.not_mem_nil, or_false] at hpart
    rw [Uses, usages, Usages.contains_union, Bool.or_eq_true, contains_usagesCases]
    rcases hpart with rfl | hpart | rfl
    exacts [.inl (.inl hx), .inl (.inr ⟨part, hpart, hx⟩), .inr hx]
  | seq es | and es | or es | new ctor es | callStatic m es =>
    exact (contains_usagesAll es ∅ x).mpr (.inr ⟨part, hpart, hx⟩)
  | invoke f es =>
    refine (contains_usagesAll es f.usages x).mpr ?_
    rcases List.mem_cons.mp hpart with rfl | hpart
    exacts [.inl hx, .inr ⟨part, hpart, hx⟩]
  | call target m es =>
    refine (contains_usagesAll es target.usages x).mpr ?_
    rcases List.mem_cons.mp hpart with rfl | hpart
    exacts [.inl hx, .inr ⟨part, hpart, hx⟩]
  | _ =>
    simp only [parts, children, List.mem_cons, List.not_mem_nil, or_false] at hpart
    simp only [Uses, usages, Usages.contains_union, Usages.contains_add, Bool.or_eq_true] at hx ⊢
    grind

end Expr

/-! ## Larger hierarchies -/

/-- One hierarchy has all declarations of another, and beyond them only plain classes. -/
structure Hierarchy.Extends (small large : Hierarchy) : Prop where
  catalog : large.catalog = small.catalog
  keeps : ∀ key decl, small.table.get? key = some decl → large.table.get? key = some decl
  plain : ∀ key decl, large.table.type? key = some decl → small.table.type? key = some decl ∨
    decl.attributes.isValueType = false ∧ decl.attributes.isInterface = false

namespace Hierarchy.Extends

variable {small large : Hierarchy} (h : small.Extends large)

include h

theorem type? {key : TypeKey} {decl : TypeDeclaration} (hdecl : small.table.type? key = some decl) :
    large.table.type? key = some decl := by
  have hget := h.keeps _ _ (Table.get?_of_type? hdecl)
  unfold Table.type?
  rw [hget]

/-- The classes that are added fail a test that plain classes fail. -/
theorem any_type? (key : TypeKey) {test : TypeDeclaration → Bool}
    (htest : ∀ decl, decl.attributes.isValueType = false → decl.attributes.isInterface = false → test decl = false) :
    (large.table.type? key).any test = (small.table.type? key).any test := by
  cases hsmall : small.table.type? key with
  | some decl => rw [h.type? hsmall]
  | none =>
    cases hlarge : large.table.type? key with
    | none => rfl
    | some decl =>
      rcases h.plain key decl hlarge with hold | ⟨hvalue, hinterface⟩
      · rw [hsmall] at hold
        cases hold
      · exact htest decl hvalue hinterface

theorem isValueType (t : TypeRef) : large.isValueType t = small.isValueType t := by
  cases t with
  | deferred key => exact h.any_type? key fun _ hvalue _ => hvalue
  | _ => simp only [Hierarchy.isValueType, h.catalog]

theorem isInterface (t : TypeRef) : large.isInterface t = small.isInterface t := by
  cases t with
  | deferred key => exact h.any_type? key fun _ _ hinterface => hinterface
  | _ => simp only [Hierarchy.isInterface, h.catalog]

theorem isReference (t : TypeRef) : large.isReference t = small.isReference t := by
  rw [Hierarchy.isReference, Hierarchy.isReference, h.isValueType]

theorem supertypes {t u : TypeRef} (hu : u ∈ small.supertypes t) : u ∈ large.supertypes t := by
  cases t with
  | deferred key =>
    cases hsmall : small.table.type? key with
    | some decl => simpa only [Hierarchy.supertypes, base?, interfaces, hsmall, h.type? hsmall] using hu
    | none => simp [Hierarchy.supertypes, base?, interfaces, hsmall] at hu
  | _ => simpa only [Hierarchy.supertypes, base?, interfaces, h.catalog] using hu

theorem isAssignable {target : TypeRef} (hfits : small.isAssignable source target) :
    large.isAssignable source target := by
  rw [isAssignable_iff, h.isReference, h.isReference]
  rcases isAssignable_iff.mp hfits with rfl | ⟨hsource, htarget, hfits⟩
  · exact .inl rfl
  refine .inr ⟨hsource, htarget, hfits.imp_right fun hder => ?_⟩
  exact Relation.ReflTransGen.mono (fun _ _ => h.supertypes) _ _ hder

theorem methodInfo {m : MethodRef} {info : MethodInfo} (hinfo : m.info small.table = .ok info) :
    m.info large.table = .ok info := by
  cases m with
  | existing m => exact hinfo
  | deferred key =>
    simp only [MethodRef.info, Table.method?] at hinfo ⊢
    cases hget : small.table.get? (.method key) with
    | none =>
      rw [hget] at hinfo
      cases hinfo
    | some decl => rwa [h.keeps _ _ hget, ← hget]

theorem fieldInfo {f : FieldRef} {info : FieldInfo} (hinfo : f.info small.table = .ok info) :
    f.info large.table = .ok info := by
  cases f with
  | existing f => exact hinfo
  | deferred key =>
    simp only [FieldRef.info, Table.field?] at hinfo ⊢
    cases hget : small.table.get? (.field key) with
    | none =>
      rw [hget] at hinfo
      cases hinfo
    | some decl => rwa [h.keeps _ _ hget, ← hget]

theorem checkDeclared {c : ConstructorRef} (hc : c.checkDeclared small.table = .ok ()) :
    c.checkDeclared large.table = .ok () := by
  cases c with
  | existing c => exact hc
  | deferred key =>
    simp only [ConstructorRef.checkDeclared, Table.constructor?] at hc ⊢
    cases hget : small.table.get? (.constructor key) with
    | none =>
      rw [hget] at hc
      cases hc
    | some decl => rwa [h.keeps _ _ hget, ← hget]

theorem binaryType? (op : BinaryOp) (left right : TypeRef) :
    Expr.binaryType? large op left right = Expr.binaryType? small op left right := by
  simp only [Expr.binaryType?, h.isReference]

end Hierarchy.Extends

/-! ## Scopes -/

namespace TypeEnv

variable {env env' : TypeEnv} {x y : Symbol} {type : TypeRef}

theorem lookup_bind : (env.bind y type).lookup x = if (y == x) = true then some type else env.lookup x := by
  simp only [lookup, bind, List.find?_cons]
  cases y == x <;> rfl

theorem bindParams_hierarchy (ps : List Param) : (env.bindParams ps).hierarchy = env.hierarchy := by
  induction ps generalizing env with
  | nil => rfl
  | cons p ps ih => exact ih

/-- Binding the same parameters keeps what two scopes agree on, and they agree on the parameters. -/
theorem lookup_bindParams (ps : List Param) (h : (ps.map (·.name)).contains x = false → env'.lookup x = env.lookup x) :
    (env'.bindParams ps).lookup x = (env.bindParams ps).lookup x := by
  induction ps generalizing env env' with
  | nil => exact h rfl
  | cons p ps ih =>
    refine ih fun hps => ?_
    rw [lookup_bind, lookup_bind]
    split
    · rfl
    · rename_i hp
      refine h ?_
      rw [List.map_cons, List.contains_cons, hps, BEq.comm]
      simpa using hp

end TypeEnv

/-! ## Answers -/

/-- The second answer is the first one. If `strict` is not asked for, this is only said when the first is no error. No
    internal error comes up. -/
structure Keeps {α : Type} (strict : Prop) (x y : Except BuildError α) : Prop where
  same : strict ∨ x.isOk → y = x
  orderly : Orderly x

/-- More declarations, or just the same ones. -/
structure Hierarchy.Widens (strict : Prop) (small large : Hierarchy) : Prop where
  extend : small.Extends large
  same : strict → large = small

namespace Keeps

variable {α β : Type} {strict : Prop} {x y x' y' : Except BuildError α}

theorem refl (hx : Orderly x) : Keeps strict x x := ⟨fun _ => rfl, hx⟩

theorem ok (a : α) : Keeps strict (.ok a) (.ok a) := refl (.ok a)

theorem fault (whole : Expr) (f : TypeFault) : Keeps strict (Expr.fault whole f : Except BuildError α)
    (Expr.fault whole f) :=
  refl (.fault whole f)

theorem of_ok (hx : Orderly x) (hok : ∀ a, x = .ok a → y = .ok a) (hy : strict → y = x) : Keeps strict x y where
  same h := by
    cases x with
    | ok a => exact hok a rfl
    | error e => exact hy (h.resolve_right (by rintro ⟨⟩))
  orderly := hx

theorem bind {k l : α → Except BuildError β} (hx : Keeps strict x y) (hk : ∀ a, Keeps strict (k a) (l a)) :
    Keeps strict (x >>= k) (y >>= l) where
  same h := by
    cases x with
    | ok a =>
      rw [hx.same (.inr rfl)]
      exact (hk a).same h
    | error e =>
      rw [hx.same (h.imp_right fun hok => by cases hok)]
      rfl
  orderly := hx.orderly.bind fun a => (hk a).orderly

theorem ite {c : Prop} [Decidable c] (hx : Keeps strict x y) (hx' : Keeps strict x' y') :
    Keeps strict (if c then x else x') (if c then y else y') := by
  split <;> assumption

/-- With more declarations more fits. -/
theorem assignable {small : Hierarchy} (hw : small.Widens strict large) {target : TypeRef} {e : BuildError}
    (hx : Keeps strict x y) (he : e.isInternal = false := by rfl) :
    Keeps strict (if small.isAssignable source target then x else .error e)
      (if large.isAssignable source target then y else .error e) := by
  cases hfits : small.isAssignable source target with
  | true =>
    rw [hw.extend.isAssignable hfits]
    exact hx
  | false => exact .of_ok (.error he) (fun _ h => by cases h) fun hs => by rw [hw.same hs, hfits]; rfl

end Keeps

namespace Hierarchy.Widens

variable {strict : Prop} {small large : Hierarchy}

theorem refl (strict : Prop) (h : Hierarchy) : h.Widens strict h :=
  ⟨⟨rfl, fun _ _ hdecl => hdecl, fun _ _ hdecl => .inl hdecl⟩, fun _ => rfl⟩

variable (h : small.Widens strict large)

include h

theorem fieldInfo (f : FieldRef) : Keeps strict (f.info small.table) (f.info large.table) :=
  .of_ok (f.info_orderly _) (fun _ => h.extend.fieldInfo) fun hs => by rw [h.same hs]

theorem methodInfo (m : MethodRef) : Keeps strict (m.info small.table) (m.info large.table) :=
  .of_ok (m.info_orderly _) (fun _ => h.extend.methodInfo) fun hs => by rw [h.same hs]

theorem checkDeclared (c : ConstructorRef) : Keeps strict (c.checkDeclared small.table) (c.checkDeclared large.table) :=
  .of_ok (c.checkDeclared_orderly _) (fun _ => h.extend.checkDeclared) fun hs => by rw [h.same hs]

end Hierarchy.Widens

/-! ## Scopes that agree -/

section

variable {env env' : TypeEnv} {e part : Expr} (hvars : ∀ x, e.Uses x → env'.lookup x = env.lookup x)

include hvars

theorem Expr.agree_part (hpart : part ∈ e.parts) : ∀ x, part.Uses x → env'.lookup x = env.lookup x :=
  fun x hx => hvars x (uses_of_part hpart hx)

theorem Expr.agree_parts (hparts : es ⊆ e.parts) :
    ∀ x, (∃ part ∈ es, part.Uses x) → env'.lookup x = env.lookup x := by
  rintro x ⟨part, hpart, hx⟩
  exact hvars x (uses_of_part (hparts hpart) hx)

end

theorem Expr.agree_cons (hvars : ∀ x, (∃ part ∈ e :: es, part.Uses x) → env'.lookup x = env.lookup x) :
    (∀ x, e.Uses x → env'.lookup x = env.lookup x) ∧ ∀ x, (∃ part ∈ es, part.Uses x) → env'.lookup x = env.lookup x :=
  ⟨fun x hx => hvars x ⟨e, List.mem_cons_self, hx⟩,
    fun x ⟨part, hpart, hx⟩ => hvars x ⟨part, List.mem_cons_of_mem _ hpart, hx⟩⟩

/-- Scopes that give the names the same types, or leave them both unbound; the second one with more declarations, or
    with just the same ones. -/
structure TypeEnv.Agree (strict : Prop) (env env' : TypeEnv) (names : Symbol → Prop) : Prop where
  hierarchy : env.hierarchy.Widens strict env'.hierarchy
  lookup : ∀ x, names x → env'.lookup x = env.lookup x

namespace TypeEnv.Agree

variable {strict : Prop} {env env' inner inner' : TypeEnv} {e e' : Expr} {es : List Expr} {x : Symbol} {type : TypeRef}

theorem mono {fewer : Symbol → Prop} (h : env.Agree strict env' names) (hfewer : ∀ x, fewer x → names x) :
    env.Agree strict env' fewer :=
  ⟨h.hierarchy, fun x hx => h.lookup x (hfewer x hx)⟩

theorem part (h : env.Agree strict env' e.Uses) (he : e' ∈ e.parts) : env.Agree strict env' e'.Uses :=
  ⟨h.hierarchy, Expr.agree_part h.lookup he⟩

theorem parts (h : env.Agree strict env' e.Uses) (hes : es ⊆ e.parts) :
    env.Agree strict env' fun x => ∃ e ∈ es, e.Uses x :=
  ⟨h.hierarchy, Expr.agree_parts h.lookup hes⟩

theorem cons (h : env.Agree strict env' fun x => ∃ part ∈ e :: es, part.Uses x) :
    env.Agree strict env' e.Uses ∧ env.Agree strict env' fun x => ∃ e ∈ es, e.Uses x :=
  ⟨⟨h.hierarchy, (Expr.agree_cons h.lookup).1⟩, h.hierarchy, (Expr.agree_cons h.lookup).2⟩

theorem bindParams (h : env.Agree strict env' (Expr.lambda y ps e).Uses) :
    (env.bindParams ps).Agree strict (env'.bindParams ps) e.Uses where
  hierarchy := by
    rw [bindParams_hierarchy, bindParams_hierarchy]
    exact h.hierarchy
  lookup x hx := lookup_bindParams ps fun hfree => h.lookup x (Expr.uses_lambda.mpr ⟨hfree, hx⟩)

/-- After one binding the scopes agree on its name as well. -/
theorem bind (h : inner.Agree strict inner' fun y => names y ∧ (((x, e) :: bs).map (·.1)).contains y = false)
    (type : TypeRef) :
    (inner.bind x type).Agree strict (inner'.bind x type) fun y => names y ∧ (bs.map (·.1)).contains y = false where
  hierarchy := h.hierarchy
  lookup y hy := by
    rw [lookup_bind, lookup_bind]
    split
    · rfl
    · rename_i hxy
      refine h.lookup y ⟨hy.1, ?_⟩
      rw [List.map_cons, List.contains_cons, hy.2, BEq.comm]
      simpa using hxy

end TypeEnv.Agree

/-! ## Typing -/

namespace Expr

variable {strict : Prop}

mutual
/-- The type of an expression, or the fault in it, depends on the free variables only. -/
theorem typeOf_keeps : ∀ (e : Expr) {env env' : TypeEnv}, env.Agree strict env' e.Uses →
    Keeps strict (e.typeOf env) (e.typeOf env')
  | .literal v, env, env', h => by
    cases v with
    | null type =>
      rw [typeOf, typeOf, h.hierarchy.extend.isReference]
      exact .ite (.ok _) (.fault _ _)
    | _ => exact .ok _
  | .var x, env, env', h => by
    rw [typeOf, typeOf, h.lookup x (uses_var.mpr BEq.rfl)]
    cases env.lookup x with
    | some type => exact .ok _
    | none => exact .fault _ _
  | .assign x e, env, env', h => by
    rw [typeOf, typeOf, h.lookup x (uses_assign.mpr (.inl BEq.rfl))]
    cases env.lookup x with
    | some target => exact (typeOf_keeps e (h.part List.mem_cons_self)).bind fun _ => .assignable h.hierarchy (.ok _)
    | none => exact .fault _ _
  | .seq es, env, env', h => by
    rw [typeOf, typeOf]
    exact typeOfLast_keeps es _ (h.parts (List.Subset.refl _))
  | .and es, env, env', h | .or es, env, env', h => by
    rw [typeOf, typeOf]
    exact (checkBools_keeps _ es (h.parts (List.Subset.refl _))).bind fun _ => .ok _
  | .ite c t f, env, env', h => by
    rw [typeOf, typeOf]
    exact (typeOf_keeps c (h.part (by simp [parts, children]))).bind fun _ => .ite (.fault _ _) <|
      (typeOf_keeps t (h.part (by simp [parts, children]))).bind fun _ =>
      (typeOf_keeps f (h.part (by simp [parts, children]))).bind fun _ => .ite (.ok _) (.fault _ _)
  | .switch value cases fallback, env, env', h => by
    have hcases : env.Agree strict env' fun x => ∃ e ∈ cases.map (·.2), e.Uses x :=
      h.parts fun e he => by simp [parts, children] at he ⊢; grind
    rw [typeOf, typeOf]
    exact (typeOf_keeps value (h.part (by simp [parts, children]))).bind fun _ => .ite (.fault _ _) <|
      (typeOf_keeps fallback (h.part (by simp [parts, children]))).bind fun _ =>
      (checkCases_keeps _ _ cases hcases).bind fun _ => .ok _
  | .letIn bs body, env, env', h => by
    rw [typeOf, typeOf]
    exact typeBindings_keeps _ [] bs (h.parts (List.Subset.refl _))
      (h.mono fun x hx => uses_letIn.mpr (.inr ⟨hx.2, hx.1⟩)) fun _ _ hinner => typeOf_keeps body hinner
  | .lambda x ps body, env, env', h => by
    rw [typeOf, typeOf]
    exact (typeOf_keeps body h.bindParams).bind fun _ => .ok _
  | .invoke function args, env, env', h => by
    rw [typeOf, typeOf]
    refine (typeOf_keeps function (h.part List.mem_cons_self)).bind fun type => ?_
    cases type.signature? with
    | none => exact .fault _ _
    | some signature => exact (Keeps.refl (.ite (.ok _) (.fault _ _))).bind fun _ =>
      (checkArgs_keeps _ args _ (h.parts (List.subset_cons_self _ _))).bind fun _ => .ok _
  | .binary op a b, env, env', h => by
    rw [typeOf, typeOf]
    refine (typeOf_keeps a (h.part (by simp [parts, children]))).bind fun left =>
      (typeOf_keeps b (h.part (by simp [parts, children]))).bind fun right => ?_
    rw [h.hierarchy.extend.binaryType?]
    cases binaryType? env.hierarchy op left right with
    | some type => exact .ok _
    | none => exact .fault _ _
  | .unary op e, env, env', h => by
    rw [typeOf, typeOf]
    refine (typeOf_keeps e (h.part List.mem_cons_self)).bind fun type => ?_
    cases unaryType? op type with
    | some type => exact .ok _
    | none => exact .fault _ _
  | .getField target field, env, env', h => by
    rw [typeOf, typeOf]
    exact (h.hierarchy.fieldInfo field).bind fun _ => .ite (.fault _ _) <|
      (typeOf_keeps target (h.part List.mem_cons_self)).bind fun _ =>
        (Keeps.assignable h.hierarchy (.ok _)).bind fun _ => .ok _
  | .getStatic field, env, env', h => by
    rw [typeOf, typeOf]
    exact (h.hierarchy.fieldInfo field).bind fun _ => .ite (.fault _ _) (.ok _)
  | .setField target field value, env, env', h => by
    rw [typeOf, typeOf]
    exact (h.hierarchy.fieldInfo field).bind fun _ => .ite (.fault _ _) <|
      (typeOf_keeps target (h.part List.mem_cons_self)).bind fun _ =>
          (Keeps.assignable h.hierarchy (.ok _)).bind fun _ =>
      (typeOf_keeps value (h.part (by simp [parts, children]))).bind fun _ =>
      (Keeps.assignable h.hierarchy (.ok _)).bind fun _ => .ok _
  | .setStatic field value, env, env', h => by
    rw [typeOf, typeOf]
    exact (h.hierarchy.fieldInfo field).bind fun _ => .ite (.fault _ _) <|
      (typeOf_keeps value (h.part List.mem_cons_self)).bind fun _ =>
        (Keeps.assignable h.hierarchy (.ok _)).bind fun _ => .ok _
  | .new ctor args, env, env', h => by
    rw [typeOf, typeOf, h.hierarchy.extend.isInterface]
    exact (h.hierarchy.checkDeclared ctor).bind fun _ => .ite (.fault _ _) <|
      (Keeps.refl (.ite (.ok _) (.fault _ _))).bind fun _ =>
      (checkArgs_keeps _ args _ (h.parts (List.Subset.refl _))).bind fun _ => .ok _
  | .call target method args, env, env', h => by
    rw [typeOf, typeOf]
    exact (h.hierarchy.methodInfo method).bind fun _ => .ite (.fault _ _) <|
      (typeOf_keeps target (h.part List.mem_cons_self)).bind fun _ =>
          (Keeps.assignable h.hierarchy (.ok _)).bind fun _ =>
      (Keeps.refl (.ite (.ok _) (.fault _ _))).bind fun _ =>
      (checkArgs_keeps _ args _ (h.parts (List.subset_cons_self _ _))).bind fun _ => .ok _
  | .callStatic method args, env, env', h => by
    rw [typeOf, typeOf]
    exact (h.hierarchy.methodInfo method).bind fun _ => .ite (.fault _ _) <|
      (Keeps.refl (.ite (.ok _) (.fault _ _))).bind fun _ =>
      (checkArgs_keeps _ args _ (h.parts (List.Subset.refl _))).bind fun _ => .ok _
termination_by structural e => e

theorem typeOfLast_keeps : ∀ (es : List Expr) (last : TypeRef) {env env' : TypeEnv},
    (env.Agree strict env' fun x => ∃ e ∈ es, e.Uses x) → Keeps strict (typeOfLast es env last)
      (typeOfLast es env' last)
  | [], _, _, _, _ => .ok _
  | e :: es, _, _, _, h => (typeOf_keeps e h.cons.1).bind fun _ => typeOfLast_keeps es _ h.cons.2
termination_by structural es => es

theorem checkBools_keeps (whole : Expr) : ∀ (es : List Expr) {env env' : TypeEnv},
    (env.Agree strict env' fun x => ∃ e ∈ es, e.Uses x) → Keeps strict (checkBools whole es env)
      (checkBools whole es env')
  | [], _, _, _ => .ok _
  | e :: es, _, _, h => (typeOf_keeps e h.cons.1).bind fun _ => .ite (checkBools_keeps whole es h.cons.2) (.fault _ _)
termination_by structural es => es

theorem checkCases_keeps (whole : Expr) (type : TypeRef) : ∀ (cs : List (CaseValues × Expr)) {env env' : TypeEnv},
    (env.Agree strict env' fun x => ∃ e ∈ cs.map (·.2), e.Uses x) →
      Keeps strict (checkCases whole type cs env) (checkCases whole type cs env')
  | [], _, _, _ => .ok _
  | (_, e) :: cs, _, _, h =>
    (typeOf_keeps e h.cons.1).bind fun _ => .ite (checkCases_keeps whole type cs h.cons.2) (.fault _ _)
termination_by structural cs => cs

/-- What is typed after some bindings keeps its answer when it does so in all scopes that agree on the names bound and
    on those that the scopes before agreed on. -/
theorem typeBindings_keeps {α : Type} {names : Symbol → Prop} (whole : Expr) (seen : List Symbol) :
    ∀ (bs : List (Symbol × Expr)) {env env' inner inner' : TypeEnv} {k l : TypeEnv → Except BuildError α},
      (env.Agree strict env' fun x => ∃ e ∈ bs.map (·.2), e.Uses x) →
      (inner.Agree strict inner' fun x => names x ∧ (bs.map (·.1)).contains x = false) →
      (∀ result result' : TypeEnv, result.Agree strict result' names → Keeps strict (k result) (l result')) →
      Keeps strict (typeBindings whole seen bs env inner >>= k) (typeBindings whole seen bs env' inner' >>= l)
  | [], _, _, inner, inner', _, _, _, hinner, hk => hk inner inner' (hinner.mono fun _ hx => ⟨hx, rfl⟩)
  | (x, e) :: bs, env, env', inner, inner', k, l, h, hinner, hk => by
    rw [typeBindings, typeBindings]
    split
    · exact .fault _ _
    · rw [bind_assoc, bind_assoc]
      refine (typeOf_keeps e h.cons.1).bind fun type => ?_
      split
      · exact .fault _ _
      · exact typeBindings_keeps whole (x :: seen) bs h.cons.2 (hinner.bind type) hk
termination_by structural bs => bs

theorem checkArgs_keeps (whole : Expr) : ∀ (args : List Expr) (params : List TypeRef) {env env' : TypeEnv},
    (env.Agree strict env' fun x => ∃ e ∈ args, e.Uses x) →
      Keeps strict (checkArgs whole args params env) (checkArgs whole args params env')
  | [], _, _, _, _ | _ :: _, [], _, _, _ => .ok _
  | e :: es, param :: params, _, _, h =>
    (typeOf_keeps e h.cons.1).bind fun _ => .assignable h.hierarchy (checkArgs_keeps whole es params h.cons.2)
termination_by structural args => args
end

theorem typeOf_orderly (e : Expr) (env : TypeEnv) : Orderly (e.typeOf env) :=
  (typeOf_keeps e ⟨.refl True _, fun _ _ => rfl⟩).orderly

/-- Typing keeps its answer when plain classes are declared and the free variables keep their types. -/
theorem typeOf_retype {type : TypeRef} (hextends : env.hierarchy.Extends env'.hierarchy)
    (hvars : ∀ x, e.Uses x → env'.lookup x = env.lookup x) (h : e.typeOf env = .ok type) :
    e.typeOf env' = .ok type := by
  have hw : env.hierarchy.Widens False env'.hierarchy := ⟨hextends, False.elim⟩
  rw [(typeOf_keeps e ⟨hw, hvars⟩).same (.inr (by rw [h]; rfl)), h]

end Expr

/-! ## Collecting -/

namespace TypeEnv

/-- The scope with other declarations. -/
def widen (h : Hierarchy) (env : TypeEnv) : TypeEnv := { env with hierarchy := h }

theorem bindParams_widen (h : Hierarchy) (env : TypeEnv) (ps : List Param) :
    (env.widen h).bindParams ps = (env.bindParams ps).widen h := by
  induction ps generalizing env with
  | nil => rfl
  | cons p ps ih => exact ih (env.bind p.name p.type)

end TypeEnv

theorem Expr.typeOf_extend {type : TypeRef} (hext : env.hierarchy.Extends large) (h : e.typeOf env = .ok type)
    : e.typeOf (env.widen large) = .ok type :=
  typeOf_retype hext (fun _ _ => rfl) h

namespace ClosureLayout

theorem captureTypes_orderly (whole : Expr) (env : TypeEnv) : ∀ names :
    List Symbol, Orderly (captureTypes whole env names)
  | [] => .ok _
  | x :: names => by
    rw [captureTypes]
    split
    · exact .fault _ _
    · exact (captureTypes_orderly whole env names).bind fun _ => .ok _

theorem of_orderly (closure : Symbol) (params : List Param) (body : Expr) (env : TypeEnv) :
    Orderly (ClosureLayout.of closure params body env) :=
  (captureTypes_orderly _ _ _).bind fun _ => (Expr.typeOf_orderly _ _).bind fun _ => .ok _

end ClosureLayout

theorem Closures.add_orderly (found : Closures) (layout : ClosureLayout) : Orderly (found.add layout) := by
  unfold add
  split
  · exact .ok _
  · exact .ite (.error rfl) (.ok _)

namespace Expr

variable {large : Hierarchy}

theorem captureTypes_widen {whole : Expr} {env : TypeEnv} : ∀ names : List Symbol,
    ClosureLayout.captureTypes whole (env.widen large) names = ClosureLayout.captureTypes whole env names
  | [] => rfl
  | x :: names => by
    rw [ClosureLayout.captureTypes, ClosureLayout.captureTypes, captureTypes_widen names]
    rfl

theorem layout_extend {x : Symbol} {layout : ClosureLayout} (hext : env.hierarchy.Extends large)
    (h : ClosureLayout.of x ps body env = .ok layout) : ClosureLayout.of x ps body (env.widen large) = .ok layout := by
  obtain ⟨captures, hcaptures, h⟩ := except_bind_ok.mp h
  obtain ⟨type, htype, h⟩ := except_bind_ok.mp h
  refine except_bind_ok.mpr ⟨captures, ?_, except_bind_ok.mpr ⟨type, typeOf_extend hext htype, h⟩⟩
  rwa [captureTypes_widen]

/-- The second work finds closures related to those that the first one finds. No internal error comes up. -/
structure Joins (R : Closures → Closures → Prop) (x y : Except BuildError Closures) : Prop where
  found : ∀ f, x = .ok f → ∃ f', y = .ok f' ∧ R f f'
  orderly : Orderly x

variable {R : Closures → Closures → Prop} {x y : Except BuildError Closures} {f f' : Closures}

theorem Joins.ok (h : R f f') : Joins R (.ok f) (.ok f') where
  found g hg := by
    cases hg
    exact ⟨f', rfl, h⟩
  orderly := .ok f

theorem Joins.bind {k l : Closures → Except BuildError Closures} (h : Joins R x y)
    (hk : ∀ ⦃f f'⦄, R f f' → Joins R (k f) (l f')) : Joins R (x >>= k) (y >>= l) := by
  cases x with
  | ok f =>
    obtain ⟨f', rfl, hR⟩ := h.found f rfl
    exact hk hR
  | error e => exact ⟨(fun _ hf => by cases hf), .error (h.orderly e rfl)⟩

/-- Both begin with the same answer. -/
theorem Joins.after {α : Type} {a b : Except BuildError α} {k l : α → Except BuildError Closures} (ha : Orderly a)
    (hab : ∀ r, a = .ok r → b = .ok r) (hk : ∀ r, a = .ok r → Joins R (k r) (l r)) : Joins R (a >>= k) (b >>= l) := by
  cases a with
  | ok r =>
    rw [hab r rfl]
    exact hk r rfl
  | error e => exact ⟨(fun _ hf => by cases hf), .error (ha e rfl)⟩

/-- Adding the lambdas of an expression keeps closures related. -/
def AddsRelated (R : Closures → Closures → Prop) (e : Expr) (env : TypeEnv) : Prop :=
  ∀ l types, e.Holds env l types → ∀ layout, l.layout types = .ok layout → ∀ ⦃f f'⦄, R f f' →
    Joins R (f.add layout) (f'.add layout)

theorem AddsRelated.part {e part : Expr} {env : TypeEnv} (h : e.AddsRelated R env) (hpart : part ∈ e.parts) :
    part.AddsRelated R env :=
  fun l types hl => h l types (.part hpart hl)

mutual
/-- Collecting from related closures in a larger setting leads to related closures. -/
theorem collect_joins : ∀ (e : Expr) {env : TypeEnv} {f f' : Closures}, env.hierarchy.Extends large →
    e.AddsRelated R env → R f f' → Joins R (e.collect env f) (e.collect (env.widen large) f')
  | .literal _, _, _, _, _, _, hR | .var _, _, _, _, _, _, hR | .getStatic _, _, _, _, _, _, hR => by
    rw [collect, collect]
    exact .ok hR
  | .assign _ e, _, _, _, hext, hall, hR | .unary _ e, _, _, _, hext, hall, hR | .getField e _, _, _, _, hext, hall, hR
  | .setStatic _ e, _, _, _, hext, hall, hR => by
    rw [collect, collect]
    exact collect_joins e hext (hall.part (by simp [parts, children])) hR
  | .seq es, _, _, _, hext, hall, hR | .and es, _, _, _, hext, hall, hR | .or es, _, _, _, hext, hall, hR
  | .new _ es, _, _, _, hext, hall, hR | .callStatic _ es, _, _, _, hext, hall, hR => by
    rw [collect, collect]
    exact collectAll_joins es hext (fun e he => hall.part he) hR
  | .ite c t e, _, _, _, hext, hall, hR => by
    rw [collect, collect]
    exact (collect_joins c hext (hall.part (by simp [parts, children])) hR).bind fun _ _ hR =>
      (collect_joins t hext (hall.part (by simp [parts, children])) hR).bind fun _ _ hR =>
      collect_joins e hext (hall.part (by simp [parts, children])) hR
  | .switch value cases fallback, _, _, _, hext, hall, hR => by
    rw [collect, collect]
    exact (collect_joins value hext (hall.part (by simp [parts, children])) hR).bind fun _ _ hR =>
      (collectCases_joins cases hext (fun e he => hall.part (by simp_all [parts, children])) hR).bind fun _ _ hR =>
      collect_joins fallback hext (hall.part (by simp [parts, children])) hR
  | .letIn bs body, _, _, _, hext, hall, hR => by
    rw [collect, collect]
    exact collectBindings_joins bs hext hext (fun e he => hall.part he) hR fun _ _ _ hinner hbs hR =>
      collect_joins body hinner (fun l types hl => hall l types (.letBody hbs hl)) hR
  | .lambda x ps body, env, _, _, hext, hall, hR => by
    rw [collect, collect]
    refine Joins.after (ClosureLayout.of_orderly _ _ _ _) (fun _ => layout_extend hext) fun layout hlayout =>
      (hall ⟨x, ps, body⟩ env (.self ⟨x, ps, body⟩ env) layout hlayout hR).bind fun _ _ hR => ?_
    rw [TypeEnv.bindParams_widen]
    exact collect_joins body (by rwa [TypeEnv.bindParams_hierarchy])
      (fun l types hl => hall l types (.lambdaBody hl)) hR
  | .invoke e es, _, _, _, hext, hall, hR | .call e _ es, _, _, _, hext, hall, hR => by
    rw [collect, collect]
    exact (collect_joins e hext (hall.part (by simp [parts, children])) hR).bind fun _ _ hR =>
      collectAll_joins es hext (fun e he => hall.part (List.mem_cons_of_mem _ he)) hR
  | .binary _ a b, _, _, _, hext, hall, hR | .setField a _ b, _, _, _, hext, hall, hR => by
    rw [collect, collect]
    exact (collect_joins a hext (hall.part (by simp [parts, children])) hR).bind fun _ _ hR =>
      collect_joins b hext (hall.part (by simp [parts, children])) hR

theorem collectAll_joins : ∀ (es : List Expr) {env : TypeEnv} {f f' : Closures}, env.hierarchy.Extends large →
    (∀ e ∈ es, e.AddsRelated R env) → R f f' → Joins R (collectAll es env f) (collectAll es (env.widen large) f')
  | [], _, _, _, _, _, hR => .ok hR
  | e :: es, _, _, _, hext, hall, hR => by
    rw [List.forall_mem_cons] at hall
    exact (collect_joins e hext hall.1 hR).bind fun _ _ hR => collectAll_joins es hext hall.2 hR

theorem collectCases_joins : ∀ (cs : List (CaseValues × Expr)) {env : TypeEnv} {f f' : Closures},
    env.hierarchy.Extends large → (∀ e ∈ cs.map (·.2), e.AddsRelated R env) → R f f' → Joins R (collectCases cs env f)
      (collectCases cs (env.widen large) f')
  | [], _, _, _, _, _, hR => .ok hR
  | (_, e) :: cs, _, _, _, hext, hall, hR => by
    rw [List.map_cons, List.forall_mem_cons] at hall
    exact (collect_joins e hext hall.1 hR).bind fun _ _ hR => collectCases_joins cs hext hall.2 hR

theorem collectBindings_joins : ∀ (bs : List (Symbol × Expr)) {env inner : TypeEnv} {f f' : Closures}
    {k l : TypeEnv × Closures → Except BuildError Closures}, env.hierarchy.Extends large →
    inner.hierarchy.Extends large → (∀ e ∈ bs.map (·.2), e.AddsRelated R env) → R f f' →
    (∀ types ⦃f f'⦄, types.hierarchy.Extends large → Binds env bs inner types → R f f' →
      Joins R (k (types, f)) (l (types.widen large, f'))) →
    Joins R (collectBindings bs env inner f >>= k) (collectBindings bs (env.widen large) (inner.widen large) f' >>= l)
  | [], _, inner, _, _, _, _, _, hinner, _, hR, hk => hk inner hinner .nil hR
  | (x, e) :: bs, env, inner, _, _, _, _, hext, hinner, hall, hR, hk => by
    rw [List.map_cons, List.forall_mem_cons] at hall
    rw [collectBindings, collectBindings, bind_assoc, bind_assoc]
    refine (collect_joins e hext hall.1 hR).bind fun _ _ hR => ?_
    rw [bind_assoc, bind_assoc]
    refine .after (e.typeOf_orderly env) (fun _ => typeOf_extend hext) fun type htype => ?_
    have hbound : (inner.bind x type).hierarchy.Extends large := hinner
    exact collectBindings_joins bs hext hbound hall.2 hR fun types _ _ htypes hbs => hk types htypes (.cons htype hbs)
end

theorem addsRelated_eq (e : Expr) (env : TypeEnv) : e.AddsRelated Eq env := by
  rintro l types - layout - f _ rfl
  exact ⟨fun g hg => ⟨g, hg, rfl⟩, f.add_orderly layout⟩

theorem closures_extend {layouts : List ClosureLayout} (hext : env.hierarchy.Extends large)
    (h : e.closures env = .ok layouts) :
    e.closures (env.widen large) = .ok layouts := by
  obtain ⟨found, hfound, h⟩ := except_bind_ok.mp h
  obtain ⟨_, hagain, rfl⟩ := (collect_joins e hext (e.addsRelated_eq env) rfl).found found hfound
  exact except_bind_ok.mpr ⟨found, hagain, h⟩

theorem closures_orderly (e : Expr) (env : TypeEnv) : Orderly (e.closures env) :=
  (collect_joins e (Hierarchy.Widens.refl True _).extend (e.addsRelated_eq env) rfl).orderly.bind fun _ => .ok _

end Expr

end Stackwright
