import Stackwright.Proofs.Boxing

/-
  Stackwright.Proofs.Proper — types that values can have, and expressions that keep to them.

  Nothing has the type void but what a method or a delegate returns. Where the types that an
  expression mentions keep to that, so do the types of its parts.
-/

namespace Stackwright

variable {x : Symbol} {op : UnaryOp}
variable {h : Hierarchy} {left operand right t u : TypeRef}

/-! ## Types of values -/

mutual
/-- A type that values can have: its classes are known by one name each, and nothing is void but what delegates
    return. -/
def TypeRef.Proper (h : Hierarchy) : TypeRef → Prop
  | .deferred _ => True
  | .primitive p => p ≠ .void
  | .named name => h.table.type? ⟨name⟩ = none
  | .cell content => content.Proper h
  | .delegate params ret => TypeRef.ProperAll h params ∧ (ret = .void ∨ ret.Proper h)

def TypeRef.ProperAll (h : Hierarchy) : List TypeRef → Prop
  | [] => True
  | t :: ts => t.Proper h ∧ TypeRef.ProperAll h ts
end

/-- A type that a method can return. -/
def TypeRef.Returnable (h : Hierarchy) (t : TypeRef) : Prop := t = .void ∨ t.Proper h

theorem TypeRef.properAll_iff {ts : List TypeRef} : TypeRef.ProperAll h ts ↔ ∀ t ∈ ts, t.Proper h := by
  induction ts with
  | nil => simp [TypeRef.ProperAll]
  | cons t ts ih => simp [TypeRef.ProperAll, ih]

/-! ## Types of expressions -/

section

variable (h : Hierarchy) (table : Table)

def FieldRef.IsProper (ref : FieldRef) : Prop :=
  ∀ info, ref.info table = .ok info → info.owner.Proper h ∧ info.fieldType.Proper h

def MethodRef.IsProper (ref : MethodRef) : Prop :=
  ∀ info, ref.info table = .ok info →
    info.owner.Proper h ∧ (∀ t ∈ info.params, t.Proper h) ∧ info.returnType.Returnable h

def ConstructorRef.IsProper (ref : ConstructorRef) : Prop :=
  ref.checkDeclared table = .ok () → ref.owner.Proper h ∧ ∀ t ∈ ref.params, t.Proper h

/-- The types that the expression itself mentions, where the table says what members are, are types that
values can have. -/
def Expr.IsProper : Expr → Prop
  | .literal (.null t) => t.Proper h
  | .lambda _ ps _ => ∀ p ∈ ps, p.type.Proper h
  | .getField _ f | .setField _ f _ | .getStatic f | .setStatic f _ => f.IsProper h table
  | .new ctor _ => ctor.IsProper h table
  | .call _ m _ | .callStatic m _ => m.IsProper h table
  | _ => True

/-- Variables have types that values can have. -/
def TypeEnv.IsProper (env : TypeEnv) : Prop := ∀ entry ∈ env.vars, entry.2.Proper h

end

/-- All that an expression consists of is as said. -/
def Expr.Everywhere (P : Expr → Prop) (e : Expr) : Prop := ∀ e', e.Contains e' → P e'

namespace Expr.Everywhere

variable {P : Expr → Prop} {e c : Expr}

theorem self (he : e.Everywhere P) : P e := he e (.self e)

theorem child (he : e.Everywhere P) (hc : c ∈ e.children) : c.Everywhere P := fun e' he' => he e' (.child hc he')

/-- What holds everywhere in an expression holds everywhere in some of its children. -/
theorem within {es : List Expr} (he : ∀ e' ∈ [e], e'.Everywhere P) (hes : es ⊆ e.children) : ∀ c ∈ es, c.Everywhere P :=
  fun _ hc => (he e List.mem_cons_self).child (hes hc)

theorem iff_children : e.Everywhere P ↔ P e ∧ ∀ c ∈ e.children, c.Everywhere P := by
  refine ⟨fun he => ⟨he.self, fun _ => he.child⟩, fun ⟨hself, hchildren⟩ e' hcontains => ?_⟩
  cases hcontains with
  | self => exact hself
  | child hc hcontains => exact hchildren _ hc _ hcontains

end Expr.Everywhere

section

variable {h : Hierarchy} {table : Table} {env : TypeEnv}

theorem TypeRef.returnable_primitive (p : Primitive) : TypeRef.Returnable h (.primitive p) := by
  by_cases hp : p = .void
  · exact .inl (congrArg TypeRef.primitive hp)
  · exact .inr hp

theorem TypeRef.Proper.ne_void (ht : t.Proper h) : t ≠ .void := by
  rintro rfl
  exact ht rfl

theorem TypeRef.Returnable.proper (ht : t.Returnable h) (hvoid : t ≠ .void) : t.Proper h := ht.resolve_left hvoid

theorem TypeRef.exists_primitive {test : Primitive → Bool} (ht : t.isPrimitiveWith test = true) :
    ∃ p, t = .primitive p ∧ test p := by
  cases t with
  | primitive p => exact ⟨p, rfl, ht⟩
  | _ => cases ht

theorem TypeEnv.IsProper.lookup (henv : env.IsProper h) (hx : env.lookup x = some t) : t.Proper h := by
  obtain ⟨entry, hentry, rfl⟩ := Option.map_eq_some_iff.mp hx
  exact henv entry (List.mem_of_find?_eq_some hentry)

theorem TypeEnv.IsProper.bind (henv : env.IsProper h) (ht : t.Proper h) : (env.bind x t).IsProper h :=
  List.forall_mem_cons.mpr ⟨ht, henv⟩

theorem TypeEnv.IsProper.bindParams {ps : List Param} (henv : env.IsProper h) (hps : ∀ p ∈ ps, p.type.Proper h) :
    (env.bindParams ps).IsProper h := by
  induction ps generalizing env with
  | nil => exact henv
  | cons p ps ih =>
    obtain ⟨hp, hps⟩ := List.forall_mem_cons.mp hps
    exact ih (henv.bind hp) hps

theorem Typed.bindings_hierarchy {bs : List (Symbol × Expr)} : ∀ {seen : List Symbol} {inner result : TypeEnv},
    Typed env (.bindings seen bs inner result) → result.hierarchy = inner.hierarchy := by
  induction bs with
  | nil =>
    intro seen inner result h
    cases h
    rfl
  | cons b bs ih =>
    intro seen inner result h
    cases h with
    | bindingsCons _ _ _ hrest =>
      have hbound := ih hrest
      exact hbound

theorem Expr.returnable_binaryType {h' : Hierarchy} {op : BinaryOp} (ht : binaryType? h' op left right = some t) :
    t.Returnable h := by
  have hleft {test : Prop} [Decidable test] (hprimitive : test → ∃ p, left = .primitive p)
      (ht : (if test then some left else none) = some t) : t.Returnable h := by
    split at ht
    · rename_i htest
      obtain ⟨p, rfl⟩ := hprimitive htest
      cases ht
      exact TypeRef.returnable_primitive p
    · cases ht
  have hbool {test : Prop} [Decidable test] (ht : (if test then some TypeRef.bool else none) = some t) :
      t.Returnable h := by
    split at ht
    · cases ht
      exact TypeRef.returnable_primitive .bool
    · cases ht
  have hnumeric {a : Bool} {test : Primitive → Bool} (ha : (a && left.isPrimitiveWith test) = true) :
      ∃ p, left = .primitive p := by
    obtain ⟨p, hp, -⟩ := TypeRef.exists_primitive (Bool.and_eq_true_iff.mp ha).2
    exact ⟨p, hp⟩
  cases op with
  | add | sub | mul | div | rem => exact hleft hnumeric ht
  | bitAnd | bitOr | bitXor =>
    refine hleft (fun ha => ?_) ht
    rcases Bool.or_eq_true_iff.mp (Bool.and_eq_true_iff.mp ha).2 with hp | hp
    · obtain ⟨p, hp, -⟩ := TypeRef.exists_primitive hp
      exact ⟨p, hp⟩
    · exact ⟨.bool, TypeRef.eq_bool hp⟩
  | shl | shr =>
    refine hleft (fun ha => ?_) ht
    obtain ⟨p, hp, -⟩ := TypeRef.exists_primitive (Bool.and_eq_true_iff.mp ha).1
    exact ⟨p, hp⟩
  | eq | ne | lt | le | gt | ge => exact hbool ht

theorem Expr.returnable_unaryType (ht : unaryType? op operand = some t) : t.Returnable h := by
  unfold unaryType? at ht
  split at ht <;> split at ht <;> cases ht
  case _ hp | _ hp =>
    obtain ⟨p, rfl, -⟩ := TypeRef.exists_primitive hp
    exact TypeRef.returnable_primitive p
  case _ => exact TypeRef.returnable_primitive _

/-- What a judgement says about types. -/
def Judgement.IsProper (h : Hierarchy) : Judgement → Prop
  | .expr _ t => t.Returnable h
  | .seq _ last t => last.Returnable h → t.Returnable h
  | .bindings _ _ inner result => inner.IsProper h → result.IsProper h
  | _ => True

def Judgement.exprs : Judgement → List Expr
  | .expr e _ => [e]
  | .seq es _ _ | .bools es | .args es _ => es
  | .cases cs _ => cs.map (·.2)
  | .bindings _ bs _ _ => bs.map (·.2)

theorem Typed.isProper {j : Judgement} (hj : Typed env j) (hh : env.hierarchy.table = table) (henv : env.IsProper h)
    (hes : ∀ e ∈ j.exprs, e.Everywhere (·.IsProper h table)) : j.IsProper h := by
  induction hj with
  | @literal env v =>
    cases v with
    | null t => exact .inr (hes _ List.mem_cons_self).self
    | _ => exact TypeRef.returnable_primitive _
  | var hx => exact .inr (henv.lookup hx)
  | assign | setField | setStatic => exact .inl rfl
  | seq _ ih => exact ih hh henv (.within hes (List.Subset.refl _)) (.inl rfl)
  | and | or => exact TypeRef.returnable_primitive .bool
  | ite _ _ _ _ iht _ => exact iht hh henv (.within hes (by simp [Expr.children, Judgement.exprs]))
  | switch _ _ _ _ _ ihf _ => exact ihf hh henv (.within hes (by simp [Expr.children, Judgement.exprs]))
  | letIn hbs _ ihbs ihbody =>
    have hinner := ihbs hh henv (.within hes (List.subset_append_left _ _)) henv
    exact ihbody ((congrArg _ hbs.bindings_hierarchy).trans hh) hinner (.within hes (List.subset_append_right _ _))
  | @lambda env x ps body ret _ ih =>
    have hps : ∀ p ∈ ps, p.type.Proper h := (hes _ List.mem_cons_self).self
    have hret := ih ((congrArg _ (TypeEnv.bindParams_hierarchy ps)).trans hh) (henv.bindParams hps)
      (.within hes (List.Subset.refl _))
    refine .inr ⟨TypeRef.properAll_iff.mpr fun t ht => ?_, hret⟩
    obtain ⟨p, hp, rfl⟩ := List.mem_map.mp ht
    exact hps p hp
  | invoke _ _ ihf _ =>
    rcases ihf hh henv (.within hes (by simp [Expr.children, Judgement.exprs])) with hvoid | ⟨-, hret⟩
    · cases hvoid
    · exact hret
  | binary _ _ hop => exact Expr.returnable_binaryType hop
  | unary _ hop => exact Expr.returnable_unaryType hop
  | getField hinfo | getStatic hinfo =>
    subst hh
    exact .inr ((hes _ List.mem_cons_self).self _ hinfo).2
  | new hctor =>
    subst hh
    exact .inr ((hes _ List.mem_cons_self).self hctor).1
  | call hinfo | callStatic hinfo =>
    subst hh
    exact ((hes _ List.mem_cons_self).self _ hinfo).2.2
  | seqNil | bindingsNil => exact id
  | seqCons _ _ ihe ihes =>
    obtain ⟨he, hes⟩ := List.forall_mem_cons.mp hes
    exact fun _ => ihes hh henv hes (ihe hh henv (by simpa [Judgement.exprs] using he))
  | bindingsCons _ _ hvoid _ ihe ihbs =>
    obtain ⟨he, hes⟩ := List.forall_mem_cons.mp hes
    have htype := TypeRef.Returnable.proper (ihe hh henv (by simpa [Judgement.exprs] using he))
      (TypeRef.ne_void_of_isVoid hvoid)
    exact fun hinner => ihbs hh henv hes (hinner.bind htype)
  | boolsNil | boolsCons | casesNil | casesCons | argsNil | argsCons => trivial

/-- The types of expressions are types that values can have, or void. -/
theorem Typed.returnable {e : Expr} (he : Typed env (.expr e t)) (hh : env.hierarchy.table = table)
    (henv : env.IsProper h) (hparts : e.Everywhere (·.IsProper h table)) : t.Returnable h :=
  he.isProper hh henv (by simpa [Judgement.exprs] using hparts)

end

/-! ## Types of operands -/

theorem Hierarchy.isVoid_of_isAssignable (ha : h.isAssignable t u) : t = .void ↔ u = .void := by
  rcases isAssignable_iff.mp ha with rfl | ⟨ht, hu, -⟩
  · exact Iff.rfl
  · constructor <;> rintro rfl
    · cases ht
    · cases hu

theorem Hierarchy.ne_void_of_isAssignable (ha : h.isAssignable t u) (hu : u ≠ .void) : t ≠ .void :=
  fun ht => hu ((isVoid_of_isAssignable ha).mp ht)

theorem Expr.ne_void_of_binaryType {op : BinaryOp} (hop : binaryType? h op left right = some t)
    : left ≠ .void ∧ right ≠ .void ∧ t ≠ .void := by
  have hsame {test : Bool} {u : TypeRef} (htest : left = .void → test = false) (hu : u = left ∨ u = .bool)
      (hop : (if (left == right && test) = true then some u else none) = some t) :
      left ≠ .void ∧ right ≠ .void ∧ t ≠ .void := by
    obtain ⟨hand, hu'⟩ := Option.ite_none_right_eq_some.mp hop
    obtain ⟨heq, htrue⟩ := Bool.and_eq_true_iff.mp hand
    cases beq_iff_eq.mp heq
    cases hu'
    have hleft : left ≠ .void := fun hvoid => by
      rw [htest hvoid] at htrue
      cases htrue
    rcases hu with rfl | rfl
    · exact ⟨hleft, hleft, hleft⟩
    · exact ⟨hleft, hleft, nofun⟩
  cases op with
  | add | sub | mul | div | rem | bitAnd | bitOr | bitXor => exact hsame (by rintro rfl; rfl) (.inl rfl) hop
  | eq | ne | lt | le | gt | ge => exact hsame (by rintro rfl; rfl) (.inr rfl) hop
  | shl | shr =>
    obtain ⟨hand, hu⟩ := Option.ite_none_right_eq_some.mp hop
    obtain ⟨hinteger, hright⟩ := Bool.and_eq_true_iff.mp hand
    cases beq_iff_eq.mp hright
    cases hu
    have hleft : left ≠ .void := by
      rintro rfl
      cases hinteger
    exact ⟨hleft, nofun, hleft⟩

theorem Expr.ne_void_of_unaryType (hop : unaryType? op operand = some t) :
    operand ≠ .void ∧ t ≠ .void := by
  have hsame {test : Primitive → Bool} {u : TypeRef} (hvoid : test .void = false)
    (htest : operand.isPrimitiveWith test = true)
      (hu : u = operand ∨ u ≠ .void) : operand ≠ .void ∧ u ≠ .void := by
    have hoperand : operand ≠ .void := by
      rintro rfl
      cases hvoid.symm.trans htest
    rcases hu with rfl | hu
    · exact ⟨hoperand, hoperand⟩
    · exact ⟨hoperand, hu⟩
  cases op with
  | not | negate =>
    obtain ⟨htest, hu⟩ := Option.ite_none_right_eq_some.mp hop
    cases hu
    exact hsame rfl htest (.inl rfl)
  | convert target =>
    obtain ⟨hand, hu⟩ := Option.ite_none_right_eq_some.mp hop
    obtain ⟨htarget, htest⟩ := Bool.and_eq_true_iff.mp hand
    cases hu
    refine hsame rfl htest (.inr ?_)
    rintro ⟨⟩
    cases htarget

theorem Literal.type_ne_void {v : Literal} (hv : ∀ t, v = .null t → h.isReference t) : v.type ≠ .void := by
  cases v with
  | null t =>
    rintro rfl
    cases hv _ rfl
  | _ => exact nofun

theorem Expr.ne_void_of_isSwitchable (ht : isSwitchable t) : t ≠ .void := by
  rintro rfl
  cases ht

end Stackwright
