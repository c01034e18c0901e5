import Stackwright.Proofs.Proper
import Stackwright.Proofs.Paths

/-
  Stackwright.Proofs.Balance — lowered code leaves the stack as high as it should.

  Where void is nothing but what members and delegates return, every variable, argument and
  operand is one value. The code of an expression then leaves one value, or none when the
  expression is void, and takes nothing that was on the stack before.
-/

namespace Stackwright

variable {x : Symbol}
variable {t : TypeRef} {s : Supply} {b : Block} {c : Levels}

/-! ## Void -/

/-- Nothing is declared, so that every name can stand for a class. -/
def Hierarchy.bare : Hierarchy := { table := ∅, catalog := ∅ }

/-- Nothing in the type is void but what delegates return. -/
abbrev TypeRef.VoidFree (t : TypeRef) : Prop := t.Proper .bare

/-- No variable has a type in which something is void but what delegates return. -/
abbrev TypeEnv.VoidFree (env : TypeEnv) : Prop := env.IsProper .bare

/-- In all that the expression mentions, where the table says what members are, nothing is void but what members and
    delegates return. -/
abbrev Expr.VoidFree (table : Table) (e : Expr) : Prop := e.Everywhere (·.IsProper .bare table)

theorem TypeRef.width_of_ne (ht : t ≠ .void) : t.width = 1 := by
  unfold width
  split
  · rename_i hvoid
    exact absurd (eq_void_of_isVoid hvoid) ht
  · rfl

theorem TypeRef.width_void : TypeRef.void.width = 0 := rfl

theorem Hierarchy.width_of_isAssignable {h : Hierarchy} {u : TypeRef} (ha : h.isAssignable t u) :
    t.width = u.width := by
  by_cases hu : u = .void
  · rw [hu, (isVoid_of_isAssignable ha).mpr hu]
  · rw [TypeRef.width_of_ne hu, TypeRef.width_of_ne (ne_void_of_isAssignable ha hu)]

/-! ## Heights of small pieces of code -/

section

open Levels

variable {table : Table}

theorem Literal.climb_code (v : Literal) : climb table v.code 0 = some 1 := by
  cases v <;> rfl

theorem climb_narrowCode (type : Option Primitive) : climb table (narrowCode type) 1 = some 1 := by
  unfold narrowCode
  split
  · rename_i op hop
    obtain ⟨p, -, hp⟩ := Option.bind_eq_some_iff.mp hop
    cases p <;> cases hp <;> rfl
  · rfl

theorem BinaryOp.climb_code (op : BinaryOp) (type : Option Primitive) : climb table (op.code type) 2 = some 1 := by
  have hcode : climb table (binaryCode op type) 2 = some 1 := by
    unfold binaryCode
    cases type.any Primitive.isUnsigned <;> cases type.any Primitive.isFloat <;> cases op <;> rfl
  rw [code, climb_append hcode]
  split
  · rfl
  · exact climb_narrowCode type

theorem UnaryOp.climb_code (op : UnaryOp) (type : Option Primitive) : climb table (op.code type) 1 = some 1 := by
  cases op with
  | not =>
    show climb table (if type == some .bool then _ else _) 1 = _
    split
    · rfl
    · exact climb_narrowCode type
  | negate => exact climb_narrowCode type
  | convert target =>
    show climb table (if type == some target then [] else _) 1 = _
    split
    · rfl
    · cases target <;> rfl

namespace Storage

theorem climb_cellLoad (boxed : Bool) (type : TypeRef) : climb table (cellLoad boxed type) 1 = some 1 := by
  cases boxed <;> rfl

theorem climb_loadSlot : ∀ s : Storage, climb table s.loadSlot 0 = some 1
  | .argument _ _ | .slot _ _ _ => rfl
  | .field target f _ _ => by
    rw [loadSlot, List.append_assoc, climb_append target.climb_loadSlot, climb_append (climb_cellLoad _ _)]
    rfl

theorem climb_fetch (s : Storage) : climb table s.fetch 0 = some 1 := by
  rw [fetch, climb_append s.climb_loadSlot, climb_cellLoad]

/-- What is pushed before a value is what storing it takes along. -/
theorem climb_store (s : Storage) :
    ∃ n, climb table s.beforeStore 0 = some n ∧ climb table [s.afterStore] (n + 1) = some 0 := by
  cases s with
  | argument => exact ⟨0, rfl, rfl⟩
  | slot name type boxed =>
    cases boxed with
    | true => exact ⟨1, rfl, rfl⟩
    | false => exact ⟨0, rfl, rfl⟩
  | field target f type boxed =>
    cases boxed with
    | true => exact ⟨1, (field target f type true).climb_loadSlot, rfl⟩
    | false => exact ⟨1, target.climb_fetch, rfl⟩

end Storage

/-- One cell is pushed per captured variable. -/
theorem climb_cells (storages : List Storage) : climb table
    (storages.flatMap Storage.loadSlot) 0 = some storages.length := by
  induction storages with
  | nil => rfl
  | cons s storages ih =>
    rw [List.flatMap_cons, climb_append s.climb_loadSlot, List.length_cons]
    exact climb_add 1 ih

/-- Entering a body leaves nothing on the stack. -/
theorem Enters.climb_code {usages : Usages} {index : Nat} {params : List Param} {scope inner : Scope} {t : Supply}
    (h : Enters usages index params scope s b inner t) : climb table b.code 0 = some 0 := by
  induction h with
  | nil => rfl
  | cell _ _ _ ih | plain _ _ _ ih => exact ih

end

/-- Calls take the arguments and the receiver, if there is one. -/
theorem MethodInfo.effect_of_info {table : Table} {method : MethodRef} {info : MethodInfo}
    (hinfo : method.info table = .ok info) :
    info.effect.takes = (if info.isInstance then info.params.length + 1 else info.params.length) ∧
      (∀ tail, (Instr.call method tail).effect? table = some info.effect) ∧
      ∀ tail, (Instr.callVirtual method tail).effect? table = some info.effect := by
  refine ⟨?_, fun tail => ?_, fun tail => ?_⟩
  · cases hinstance : info.isInstance <;> simp [effect, hinstance]
  · rw [Instr.effect?, hinfo]
    rfl
  · rw [Instr.effect?, hinfo]
    rfl

/-! ## Heights of lowered code -/

namespace Levels

variable {c : Levels} {n m : Nat} {K : Prospect Nat} {tail : Bool} {code : List Instr}

theorem runs_branch (h : (c.ahead code K).label x n) : c.Runs (.branch .always x :: code) n K :=
  (runs_cons (by simp)).mpr ((check_of_ne (by simp)).mpr
    ⟨_, rfl, Nat.zero_le _, fun hgoes => absurd hgoes (by simp [Instr.isTerminator]), by simpa [Instr.usedLabels,
      BranchKind.takes] using h, by simp [Instr.usedLabels]⟩)

theorem runs_test {kind : BranchKind} (hkind : kind.takes = 1) (hx : (c.ahead code K).label x n)
    (h : c.Runs code n K) : c.Runs (.branch kind x :: code) (n + 1) K := by
  refine (runs_cons (by simp)).mpr ((check_of_ne (by simp)).mpr
    ⟨_, rfl, ?_, fun _ => ?_, ?_, by simp [Instr.usedLabels]⟩)
  · rw [hkind]
    exact Nat.le_add_left 1 n
  · rw [hkind]
    exact h
  · simpa [Instr.usedLabels, hkind] using hx

theorem runs_switch {xs : List Symbol} (hx : ∀ x ∈ xs, (c.ahead code K).label x n) (h : c.Runs code n K) :
    c.Runs (.switch xs :: code) (n + 1) K :=
  (runs_cons (by simp)).mpr ((check_of_ne (by simp)).mpr
    ⟨_, rfl, Nat.le_add_left 1 n, fun _ => h, hx, by simp [Instr.isTerminator]⟩)

theorem controls : Prospect.Controls c.check (· + 1) where
  branch {K x n} h := by
    have hruns : c.Runs [.branch .always x] n K := runs_branch h
    exact (runs_cons (by simp)).mp hruns
  test {K x n} isOr hx h := by
    have hkind : (decidingBranch isOr).takes = 1 := by cases isOr <;> rfl
    have hruns : c.Runs [.branch (decidingBranch isOr) x] (n + 1) K := runs_test hkind hx h
    exact (runs_cons (by simp)).mp hruns
  loadI32 {K n} k h := by
    have hruns : c.Runs [.loadI32 k] n K := runs_of_climb rfl h
    exact (runs_cons (by simp)).mp hruns

theorem runs_ret (h : c.returns n) : c.Runs [.op .ret] n K := (runs_cons (by simp)).mpr h

theorem runs_retIf (h : K.Resumes (c.returns n) n tail) : c.Runs (retIf tail) n K := by
  cases tail with
  | true => exact runs_ret h
  | false => exact h

/-- The code that chooses a case takes the value that it looks at. -/
theorem runs_dispatch {size : Nat} {wide : Bool} {table : List Symbol} {fallback : Symbol} (h : K.here n)
    (hfallback : K.label fallback n) (htable : ∀ x ∈ table, K.label x n) :
    c.Runs (dispatchCode size wide table fallback s) (n + 1) K := by
  unfold dispatchCode
  split
  · exact runs_climb (k := 1) rfl h
  · cases wide with
    | false => exact runs_switch htable h
    | true =>
      have hinRange : c.Runs ([.op .convU4] ++ [.switch table]) (n + 1) K :=
        .append (runs_climb (k := 1) (m := 1) rfl (runs_switch htable h))
      have hmark : (c.ahead [.op .pop, .branch .always fallback]
        (c.ahead (.label s.label :: [.op .convU4, .switch table]) K)).label
          s.label (n + 1) := Prospect.label_ahead (Prospect.label_mark hinRange)
      refine Runs.append (a := [.op .dup, .loadI64 (.ofNat size), .op .cltUn]) (runs_climb (k := 1) (m := 2) rfl ?_)
      refine runs_test rfl hmark (Runs.append (a := [.op .pop]) (runs_climb (k := 1) (m := 0) rfl ?_))
      exact runs_branch (Prospect.label_ahead hfallback)

/-- An instruction takes and gives what the signature of its operand says. -/
theorem runs_operand {i : Instr} (effect : StackEffect) (heffect : i.effect? c.table = some effect)
    (hlabels : i.usedLabels = [])
    (hnext : i.isTerminator = false) (h : c.Runs code (n + effect.gives) K) : c.Runs (i :: code) (n + effect.takes) K :=
  runs_straight heffect hlabels hnext (Nat.le_add_left _ _) (by rwa [Nat.add_sub_cancel])

/-- A value that the next expression does not need is dropped. -/
theorem runs_discard (h : K.here n) : c.Runs (if t.isVoid then [] else [.op .pop]) (n + t.width) K := by
  unfold TypeRef.width
  split
  · exact h
  · exact runs_climb (k := 1) rfl h

end Levels

/-- The code of a piece of work leads to the height that its result asks for. -/
def Work.Leads (c : Levels) (scope : Scope) (b : Block) : Work → Prop
  | .expr e tail => ∀ t, Typed scope.types (.expr e t) → ∀ n K, K.Resumes (c.returns (n + t.width)) (n + t.width) tail →
      c.Runs b.code n K
  | .all es =>
    ∀ params, Typed scope.types (.args es params) → (∀ t ∈ params, t ≠ .void) → ∀ n K, K.here (n + params.length) →
      c.Runs b.code n K
  | .seq es tail => ∀ last t, Typed scope.types (.seq es last t) → (es = [] → last = .void) → ∀ n K,
      K.Resumes (c.returns (n + t.width)) (n + t.width) tail → c.Runs b.code n K
  | .shortCircuit _ es tail =>
    Typed scope.types (.bools es) → ∀ n K, K.Resumes (c.returns (n + 1)) (n + 1) tail → c.Runs b.code n K
  | .operands kind decided es tail =>
    Typed scope.types (.bools es) → (∃ isOr, kind = decidingBranch isOr) → es ≠ [] → ∀ n K,
      K.Resumes (c.returns (n + 1)) (n + 1) tail → K.label decided n → c.Runs b.code n K
  | .cases cs labels leave tail => ∀ t, Typed scope.types (.cases cs t) → ∀ s, leave = leaveTo tail s → ∀ n K,
      K.Ends (c.returns (n + t.width)) (n + t.width) tail s → ∀ entry ∈ cs.zip labels, entry.1.1.isEmpty = false →
        (c.ahead b.code K).label entry.2 n
  | .bindings _ bs inner result => ∀ seen types, Typed scope.types (.bindings seen bs inner.types types) →
      result.types = types ∧ ∀ n K, K.here n → c.Runs b.code n K

open Levels Prospect in
/-- The code of a piece of work leads to the height that its result asks for, where void is only returned. -/
theorem Lowers.leads {options : BuildOptions} {w : Work} {scope : Scope} {t : Supply} (h : Lowers options w scope s b t)
    (htable : scope.types.hierarchy.table = c.table) (hscope : scope.types.VoidFree)
      (hes : ∀ e ∈ w.exprs, e.VoidFree c.table)
    : w.Leads c scope b := by
  induction h with
  | @literal v tail scope s =>
    intro t ht n K hK
    cases ht with
    | literal hv =>
      rw [TypeRef.width_of_ne (Literal.type_ne_void hv)] at hK
      exact .append (runs_climb (k := 0) v.climb_code (runs_retIf hK))
  | @var x tail scope s storage hx =>
    intro t ht n K hK
    cases ht with
    | var hlookup =>
      rw [TypeRef.width_of_ne (hscope.lookup hlookup).ne_void] at hK
      exact .append (runs_climb (k := 0) storage.climb_fetch (runs_retIf hK))
  | @assign x e tail scope s storage v s₁ hx _ ih =>
    intro t ht n K hK
    cases ht with
    | assign hlookup he hassign =>
      have hvoid := Hierarchy.ne_void_of_isAssignable hassign (hscope.lookup hlookup).ne_void
      obtain ⟨k, hbefore, hafter⟩ : ∃ k, climb c.table storage.beforeStore 0 = some k ∧
        climb c.table [storage.afterStore] (k + 1) = some 0 := storage.climb_store
      refine .append (.append (.append (runs_climb (k := 0) hbefore ?_)))
      refine ih htable hscope (.within hes (List.Subset.refl _)) _ he _ _ ?_
      rw [TypeRef.width_of_ne hvoid, Nat.add_assoc]
      exact runs_climb hafter (runs_retIf hK)
  | seq _ ih =>
    intro t ht n K hK
    cases ht with
    | seq hseq => exact ih htable hscope (.within hes (List.Subset.refl _)) .void t hseq (fun _ => rfl) n K hK
  | and _ ih =>
    intro t ht n K hK
    cases ht with
    | and hbools => exact ih htable hscope (.within hes (List.Subset.refl _)) hbools n K hK
  | or _ ih =>
    intro t ht n K hK
    cases ht with
    | or hbools => exact ih htable hscope (.within hes (List.Subset.refl _)) hbools n K hK
  | @ite condition first second tail scope s cb s₁ tb s₂ fb s₃ _ _ _ ihc iht ihf =>
    intro type ht n K hK
    cases ht with
    | ite hcondition hfirst hsecond =>
      refine controls.ite (fun K hK => ?_) (fun K hK => ?_) (fun K hK => ?_) hK
      · exact ihc htable hscope (.within hes (by simp [Expr.children, Work.exprs])) _ hcondition n K hK
      · exact iht htable hscope (.within hes (by simp [Expr.children, Work.exprs])) _ hfirst n K hK
      · exact ihf htable hscope (.within hes (by simp [Expr.children, Work.exprs])) _ hsecond n K hK
  | @switch value cases fallback tail scope s type v s₁ fb s₅ cb s₆ claims size k s₂ s₃ dispatch hclaims _ _ _ htype
    _ _ _ hdispatch
      _ _ ihvalue ihfallback ihcases =>
    intro t ht n K hK
    subst hdispatch
    cases ht with
    | switch hvalue hswitchable hfallback hcases =>
      have hvoid := Expr.ne_void_of_isSwitchable hswitchable
      refine controls.switch (u := n + 1) (fun K hK => ?_) (fun K => runs_dispatch) (fun K hK => ?_)
        (fun K hK x hx => ?_) hK
      · refine ihvalue htable hscope (.within hes (by simp [Expr.children, Work.exprs])) _ hvalue n K ?_
        rw [TypeRef.width_of_ne hvoid]
        exact hK
      · exact ihfallback htable hscope (.within hes (by simp [Expr.children, Work.exprs])) _ hfallback n K hK
      · subst hclaims
        refine (mem_dispatchTable hx).imp id ?_
        rintro ⟨entry, hentry, hvalues, rfl⟩
        have hparts : cases.map (·.2) ⊆ (Expr.switch value cases fallback).children := by
          simp only [Expr.children]
          exact List.Subset.trans (List.subset_append_left _ _) (List.subset_cons_self _ _)
        exact ihcases htable hscope (.within hes hparts) _ hcases _ rfl n K hK entry hentry hvalues
  | @letIn bs body tail scope inner s vb s₁ b s₂ _ _ ihbs ihbody =>
    intro t ht n K hK
    cases ht with
    | letIn hbs hbody =>
      have hvalues : ∀ e ∈ bs.map (·.2), e.VoidFree c.table := .within hes (List.subset_append_left _ _)
      obtain ⟨rfl, hruns⟩ := ihbs htable hscope hvalues _ _ hbs
      have hinner : inner.types.VoidFree := hbs.isProper htable hscope hvalues hscope
      refine .append (hruns _ _ ?_)
      exact ihbody ((congrArg _ hbs.bindings_hierarchy).trans htable) hinner
        (.within hes (List.subset_append_right _ _)) _ hbody n K hK
  | @lambda x ps body tail scope s delegate cells types htype hcells =>
    intro t ht n K hK
    have hvoid : t ≠ .void := by
      cases ht
      exact TypeRef.delegate_ne_void
    rw [TypeRef.width_of_ne hvoid] at hK
    obtain ⟨storages, -, rfl, rfl⟩ := forall₂_of_captureCells hcells
    refine .append (runs_climb (k := 0) (m := 1) ?_ (runs_retIf hK))
    rw [climb_append (climb_cells storages)]
    simp [climb, Instr.effect?, Instr.usedLabels, Instr.isTerminator, ConstructorRef.params, TypeKey.constructor]
  | @invoke function args tail scope s delegate f s₁ as s₂ htype _ _ ihf ihargs =>
    intro t ht n K hK
    cases ht with
    | @invoke _ _ _ params ret hf hargs =>
      cases Except.ok.inj ((Typed.iff_typeOf.mpr hf).symm.trans htype)
      have hfunction : ∀ e ∈ [function], e.VoidFree c.table := .within hes (by simp [Expr.children])
      have hdelegate := (hf.returnable htable hscope (hfunction _ List.mem_cons_self)).proper TypeRef.delegate_ne_void
      have hparams : ∀ p ∈ params, p ≠ .void := fun p hp => (TypeRef.properAll_iff.mp hdelegate.1 p hp).ne_void
      refine .append (.append (ihf htable hscope hfunction _ hf n _ ?_))
      refine ihargs htable hscope (.within hes (List.subset_cons_self _ _)) _ hargs hparams _ _ ?_
      rw [TypeRef.width_of_ne TypeRef.delegate_ne_void, Nat.add_assoc, Nat.add_comm 1]
      exact runs_operand ⟨params.length + 1, t.width⟩ rfl rfl rfl (runs_retIf hK)
  | @binary op left right tail scope s type l s₁ r s₂ _ _ _ ihl ihr =>
    intro t ht n K hK
    cases ht with
    | binary hleft hright hop =>
      obtain ⟨hlvoid, hrvoid, htvoid⟩ := Expr.ne_void_of_binaryType hop
      rw [TypeRef.width_of_ne htvoid] at hK
      refine .append (.append (ihl htable hscope (.within hes (by simp [Expr.children, Work.exprs])) _ hleft n _ ?_))
      refine ihr htable hscope (.within hes (by simp [Expr.children, Work.exprs])) _ hright _ _ ?_
      rw [TypeRef.width_of_ne hlvoid, TypeRef.width_of_ne hrvoid]
      exact Runs.append (runs_climb (k := 2) (op.climb_code _) (runs_retIf hK))
  | @unary op operand tail scope s type v s₁ _ _ ih =>
    intro t ht n K hK
    cases ht with
    | unary hoperand hop =>
      obtain ⟨hvoid, htvoid⟩ := Expr.ne_void_of_unaryType hop
      rw [TypeRef.width_of_ne htvoid] at hK
      refine .append (ih htable hscope (.within hes (List.Subset.refl _)) _ hoperand n _ ?_)
      rw [TypeRef.width_of_ne hvoid]
      exact Runs.append (runs_climb (k := 1) (op.climb_code _) (runs_retIf hK))
  | @getField target field tail scope s b s₁ _ ih =>
    intro t ht n K hK
    cases ht with
    | getField hinfo _ htarget hassign =>
      rw [htable] at hinfo
      obtain ⟨howner, htype⟩ := (hes _ List.mem_cons_self).self _ hinfo
      have hvoid := Hierarchy.ne_void_of_isAssignable hassign howner.ne_void
      rw [TypeRef.width_of_ne htype.ne_void] at hK
      refine .append (ih htable hscope (.within hes (List.Subset.refl _)) _ htarget n _ ?_)
      rw [TypeRef.width_of_ne hvoid]
      exact runs_operand ⟨1, 1⟩ rfl rfl rfl (runs_retIf hK)
  | getStatic =>
    intro t ht n K hK
    cases ht with
    | getStatic hinfo =>
      rw [htable] at hinfo
      have htype := ((hes _ List.mem_cons_self).self _ hinfo).2
      rw [TypeRef.width_of_ne htype.ne_void] at hK
      exact runs_operand ⟨0, 1⟩ rfl rfl rfl (runs_retIf hK)
  | @setField target field value tail scope s b s₁ v s₂ _ _ iht ihv =>
    intro t ht n K hK
    cases ht with
    | setField hinfo _ htarget hassign hvalue hstored =>
      rw [htable] at hinfo
      obtain ⟨howner, htype⟩ := (hes _ List.mem_cons_self).self _ hinfo
      have hvoid := Hierarchy.ne_void_of_isAssignable hassign howner.ne_void
      have hvvoid := Hierarchy.ne_void_of_isAssignable hstored htype.ne_void
      refine .append (.append (iht htable hscope (.within hes (by simp [Expr.children, Work.exprs])) _ htarget n _ ?_))
      refine ihv htable hscope (.within hes (by simp [Expr.children, Work.exprs])) _ hvalue _ _ ?_
      rw [TypeRef.width_of_ne hvoid, TypeRef.width_of_ne hvvoid]
      exact runs_operand ⟨2, 0⟩ rfl rfl rfl (runs_retIf hK)
  | @setStatic field value tail scope s v s₁ _ ih =>
    intro t ht n K hK
    cases ht with
    | setStatic hinfo _ hvalue hstored =>
      rw [htable] at hinfo
      have htype := ((hes _ List.mem_cons_self).self _ hinfo).2
      refine .append (ih htable hscope (.within hes (List.Subset.refl _)) _ hvalue n _ ?_)
      rw [TypeRef.width_of_ne (Hierarchy.ne_void_of_isAssignable hstored htype.ne_void)]
      exact runs_operand ⟨1, 0⟩ rfl rfl rfl (runs_retIf hK)
  | @new ctor args tail scope s as s₁ _ ih =>
    intro t ht n K hK
    cases ht with
    | new hctor _ hargs =>
      rw [htable] at hctor
      obtain ⟨howner, hparams⟩ := (hes _ List.mem_cons_self).self hctor
      rw [TypeRef.width_of_ne howner.ne_void] at hK
      refine .append (ih htable hscope (.within hes (List.Subset.refl _)) _ hargs
        (fun p hp => (hparams p hp).ne_void) n _ ?_)
      exact runs_operand ⟨ctor.params.length, 1⟩ rfl rfl rfl (runs_retIf hK)
  | @call target method args tail scope s b s₁ as s₂ _ _ iht ihargs =>
    intro t ht n K hK
    cases ht with
    | call hinfo hinstance htarget hassign hargs =>
      rw [htable] at hinfo
      obtain ⟨howner, hparams, -⟩ := (hes _ List.mem_cons_self).self _ hinfo
      have hvoid := Hierarchy.ne_void_of_isAssignable hassign howner.ne_void
      refine .append (.append (iht htable hscope (.within hes (by simp [Expr.children, Work.exprs])) _ htarget n _ ?_))
      refine ihargs htable hscope (.within hes (List.subset_cons_self _ _)) _ hargs
        (fun p hp => (hparams p hp).ne_void) _ _ ?_
      obtain ⟨htakes, -, hcall⟩ := MethodInfo.effect_of_info hinfo
      rw [hinstance, if_pos rfl] at htakes
      rw [TypeRef.width_of_ne hvoid, Nat.add_assoc, Nat.add_comm 1, ← htakes]
      exact runs_operand _ (hcall _) rfl rfl (runs_retIf hK)
  | @callStatic method args tail scope s as s₁ _ ih =>
    intro t ht n K hK
    cases ht with
    | callStatic hinfo hstatic hargs =>
      rw [htable] at hinfo
      obtain ⟨-, hparams, -⟩ := (hes _ List.mem_cons_self).self _ hinfo
      refine .append (ih htable hscope (.within hes (List.Subset.refl _)) _ hargs
        (fun p hp => (hparams p hp).ne_void) n _ ?_)
      obtain ⟨htakes, hcall, -⟩ := MethodInfo.effect_of_info hinfo
      rw [hstatic, if_neg Bool.false_ne_true] at htakes
      rw [← htakes]
      exact runs_operand _ (hcall _) rfl rfl (runs_retIf hK)
  | allNil =>
    intro params ht _ n K hK
    cases ht
    exact hK
  | allCons _ _ ihe ihes =>
    intro params ht hparams n K hK
    cases ht with
    | @argsCons _ _ _ _ param params he hassign hargs =>
      obtain ⟨hparam, hparams⟩ := List.forall_mem_cons.mp hparams
      refine .append (ihe htable hscope (fun e he => hes e (by simp_all [Work.exprs])) _ he n _ ?_)
      refine ihes htable hscope (fun e he => hes e (List.mem_cons_of_mem _ he)) _ hargs hparams _ _ ?_
      rw [TypeRef.width_of_ne (Hierarchy.ne_void_of_isAssignable hassign hparam), Nat.add_assoc, Nat.add_comm 1]
      exact hK
  | seqNil =>
    intro last t ht hlast n K hK
    cases ht
    rw [hlast rfl] at hK
    exact runs_retIf hK
  | seqLast _ ih =>
    intro last t ht _ n K hK
    cases ht with
    | seqCons he hrest =>
      cases hrest
      exact ih htable hscope hes _ he n K hK
  | seqCons htype _ _ ihe ihes =>
    intro last t ht _ n K hK
    cases ht with
    | seqCons he hrest =>
      cases Except.ok.inj ((Typed.iff_typeOf.mpr he).symm.trans htype)
      have hrest := ihes htable hscope (fun e he => hes e (List.mem_cons_of_mem _ he)) _ _ hrest
        (fun hnil => absurd hnil (List.cons_ne_nil _ _)) n K hK
      exact .append (.append (ihe htable hscope (fun e he => hes e (by simp_all [Work.exprs])) _ he n _
        (runs_discard hrest)))
  | shortNil =>
    intro _ n K hK
    exact runs_operand ⟨0, 1⟩ rfl rfl rfl (runs_retIf hK)
  | shortLast _ ih =>
    intro ht n K hK
    cases ht with
    | boolsCons he _ => exact ih htable hscope hes _ he n K hK
  | shortCons _ _ ihe ihes =>
    intro ht n K hK
    cases ht with
    | boolsCons he hrest =>
      refine controls.shortCircuit (fun K hK => ?_) (fun K hK hlabel => ?_) (fun K => runs_retIf) hK
      · exact ihe htable hscope (fun e he => hes e (by simp_all [Work.exprs])) _ he n K hK
      · exact ihes htable hscope (fun e he => hes e (List.mem_cons_of_mem _ he)) hrest ⟨_, rfl⟩
          (List.cons_ne_nil _ _) n K hK hlabel
  | operandsNil =>
    intro _ _ hne
    exact absurd rfl hne
  | operandsLast _ ih =>
    intro ht _ _ n K hK _
    cases ht with
    | boolsCons he _ => exact ih htable hscope hes _ he n K hK
  | operandsCons _ _ ihe ihes =>
    rintro ht ⟨isOr, rfl⟩ _ n K hK hlabel
    cases ht with
    | boolsCons he hrest =>
      have hrest := ihes htable hscope (fun e he => hes e (List.mem_cons_of_mem _ he)) hrest ⟨_, rfl⟩
        (List.cons_ne_nil _ _) n K hK
        hlabel
      refine .append (.append (ihe htable hscope (fun e he => hes e (by simp_all [Work.exprs])) _ he n _ ?_))
      exact controls.deciding isOr (label_ahead hlabel) hrest
  | casesNil | casesUnlabelled =>
    intro t _ s _ n K _ entry hentry
    cases hentry
  | casesDropped hempty _ ih =>
    intro t ht s hleave n K hends entry hentry hvalues
    cases ht with
    | casesCons _ hrest =>
      rcases List.mem_cons.mp hentry with rfl | hentry
      · cases hempty.symm.trans hvalues
      · exact ih htable hscope (fun e he => hes e (List.mem_cons_of_mem _ he)) _ hrest s hleave n K hends entry
          hentry hvalues
  | casesCons _ _ _ ihe ihcases =>
    rintro t ht s rfl n K hends entry hentry hvalues
    simp only [Block.append_code, Block.ofCode_code, Levels.ahead, ahead_append]
    cases ht with
    | casesCons he hrest =>
      rcases List.mem_cons.mp hentry with rfl | hentry
      · refine label_mark ?_
        exact ihe htable hscope (fun e he => hes e (by simp_all [Work.exprs])) _ he n _
          (controls.resumes_leaveTo hends.ahead)
      · refine label_ahead (label_ahead (label_ahead ?_))
        exact ihcases htable hscope (fun e he => hes e (List.mem_cons_of_mem _ he)) _ hrest s rfl n K hends entry
          hentry hvalues
  | bindingsNil =>
    intro seen types ht
    cases ht
    exact ⟨rfl, fun n K h => h⟩
  | @bindingsCons usages x value bs scope inner result s type v s₁ b s₂ boxed htype _ _ _ ihv ihbs =>
    intro seen types ht
    cases ht with
    | bindingsCons _ hvalue hvoid hrest =>
      cases Except.ok.inj ((Typed.iff_typeOf.mpr hvalue).symm.trans htype)
      obtain ⟨htypes, hrest⟩ := ihbs htable hscope (fun e he => hes e (List.mem_cons_of_mem _ he)) _ _ hrest
      refine ⟨htypes, fun n K h => .append (.append ?_)⟩
      refine ihv htable hscope (fun e he => hes e (by simp_all [Work.exprs])) _ hvalue n _ ?_
      rw [TypeRef.width_of_ne (TypeRef.ne_void_of_isVoid hvoid)]
      refine runs_climb (k := 1) (m := 0) ?_ (hrest n K h)
      cases boxed <;> rfl

/-! ## Bodies -/

/-- Nothing is void in a body but what members and delegates return. -/
structure Body.VoidFree (body : Body) (table : Table) : Prop where
  params : ∀ p ∈ body.params, p.type.VoidFree
  captures : ∀ c ∈ body.captures, c.type.VoidFree
  body : body.body.VoidFree table

/-- Nothing is void in the call of a base constructor but what members and delegates return. -/
structure BaseCall.VoidFree (base : BaseCall) (table : Table) : Prop where
  ctor : base.ctor.IsProper .bare table
  args : ∀ e ∈ base.args, e.VoidFree table

namespace Body

variable {body : Body} {h : Hierarchy} {s t : Supply} {b : Block} {scope : Scope} {usages : Usages}
  {options : BuildOptions}

theorem VoidFree.typeEnv (hbody : body.VoidFree h.table) : (body.typeEnv h).VoidFree := by
  have hbind {captures : List Capture} {env : TypeEnv} (henv : env.VoidFree)
      (hcaptures : ∀ c ∈ captures, c.type.VoidFree) :
      (captures.foldl (fun env c => env.bind c.name c.type) env).VoidFree := by
    induction captures generalizing env with
    | nil => exact henv
    | cons c captures ih =>
      obtain ⟨hc, hcaptures⟩ := List.forall_mem_cons.mp hcaptures
      exact ih (henv.bind hc) hcaptures
  refine hbind (TypeEnv.IsProper.bindParams ?_ hbody.params) hbody.captures
  intro entry hentry
  cases hentry

/-- A body is entered on the empty stack. -/
theorem runs_enter {K : Prospect Nat} (henter : (body.enter h usages).exec s = (.ok (b, scope), t)) (hK : K.here 0) :
    c.Runs b.code 0 K := by
  obtain ⟨outer, henters, -⟩ := of_enter henter
  exact Levels.runs_of_climb henters.climb_code hK

theorem scope_of_enter (henter : (body.enter h usages).exec s = (.ok (b, scope), t)) (hbody : body.VoidFree h.table) :
    scope.types.hierarchy.table = h.table ∧ scope.types.VoidFree := by
  rw [(enter_types henter).1, typeEnv_hierarchy]
  exact ⟨rfl, hbody.typeEnv⟩

theorem VoidFree.exprs (hbody : body.VoidFree h.table) {tail : Bool} :
    ∀ e ∈ (Work.expr body.body tail).exprs, e.VoidFree h.table := by
  intro e he
  cases List.mem_singleton.mp he
  exact hbody.body

/-- A method returns with its result on the stack, and nothing else. -/
theorem leads_compileMethod {returnType : TypeRef} (hc : (body.compileMethod h options returnType).exec s = (.ok b, t))
    (hbody : body.VoidFree h.table) : (⟨h.table, (· = returnType.width)⟩ : Levels).Runs b.code 0 .none := by
  obtain ⟨start, scope, s₁, type, code, henter, htype, hcode⟩ := of_compileMethod hc
  obtain ⟨htable, hscope⟩ := scope_of_enter henter hbody
  have htyped := Typed.of_typeOf _ htype
  rcases hcode with ⟨hreturn, hvoid, hlowers, rfl⟩ | ⟨-, hassign, hlowers, rfl⟩
  · -- the method is void, and the value of its body is dropped
    refine .append (.append (runs_enter henter (hlowers.leads htable hscope hbody.exprs type htyped 0 _ ?_)))
    rw [TypeRef.width_of_ne (TypeRef.ne_void_of_isVoid hvoid)]
    refine Levels.Runs.append (a := [.op .pop]) (Levels.runs_climb (n := 0) (k := 1) (m := 0) rfl ?_)
    rw [TypeRef.eq_void_of_isVoid hreturn]
    exact Levels.runs_ret TypeRef.width_void.symm
  · refine .append (runs_enter henter (hlowers.leads htable hscope hbody.exprs type htyped 0 _ ?_))
    exact (Nat.zero_add _).trans (Hierarchy.width_of_isAssignable hassign)

/-- A constructor returns with an empty stack. -/
theorem leads_compileConstructor {base : BaseCall} (hc : (body.compileConstructor h options base).exec s = (.ok b, t))
    (hbody : body.VoidFree h.table) (hbase : base.VoidFree h.table) :
    (⟨h.table, (· = 0)⟩ : Levels).Runs b.code 0 .none := by
  obtain ⟨this, params, start, scope, s₁, type, storage, args, s₂, code, -, henter, hdeclared, hlength, hcheck, htype,
    hthis, hargs, hcode, rfl⟩ := of_compileConstructor hc
  obtain ⟨htable, hscope⟩ := scope_of_enter henter hbody
  have henv : scope.types.hierarchy = h := by rw [(enter_types henter).1, typeEnv_hierarchy]
  have hparams : ∀ t ∈ base.ctor.params, t ≠ .void := fun t ht => ((hbase.ctor hdeclared).2 t ht).ne_void
  refine .append (.append (.append (.append (.append (runs_enter henter ?_)))))
  refine Levels.runs_climb (n := 0) (k := 0) storage.climb_fetch ?_
  refine hargs.leads (c := ⟨h.table, (· = 0)⟩) htable hscope hbase.args _ (typed_of_checkBaseArgs henv hlength hcheck)
    hparams 1 _ ?_
  rw [Nat.add_comm, ← Nat.zero_add (_ + 1)]
  show Levels.Runs _ [.callConstructor base.ctor] _ _
  refine Levels.runs_operand ⟨base.ctor.params.length + 1, 0⟩ rfl rfl rfl ?_
  refine hcode.leads htable hscope hbody.exprs type (.of_typeOf _ htype) 0 _ ?_
  have hend : (if type.isVoid then [Instr.op .ret] else [.op .pop, .op .ret]) =
      (if type.isVoid then [] else [.op .pop]) ++ [.op .ret] := by
    split <;> rfl
  rw [Block.ofCode_code, hend]
  exact Levels.Runs.append (Levels.runs_discard (Levels.runs_ret rfl))

end Body

theorem Levels.balanced_returns {width : Nat} (hc : c.returns = (· = width))
    (hlabels : ∀ x, Symbol.times b.definedLabels x ≤ 1) (h : c.Runs b.code 0 .none) :
    Balanced c.table b.code fun pc z => b.code[pc]? = some (.op .ret) ∧ z = width := by
  refine (Levels.balanced hlabels (fun _ _ hx => hx) h).mono ?_
  rintro pc z ⟨n, rfl, ⟨-, hnone⟩ | ⟨hret, hn⟩⟩
  · cases hnone
  · rw [hc] at hn
    exact ⟨hret, congrArg _ hn⟩

/-- Where nothing is void but what members and delegates return, no path through lowered code takes what it has not
    put on the stack. Every path through the code of an expression ends after it, with the value of the expression if
    it has one. Every path through the code of a method or of a constructor ends in a return, with the result and
    nothing else. -/
theorem lowered_code_is_balanced (options : BuildOptions) (h : Hierarchy) :
    (∀ (e : Expr) (scope : Scope) (type : TypeRef) (s t : Supply) (b : Block), scope.types.hierarchy = h →
      scope.types.VoidFree →
      e.VoidFree h.table → e.typeOf scope.types = .ok type → (e.lower options scope false).exec s = (.ok b, t) →
      Balanced h.table b.code fun pc z => pc = b.code.length ∧ z = type.width) ∧
    (∀ (body : Body) (returnType : TypeRef) (s t : Supply) (b : Block), body.VoidFree h.table →
      (body.compileMethod h options returnType).exec s = (.ok b, t) →
      Balanced h.table b.code fun pc z => b.code[pc]? = some (.op .ret) ∧ z = returnType.width) ∧
    ∀ (body : Body) (base : BaseCall) (s t : Supply) (b : Block), body.VoidFree h.table → base.VoidFree h.table →
      (body.compileConstructor h options base).exec s = (.ok b, t) →
      Balanced h.table b.code fun pc z => b.code[pc]? = some (.op .ret) ∧ z = 0 := by
  refine ⟨fun e scope type s t b hh hscope he htype hlower => ?_, fun body returnType s t b hbody hcompile => ?_,
    fun body base s t b hbody hbase hcompile => ?_⟩
  · have hlowers := Lowers.of_lower e hlower
    have hlabels : ∀ x, Symbol.times b.definedLabels x ≤ 1 := Made.labels_once hlowers.tidy
    have hruns : (⟨h.table, fun _ => False⟩ : Levels).Runs b.code 0 ⟨(· = type.width), fun _ _ => False⟩ := by
      refine hlowers.leads (hh ▸ rfl) hscope (fun e' he' => ?_) type (.of_typeOf e htype) 0 _ (Nat.zero_add _)
      cases List.mem_singleton.mp he'
      exact he
    refine (Levels.balanced hlabels (fun _ _ hx => hx) hruns).mono ?_
    rintro pc z ⟨n, rfl, ⟨hpc, hn⟩ | ⟨-, hnever⟩⟩
    · exact ⟨hpc, congrArg _ hn⟩
    · cases hnever
  · exact Levels.balanced_returns rfl (Body.compileMethod_made hcompile).labels_once
      (Body.leads_compileMethod hcompile hbody)
  · exact Levels.balanced_returns rfl (Body.compileConstructor_made hcompile).labels_once
      (Body.leads_compileConstructor hcompile hbody hbase)

/-- Counts down to zero, but forgets what it counts past nine. -/
def countsDown : Expr :=
  .ite (.or [.binary .eq (.var (.named "x")) (.literal (.i32 0)), .binary .gt (.var (.named "x")) (.literal (.i32 9))])
    (.literal (.i32 0)) (.binary .sub (.var (.named "x")) (.literal (.i32 1)))

def countsDownFrom : Body := { params := [⟨.named "this", .object⟩, ⟨.named "x", .i32⟩], body := countsDown }

/-- The number is an argument. -/
def countsDownScope : Scope := ({ types := { hierarchy := .bare } } : Scope).bind (.named "x") (.argument 1 .i32)

theorem countsDown_is_balanced :
    (∃ b t, (countsDown.lower {} countsDownScope false).exec {} = (.ok b, t) ∧
      Balanced ∅ b.code fun pc z => pc = b.code.length ∧ z = 1) ∧
    (∃ b t, (countsDownFrom.compileMethod .bare {} .i32).exec {} = (.ok b, t) ∧
      Balanced ∅ b.code fun pc z => b.code[pc]? = some (.op .ret) ∧ z = 1) ∧
    ∃ b t, (countsDownFrom.compileConstructor .bare {} ⟨.existing ⟨.object, []⟩, []⟩).exec {} = (.ok b, t) ∧
      Balanced ∅ b.code fun pc z => b.code[pc]? = some (.op .ret) ∧ z = 0 := by
  have hx : (Expr.var (.named "x")).VoidFree ∅ := Expr.Everywhere.iff_children.mpr ⟨trivial, by simp [Expr.children]⟩
  have hn (n : Int32) : (Expr.literal (.i32 n)).VoidFree ∅ := Expr.Everywhere.iff_children.mpr
    ⟨trivial, by simp [Expr.children]⟩
  have hbinary (op : BinaryOp) (n : Int32) : (Expr.binary op (.var (.named "x")) (.literal (.i32 n))).VoidFree ∅ :=
    Expr.Everywhere.iff_children.mpr ⟨trivial, by simp [Expr.children, hx, hn]⟩
  have hor : (Expr.or [.binary .eq (.var (.named "x")) (.literal (.i32 0)),
      .binary .gt (.var (.named "x")) (.literal (.i32 9))]).VoidFree ∅ :=
    Expr.Everywhere.iff_children.mpr ⟨trivial, by simp [Expr.children, hbinary]⟩
  have hfree : countsDown.VoidFree ∅ := Expr.Everywhere.iff_children.mpr
    ⟨trivial, by simp [countsDown, Expr.children, hor, hn, hbinary]⟩
  have hbody : countsDownFrom.VoidFree ∅ := ⟨by simp [countsDownFrom, TypeRef.Proper], by simp [countsDownFrom], hfree⟩
  have hbase : BaseCall.VoidFree ⟨.existing ⟨.object, []⟩, []⟩ ∅ := by
    refine ⟨fun _ => ⟨fun h => (nomatch h), fun t ht => ?_⟩, fun e he => ?_⟩
    · cases ht
    · cases he
  have hscope : countsDownScope.types.VoidFree := by
    refine TypeEnv.IsProper.bind (fun entry hentry => ?_) (fun h => nomatch h)
    cases hentry
  have hok {α : Type} {r : Except BuildError α × Supply} (hr : r.1.isOk = true) : ∃ b t, r = (.ok b, t) := by
    obtain ⟨_ | b, t⟩ := r
    · cases hr
    · exact ⟨b, t, rfl⟩
  obtain ⟨hexpr, hmethod, hctor⟩ := lowered_code_is_balanced {} .bare
  refine ⟨?_, ?_, ?_⟩
  · obtain ⟨b, t, hb⟩ := hok (r := (countsDown.lower {} countsDownScope false).exec {}) (by decide +kernel)
    exact ⟨b, t, hb, hexpr _ _ .i32 _ _ _ rfl hscope hfree rfl hb⟩
  · obtain ⟨b, t, hb⟩ := hok (r := (countsDownFrom.compileMethod .bare {} .i32).exec {}) (by decide +kernel)
    exact ⟨b, t, hb, hmethod _ _ _ _ _ hbody hb⟩
  · obtain ⟨b, t, hb⟩ := hok (r := (countsDownFrom.compileConstructor .bare {} ⟨.existing ⟨.object, []⟩, []⟩).exec {})
      (by decide +kernel)
    exact ⟨b, t, hb, hctor _ _ _ _ _ hbody hbase hb⟩

end Stackwright
