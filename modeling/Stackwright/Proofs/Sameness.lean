import Stackwright.Proofs.Related
import Stackwright.Proofs.Tidy
import Stackwright.Module.Closures

/-
  Stackwright.Proofs.Sameness — comparing expressions and closure layouts as written.

  Comparison is not reflexive, since a NaN differs from itself, but it is symmetric and
  transitive: two layouts that agree with a third agree with each other.
  - `Expr.same_symm`, `Expr.same_trans`: expressions.
-/

namespace Stackwright

variable {a b : Float.Model.UnpackedFloat} {α : Type}

/-! ## Literals -/

theorem finite_beq_iff {s t : Float.Model.UnpackedFloat.Sign} {m n : Nat} {e f : Int} {hm : 0 < m} {hn : 0 < n} :
    (Float.Model.UnpackedFloat.finite s m e hm).beq (.finite t n f hn) ↔ s = t ∧ m = n ∧ e = f := by
  cases s <;> cases t
  · show (some ((compare e f).then (compare m n)).swap == some Ordering.eq) = true ↔ _
    simp [Ordering.then_eq_eq, and_comm]
  · exact iff_of_false (fun h => by cases h) fun h => by cases h.1
  · exact iff_of_false (fun h => by cases h) fun h => by cases h.1
  · show (some ((compare e f).then (compare m n)) == some Ordering.eq) = true ↔ _
    simp [Ordering.then_eq_eq, and_comm]

/-- Zeros are equal whatever their signs, and a NaN is equal to nothing; other numbers are compared as they are. -/
theorem unpacked_beq_iff : a.beq b ↔
    (∃ s t, a = .zero s ∧ b = .zero t) ∨ a = b ∧ a ≠ .notANumber := by
  constructor
  · intro h
    cases a with
    | notANumber => cases h
    | zero s =>
      cases b with
      | zero t => exact .inl ⟨s, t, rfl, rfl⟩
      | infinity t | finite t m e _ => cases t <;> cases h
      | notANumber => cases h
    | infinity s =>
      refine .inr ⟨?_, fun h => by cases h⟩
      cases b with
      | infinity t => cases s <;> cases t <;> first | rfl | cases h
      | _ => cases s <;> cases h
    | finite s m e _ =>
      refine .inr ⟨?_, fun h => by cases h⟩
      cases b with
      | finite t n f _ =>
        obtain ⟨rfl, rfl, rfl⟩ := finite_beq_iff.mp h
        rfl
      | infinity t => cases s <;> cases t <;> cases h
      | zero t => cases s <;> cases h
      | notANumber => cases s <;> cases h
  · rintro (⟨s, t, rfl, rfl⟩ | ⟨rfl, hne⟩)
    · rfl
    · cases a with
      | notANumber => exact absurd rfl hne
      | zero => rfl
      | infinity s => cases s <;> rfl
      | finite => exact finite_beq_iff.mpr ⟨rfl, rfl, rfl⟩

theorem unpacked_beq_symm (h : a.beq b) : b.beq a := by
  rcases unpacked_beq_iff.mp h with ⟨s, t, rfl, rfl⟩ | ⟨rfl, -⟩
  · exact unpacked_beq_iff.mpr (.inl ⟨t, s, rfl, rfl⟩)
  · exact h

theorem unpacked_beq_trans {c : Float.Model.UnpackedFloat} (hab : a.beq b) (hbc : b.beq c) : a.beq c := by
  rcases unpacked_beq_iff.mp hab with ⟨s, t, rfl, rfl⟩ | ⟨rfl, -⟩
  · rcases unpacked_beq_iff.mp hbc with ⟨_, u, -, rfl⟩ | ⟨rfl, -⟩
    · exact unpacked_beq_iff.mpr (.inl ⟨s, u, rfl, rfl⟩)
    · exact hab
  · exact hbc

instance floatPartialEquivBEq : PartialEquivBEq Float := ⟨unpacked_beq_symm, unpacked_beq_trans⟩

instance float32PartialEquivBEq : PartialEquivBEq Float32 := ⟨unpacked_beq_symm, unpacked_beq_trans⟩

instance : PartialEquivBEq Literal where
  symm {a b} h := by
    cases a <;> cases b <;> first
      | contradiction
      | rename_i v w
        exact (BEq.symm (show (v == w) = true from h) : (w == v) = true)
  trans {a b c} hab hbc := by
    cases a <;> cases b <;> try contradiction
    all_goals cases c <;> first
      | contradiction
      | rename_i u v w
        exact (BEq.trans (show (u == v) = true from hab) (show (v == w) = true from hbc) : (u == w) = true)

/-! ## Parameters -/

/-- Parameters agree when their names are the same symbol and their types are equal. -/
theorem Param.beq_iff {p q : Param} : (p == q) ↔ (p.name == q.name) ∧ p.type = q.type := by
  obtain ⟨x, t⟩ := p
  obtain ⟨y, u⟩ := q
  show (x == y && t == u) = true ↔ _
  rw [Bool.and_eq_true, @beq_iff_eq TypeRef]

instance : PartialEquivBEq Param where
  symm {p q} h := by
    rw [Param.beq_iff] at h ⊢
    exact ⟨BEq.symm h.1, h.2.symm⟩
  trans {p q r} hpq hqr := by
    rw [Param.beq_iff] at hpq hqr ⊢
    exact ⟨BEq.trans hpq.1 hqr.1, hpq.2.trans hqr.2⟩

theorem list_beq_iff [BEq α] {as bs : List α} : (as == bs) ↔ List.Forall₂ (fun a b => (a == b)) as bs := by
  induction as generalizing bs with
  | nil => cases bs <;> simp
  | cons a as ih => cases bs <;> simp [ih]

instance listPartialEquivBEq {α : Type} [BEq α] [PartialEquivBEq α] : PartialEquivBEq (List α) where
  symm {as bs} h := by
    rw [list_beq_iff] at h ⊢
    exact h.flip.imp fun _ _ => BEq.symm
  trans {as bs cs} hab hbc := by
    rw [list_beq_iff] at hab hbc ⊢
    exact @forall₂_trans α (fun a b => (a == b)) BEq.trans as bs cs hab hbc

/-! ## Expressions -/

namespace Expr

theorem same_symm {a b : Expr} (h : a.same b) : b.same a := by
  revert h
  apply same.induct (fun a b => a.same b → b.same a)
    (fun as bs => sameBindings as bs → sameBindings bs as)
    (fun as bs => sameCases as bs → sameCases bs as)
    (fun as bs => sameAll as bs → sameAll bs as)
  case case21 | case24 | case27 | case30 =>
    intros
    rename_i h
    first | rw [same.eq_21] at h | rw [sameBindings.eq_3] at h | rw [sameCases.eq_3] at h | rw [sameAll.eq_3] at h
    · cases h
    all_goals assumption
  all_goals
    intros
    rename_i h
    simp only [same, sameBindings, sameCases, sameAll, Bool.and_eq_true] at h ⊢
  case case1 | case2 | case15 => exact BEq.symm h
  case case3 ih | case13 ih | case17 ih | case18 ih | case20 ih => exact ⟨BEq.symm h.1, ih h.2⟩
  case case4 ih | case5 ih | case6 ih => exact ih h
  case case7 iha ihb ihc | case8 iha ihb ihc => exact ⟨⟨iha h.1.1, ihb h.1.2⟩, ihc h.2⟩
  case case9 iha ihb | case11 iha ihb | case29 iha ihb => exact ⟨iha h.1, ihb h.2⟩
  case case10 ih => exact ⟨⟨BEq.symm h.1.1, BEq.symm h.1.2⟩, ih h.2⟩
  case case12 iha ihb | case23 iha ihb | case26 iha ihb => exact ⟨⟨BEq.symm h.1.1, iha h.1.2⟩, ihb h.2⟩
  case case14 ih => exact ⟨ih h.1, BEq.symm h.2⟩
  case case16 iha ihb | case19 iha ihb => exact ⟨⟨iha h.1.1, BEq.symm h.1.2⟩, ihb h.2⟩

/-- Expressions that agree are made by the same construct. -/
theorem ctorIdx_of_same {a b : Expr} (h : a.same b) : a.ctorIdx = b.ctorIdx := by
  unfold same at h
  split at h <;> first | rfl | cases h

theorem same_trans {a b : Expr} (hab : a.same b) : ∀ c, b.same c → a.same c := by
  revert hab
  apply same.induct (fun a b => a.same b → ∀ c, b.same c → a.same c)
    (fun as bs => sameBindings as bs → ∀ cs, sameBindings bs cs → sameBindings as cs)
    (fun as bs => sameCases as bs → ∀ cs, sameCases bs cs → sameCases as cs)
    (fun as bs => sameAll as bs → ∀ cs, sameAll bs cs → sameAll as cs)
  case case21 | case24 | case27 | case30 =>
    intros
    rename_i h _ _
    first | rw [same.eq_21] at h | rw [sameBindings.eq_3] at h | rw [sameCases.eq_3] at h | rw [sameAll.eq_3] at h
    · cases h
    all_goals assumption
  case case22 => intro _ cs hbc; exact hbc
  case case25 => intro _ cs hbc; exact hbc
  case case28 => intro _ cs hbc; exact hbc
  case case23 =>
    intro x a as y b bs iha ihas hab cs hbc
    rcases cs with _ | ⟨⟨z, c⟩, cs⟩ <;> simp only [sameBindings, Bool.and_eq_true, Bool.false_eq_true] at hab hbc ⊢
    exact ⟨⟨BEq.trans hab.1.1 hbc.1.1, iha hab.1.2 _ hbc.1.2⟩, ihas hab.2 _ hbc.2⟩
  case case26 =>
    intro u a as v b bs iha ihas hab cs hbc
    rcases cs with _ | ⟨⟨w, c⟩, cs⟩ <;> simp only [sameCases, Bool.and_eq_true, Bool.false_eq_true] at hab hbc ⊢
    exact ⟨⟨BEq.trans hab.1.1 hbc.1.1, iha hab.1.2 _ hbc.1.2⟩, ihas hab.2 _ hbc.2⟩
  case case29 =>
    intro a as b bs iha ihas hab cs hbc
    cases cs <;> simp only [sameAll, Bool.and_eq_true, Bool.false_eq_true] at hab hbc ⊢
    exact ⟨iha hab.1 _ hbc.1, ihas hab.2 _ hbc.2⟩
  all_goals
    intros
    rename_i hab c hbc
    cases c <;> try cases ctorIdx_of_same hbc
  all_goals simp only [same, Bool.and_eq_true] at hab hbc ⊢
  case case1.literal.refl | case2.var.refl | case15.getStatic.refl => exact BEq.trans hab hbc
  case case3.assign.refl ih _ _ | case13.unary.refl ih _ _ | case17.setStatic.refl ih _ _ | case18.new.refl ih _ _
      | case20.callStatic.refl ih _ _ =>
    exact ⟨BEq.trans hab.1 hbc.1, ih hab.2 _ hbc.2⟩
  case case4.seq.refl ih _ | case5.and.refl ih _ | case6.or.refl ih _ => exact ih hab _ hbc
  case case7.ite.refl iha ihb ihc _ _ _ | case8.switch.refl iha ihb ihc _ _ _ =>
    exact ⟨⟨iha hab.1.1 _ hbc.1.1, ihb hab.1.2 _ hbc.1.2⟩, ihc hab.2 _ hbc.2⟩
  case case9.letIn.refl iha ihb _ _ | case11.invoke.refl iha ihb _ _ => exact ⟨iha hab.1 _ hbc.1, ihb hab.2 _ hbc.2⟩
  case case10.lambda.refl ih _ _ _ => exact ⟨⟨BEq.trans hab.1.1 hbc.1.1, BEq.trans hab.1.2 hbc.1.2⟩, ih hab.2 _ hbc.2⟩
  case case12.binary.refl iha ihb _ _ _ => exact ⟨⟨BEq.trans hab.1.1 hbc.1.1, iha hab.1.2 _ hbc.1.2⟩, ihb hab.2 _ hbc.2⟩
  case case14.getField.refl ih _ _ => exact ⟨ih hab.1 _ hbc.1, BEq.trans hab.2 hbc.2⟩
  case case16.setField.refl iha ihb _ _ _ | case19.call.refl iha ihb _ _ _ =>
    exact ⟨⟨iha hab.1.1 _ hbc.1.1, BEq.trans hab.1.2 hbc.1.2⟩, ihb hab.2 _ hbc.2⟩

end Expr

instance : PartialEquivBEq Expr where
  symm := Expr.same_symm
  trans hab hbc := Expr.same_trans hab _ hbc

/-! ## Closure layouts -/

namespace ClosureLayout

/-- Layouts that agree: the same variables with the same types, the same parameters and result, the same body. -/
structure Alike (a b : ClosureLayout) : Prop where
  key : a.key = b.key
  captures : List.Forall₂ (fun c d => (c.1 == d.1) ∧ c.2 = d.2) a.captures b.captures
  params : List.Forall₂ (fun p q => (p.name == q.name) ∧ p.type = q.type) a.params b.params
  returnType : a.returnType = b.returnType
  body : a.body = b.body ∨ (a.body == b.body) = true

variable {a b c : ClosureLayout}

theorem Alike.refl (a : ClosureLayout) : a.Alike a where
  key := rfl
  captures := List.forall₂_same.mpr fun _ _ => ⟨BEq.rfl, rfl⟩
  params := List.forall₂_same.mpr fun _ _ => ⟨BEq.rfl, rfl⟩
  returnType := rfl
  body := .inl rfl

theorem Alike.symm (h : a.Alike b) : b.Alike a where
  key := h.key.symm
  captures := h.captures.flip.imp fun _ _ hc => ⟨BEq.symm hc.1, hc.2.symm⟩
  params := h.params.flip.imp fun _ _ hp => ⟨BEq.symm hp.1, hp.2.symm⟩
  returnType := h.returnType.symm
  body := h.body.imp Eq.symm BEq.symm

theorem Alike.trans (hab : a.Alike b) (hbc : b.Alike c) : a.Alike c where
  key := hab.key.trans hbc.key
  captures := forall₂_trans (fun hc hd => ⟨BEq.trans hc.1 hd.1, hc.2.trans hd.2⟩) hab.captures hbc.captures
  params := forall₂_trans (fun hp hq => ⟨BEq.trans hp.1 hq.1, hp.2.trans hq.2⟩) hab.params hbc.params
  returnType := hab.returnType.trans hbc.returnType
  body := by
    rcases hab.body with hab | hab
    · rw [hab]
      exact hbc.body
    rcases hbc.body with hbc | hbc
    · exact .inr (hbc ▸ hab)
    · exact .inr (BEq.trans hab hbc)

theorem params_of_beq {ps qs : List Param} (h : ps == qs) :
    List.Forall₂ (fun p q => (p.name == q.name) ∧ p.type = q.type) ps qs :=
  (list_beq_iff.mp h).imp fun _ _ => Param.beq_iff.mp

theorem alike_of_beq (h : a == b) : a.Alike b := by
  obtain ⟨key, captures, params, returnType, body⟩ := a
  obtain ⟨key', captures', params', returnType', body'⟩ := b
  replace h : (key == key' && (captures == captures' && (params == params' &&
    (returnType == returnType' && body == body')))) = true := h
  simp only [Bool.and_eq_true, @beq_iff_eq TypeKey, @beq_iff_eq TypeRef] at h
  obtain ⟨hkey, hcaptures, hparams, hreturn, hbody⟩ := h
  refine ⟨hkey, (list_beq_iff.mp hcaptures).imp fun c d hcd => ?_, params_of_beq hparams, hreturn, .inr hbody⟩
  replace hcd : (c.1 == d.1 && c.2 == d.2) = true := hcd
  rwa [Bool.and_eq_true, @beq_iff_eq TypeRef] at hcd

theorem Capture.beq_iff {c d : Capture} : (c == d) ↔ (c.name == d.name) ∧ c.type = d.type ∧ c.field = d.field := by
  obtain ⟨x, t, f⟩ := c
  obtain ⟨y, u, g⟩ := d
  show (x == y && (t == u && f == g)) = true ↔ _
  simp only [Bool.and_eq_true, @beq_iff_eq TypeRef, @beq_iff_eq FieldRef]

/-- The fields that hold a closure's cells. -/
def cellFields (l : ClosureLayout) : List FieldDefinition := l.captures.map fun c =>
  { name := (l.field c.1).name, attributes := { isPrivate := true }, fieldType := .cell c.2 }

/-- The constructor that fills a closure's fields. -/
def maker (l : ClosureLayout) : ConstructorDefinition where
  attributes := { isPublic := true }
  body := .code l.cellTypes
    { code := [.loadArg 0, .callConstructor (.existing .object)] ++ l.storeCells 1 l.captures ++ [.op .ret] }

/-- The method that runs a closure's body. -/
def invokeMethod (l : ClosureLayout) : MethodDefinition where
  name := invokeName
  attributes := { isPublic := true, isFinal := true }
  returnType := l.returnType
  body := .expr l.invokeBody

theorem definition_members (l : ClosureLayout) :
    l.definition.members = l.cellFields.map .field ++ [.constructor l.maker] ++ [.method l.invokeMethod] := by
  rw [cellFields, List.map_map, List.append_assoc]
  rfl

theorem definition_injective (h : a.definition = b.definition) : a = b := by
  have hmembers : a.definition.members = b.definition.members := by rw [h]
  have hkey : a.key = b.key := congrArg TypeDefinition.key h
  rw [definition_members, definition_members] at hmembers
  have hlast := (List.append_inj' hmembers rfl).2
  simp only [List.cons.injEq, Member.method.injEq, and_true, invokeMethod, MethodDefinition.mk.injEq,
    MethodBody.expr.injEq, invokeBody, Body.mk.injEq, true_and] at hlast
  obtain ⟨hreturn, hparams, hcaptures, hbody⟩ := hlast
  have hsame : a.captures = b.captures := by
    simpa [Function.comp_def] using congrArg (List.map fun c : Capture => (c.name, c.type)) hcaptures
  cases a
  cases b
  simp_all

/-- The last member of a closure's definition runs the body, and says all that layouts agree on. -/
theorem alike_of_definition (h : a.definition == b.definition) : a.Alike b := by
  replace h : (a.key == b.key && (_ && (_ && (_ && a.definition.members == b.definition.members)))) = true := h
  simp only [Bool.and_eq_true, @beq_iff_eq TypeKey] at h
  obtain ⟨hkey, -, -, -, hmembers⟩ := h
  rw [list_beq_iff, definition_members, definition_members] at hmembers
  have hlast := last_of_forall₂ hmembers
  replace hlast : (a.invokeMethod == b.invokeMethod) := hlast
  replace hlast : (invokeName == invokeName && (a.invokeMethod.attributes == b.invokeMethod.attributes &&
    (a.returnType == b.returnType && a.invokeMethod.body == b.invokeMethod.body))) = true := hlast
  simp only [Bool.and_eq_true, @beq_iff_eq TypeRef] at hlast
  obtain ⟨-, -, hreturn, hbody⟩ := hlast
  replace hbody : (a.invokeBody == b.invokeBody) := hbody
  replace hbody : (a.invokeBody.params == b.invokeBody.params && (a.invokeBody.captures == b.invokeBody.captures &&
    a.body == b.body)) := hbody
  simp only [Bool.and_eq_true] at hbody
  obtain ⟨hparams, hcaptures, hbody⟩ := hbody
  have hcaptures := list_beq_iff.mp hcaptures
  rw [invokeBody, invokeBody, List.forall₂_map_left_iff, List.forall₂_map_right_iff] at hcaptures
  refine ⟨hkey, hcaptures.imp fun c d hcd => ?_, ?_, hreturn, .inr hbody⟩
  · obtain ⟨hname, htype, -⟩ := Capture.beq_iff.mp hcd
    exact ⟨hname, htype⟩
  · cases params_of_beq hparams with
    | cons _ hrest => exact hrest

end ClosureLayout

end Stackwright
