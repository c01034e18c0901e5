import Stackwright.Proofs.Effects
import Stackwright.Expr.Lowering

/-
  Stackwright.Proofs.Lowers — what a successful lowering is made of.

  `Lowers work scope s b t` says that lowering a piece of work in a scope, with the supply at
  `s`, gives the block `b` and leaves the supply at `t`. There is one rule per construct, with
  the blocks of its parts as premises; the lists that a construct lowers (operands, cases,
  bindings) are pieces of work of their own, so that one induction covers them all.

  - `Lowers.of_lower`: every successful lowering has such a derivation.
  - `Body.of_compileMethod`, `Body.of_compileConstructor`: what the code of a body is made of.
-/

namespace Stackwright

/-! ## Drawing names -/

namespace Supply

/-- The label that is drawn next. -/
def label (s : Supply) : Symbol := .generated s.next (some "L")

/-- The local that is drawn next for a variable. -/
def slot (s : Supply) (name : Symbol) : Symbol := .generated s.next (some (name.hint?.getD "t"))

/-- The supply after some draws. -/
def skip (s : Supply) (n : Nat) : Supply := { next := s.next + n }

/-- The labels drawn next. -/
def labels (s : Supply) : Nat → List Symbol
  | 0 => []
  | n + 1 => s.label :: (s.skip 1).labels n

@[simp] theorem skip_next (s : Supply) (n : Nat) : (s.skip n).next = s.next + n := rfl

@[simp] theorem skip_zero (s : Supply) : s.skip 0 = s := rfl

@[simp] theorem skip_skip (s : Supply) (m n : Nat) : (s.skip m).skip n = s.skip (m + n) := by
  simp [skip, Nat.add_assoc]

@[simp] theorem length_labels (s : Supply) (n : Nat) : (s.labels n).length = n := by
  induction n generalizing s with
  | zero => rfl
  | succ n ih => simp [labels, ih]

end Supply

@[simp] theorem exec_freshLabel (s : Supply) : freshLabel.exec s = (.ok s.label, s.skip 1) := rfl

@[simp] theorem exec_freshLocal (name : Symbol) (s : Supply) :
    (freshLocal name).exec s = (.ok (s.slot name), s.skip 1) := rfl

@[simp] theorem exec_freshLabels (n : Nat) (s : Supply) : (freshLabels n).exec s = (.ok (s.labels n), s.skip n) := by
  induction n generalizing s with
  | zero => rfl
  | succ n ih => simp [freshLabels, Effect.exec_bind, ih, Supply.labels, Nat.add_comm]

/-! ## Derivations -/

/-- The label after the parts of a construct that is not in tail position. -/
def endLabel? (tail : Bool) (s : Supply) : Option Symbol := if tail then none else some s.label

/-- Jumps to the end of a construct that is not in tail position. -/
def leaveTo (tail : Bool) (s : Supply) : List Instr := (endLabel? tail s).toList.map (.branch .always)

/-- Marks the end of a construct that is not in tail position. -/
def endMark (tail : Bool) (s : Supply) : List Instr := (endLabel? tail s).toList.map .label

/-- The supply after the end label, if one was drawn. -/
def afterEnd (tail : Bool) (s : Supply) : Supply := if tail then s else s.skip 1

/-- The code that chooses a case by the value on top. -/
def dispatchCode (size : Nat) (wide : Bool) (table : List Symbol) (fallback : Symbol) (s : Supply) :
    List Instr :=
  if size == 0 then [.op .pop]
  else (if wide then wideGuard size s.label fallback else []) ++ [.switch table]

/-- The supply after choosing a case. -/
def afterDispatch (size : Nat) (wide : Bool) (s : Supply) : Supply :=
  if size == 0 then s else if wide then s.skip 1 else s

@[simp] theorem exec_freshEnd? (tail : Bool) (s : Supply) :
    (freshEnd? tail).exec s = (.ok (endLabel? tail s), afterEnd tail s) := by
  cases tail <;> rfl

@[simp] theorem exec_dispatch (cases : List CaseValues) (wide : Bool) (labels : List Symbol) (fallback : Symbol)
    (s : Supply) : (dispatch cases wide labels fallback).exec s =
      (.ok (dispatchCode (tableSize cases) wide (dispatchTable cases labels fallback) fallback s),
        afterDispatch (tableSize cases) wide s) := by
  unfold dispatch dispatchCode afterDispatch
  split
  · rfl
  · cases wide <;> rfl

/-- A 64-bit value is compared with the table's size before it is cut to 32 bits. -/
def isWide (type : TypeRef) : Bool := type.isPrimitiveWith (· == .u64)

/-- What can be lowered: an expression, or one of the lists inside an expression. -/
inductive Work where
  | expr (e : Expr) (tail : Bool)
  | all (es : List Expr)
  | seq (es : List Expr) (tail : Bool)
  | shortCircuit (isOr : Bool) (es : List Expr) (tail : Bool)
  | operands (kind : BranchKind) (decided : Symbol) (es : List Expr) (tail : Bool)
  | cases (cs : List (CaseValues × Expr)) (labels : List Symbol) (leave : List Instr) (tail : Bool)
  /-- Bindings on top of `inner` lead to the scope `result`. -/
  | bindings (usages : Usages) (bs : List (Symbol × Expr)) (inner result : Scope)

/-- The branch that lets an operand decide. -/
def decidingBranch (isOr : Bool) : BranchKind := if isOr then .true else .false

inductive Lowers (options : BuildOptions) : Work → Scope → Supply → Block → Supply → Prop
  | literal {v tail scope s} :
      Lowers options (.expr (.literal v) tail) scope s (.ofCode (v.code ++ retIf tail)) s
  | var {x tail scope s storage} : scope.storage x (.var x) = .ok storage →
      Lowers options (.expr (.var x) tail) scope s (.ofCode (storage.fetch ++ retIf tail)) s
  | assign {x e tail scope s storage v s₁} : scope.storage x (.assign x e) = .ok storage →
      Lowers options (.expr e false) scope s v s₁ →
      Lowers options (.expr (.assign x e) tail) scope s { v with code := storage.store v.code ++ retIf tail } s₁
  | seq {es tail scope s b s₁} : Lowers options (.seq es tail) scope s b s₁ →
      Lowers options (.expr (.seq es) tail) scope s b s₁
  | and {es tail scope s b s₁} : Lowers options (.shortCircuit false es tail) scope s b s₁ →
      Lowers options (.expr (.and es) tail) scope s b s₁
  | or {es tail scope s b s₁} : Lowers options (.shortCircuit true es tail) scope s b s₁ →
      Lowers options (.expr (.or es) tail) scope s b s₁
  | ite {c t f tail scope s cb s₁ tb s₂ fb s₃} :
      Lowers options (.expr c false) scope (s.skip 1) cb s₁ → Lowers options (.expr t tail) scope s₁ tb s₂ →
      Lowers options (.expr f tail) scope (afterEnd tail s₂) fb s₃ →
      Lowers options (.expr (.ite c t f) tail) scope s
        (cb ++ .ofCode [.branch .false s.label] ++ tb ++ .ofCode (leaveTo tail s₂ ++ [.label s.label]) ++ fb ++
          .ofCode (endMark tail s₂)) s₃
  | switch {value cases fallback tail scope s type v s₁ fb s₅ cb s₆} {claims : List CaseValues} {size n : Nat}
      {s₂ s₃ : Supply} {dispatch : List Instr} :
      claims = cases.map (·.1) → size = tableSize claims → n = cases.length →
      checkDispatch options claims = .ok () → value.typeOf scope.types = .ok type →
      Lowers options (.expr value false) scope s v s₁ →
      s₂ = s₁.skip (1 + n) → s₃ = afterDispatch size (isWide type) s₂ →
      dispatch = dispatchCode size (isWide type) (dispatchTable claims ((s₁.skip 1).labels n) s₁.label)
        s₁.label s₂ →
      Lowers options (.expr fallback tail) scope (afterEnd tail s₃) fb s₅ →
      Lowers options (.cases cases ((s₁.skip 1).labels n) (leaveTo tail s₃) tail) scope s₅ cb s₆ →
      Lowers options (.expr (.switch value cases fallback) tail) scope s
        (v ++ .ofCode (dispatch ++ [.label s₁.label]) ++ fb ++ .ofCode (leaveTo tail s₃) ++ cb ++
          .ofCode (endMark tail s₃)) s₆
  | letIn {bs body tail scope inner s vb s₁ b s₂} :
      Lowers options (.bindings body.usages bs scope inner) scope s vb s₁ →
      Lowers options (.expr body tail) inner s₁ b s₂ →
      Lowers options (.expr (.letIn bs body) tail) scope s (vb ++ b) s₂
  | lambda {x ps body tail scope s delegate cells types} :
      (Expr.lambda x ps body).typeOf scope.types = .ok delegate →
      captureCells scope (.lambda x ps body) (Expr.lambda x ps body).usages.keys = .ok (cells, types) →
      Lowers options (.expr (.lambda x ps body) tail) scope s
        (.ofCode (cells ++
          [.newObject (.deferred ((closureKey x).constructor types)),
           .newDelegate delegate (.deferred ((closureKey x).method invokeName (ps.map (·.type)) true))] ++
          retIf tail)) s
  | invoke {function args tail scope s delegate f s₁ as s₂} : function.typeOf scope.types = .ok delegate →
      Lowers options (.expr function false) scope s f s₁ → Lowers options (.all args) scope s₁ as s₂ →
      Lowers options (.expr (.invoke function args) tail) scope s
        (f ++ as ++ .ofCode (.invokeDelegate delegate (tail && options.tailCalls) :: retIf tail)) s₂
  | binary {op left right tail scope s type l s₁ r s₂} : left.typeOf scope.types = .ok type →
      Lowers options (.expr left false) scope s l s₁ → Lowers options (.expr right false) scope s₁ r s₂ →
      Lowers options (.expr (.binary op left right) tail) scope s
        (l ++ r ++ .ofCode (op.code type.primitive? ++ retIf tail)) s₂
  | unary {op operand tail scope s type v s₁} : operand.typeOf scope.types = .ok type →
      Lowers options (.expr operand false) scope s v s₁ →
      Lowers options (.expr (.unary op operand) tail) scope s
        (v ++ .ofCode (op.code type.primitive? ++ retIf tail)) s₁
  | getField {target field tail scope s t s₁} : Lowers options (.expr target false) scope s t s₁ →
      Lowers options (.expr (.getField target field) tail) scope s
        (t ++ .ofCode (.loadField field :: retIf tail)) s₁
  | getStatic {field tail scope s} :
      Lowers options (.expr (.getStatic field) tail) scope s (.ofCode (.loadStatic field :: retIf tail)) s
  | setField {target field value tail scope s t s₁ v s₂} : Lowers options (.expr target false) scope s t s₁ →
      Lowers options (.expr value false) scope s₁ v s₂ →
      Lowers options (.expr (.setField target field value) tail) scope s
        (t ++ v ++ .ofCode (.storeField field :: retIf tail)) s₂
  | setStatic {field value tail scope s v s₁} : Lowers options (.expr value false) scope s v s₁ →
      Lowers options (.expr (.setStatic field value) tail) scope s
        (v ++ .ofCode (.storeStatic field :: retIf tail)) s₁
  | new {ctor args tail scope s as s₁} : Lowers options (.all args) scope s as s₁ →
      Lowers options (.expr (.new ctor args) tail) scope s (as ++ .ofCode (.newObject ctor :: retIf tail)) s₁
  | call {target method args tail scope s t s₁ as s₂} : Lowers options (.expr target false) scope s t s₁ →
      Lowers options (.all args) scope s₁ as s₂ →
      Lowers options (.expr (.call target method args) tail) scope s
        (t ++ as ++ .ofCode (.callVirtual method (tail && options.tailCalls) :: retIf tail)) s₂
  | callStatic {method args tail scope s as s₁} : Lowers options (.all args) scope s as s₁ →
      Lowers options (.expr (.callStatic method args) tail) scope s
        (as ++ .ofCode (.call method (tail && options.tailCalls) :: retIf tail)) s₁
  | allNil {scope s} : Lowers options (.all []) scope s {} s
  | allCons {e es scope s b s₁ rest s₂} : Lowers options (.expr e false) scope s b s₁ →
      Lowers options (.all es) scope s₁ rest s₂ → Lowers options (.all (e :: es)) scope s (b ++ rest) s₂
  | seqNil {tail scope s} : Lowers options (.seq [] tail) scope s (.ofCode (retIf tail)) s
  | seqLast {e tail scope s b s₁} : Lowers options (.expr e tail) scope s b s₁ →
      Lowers options (.seq [e] tail) scope s b s₁
  | seqCons {e next es tail scope s type b s₁ rest s₂} : e.typeOf scope.types = .ok type →
      Lowers options (.expr e false) scope s b s₁ → Lowers options (.seq (next :: es) tail) scope s₁ rest s₂ →
      Lowers options (.seq (e :: next :: es) tail) scope s
        (b ++ .ofCode (if type.isVoid then [] else [.op .pop]) ++ rest) s₂
  | shortNil {isOr tail scope s} :
      Lowers options (.shortCircuit isOr [] tail) scope s (.ofCode (.loadI32 1 :: retIf tail)) s
  | shortLast {isOr e tail scope s b s₁} : Lowers options (.expr e tail) scope s b s₁ →
      Lowers options (.shortCircuit isOr [e] tail) scope s b s₁
  | shortCons {isOr e next es tail scope s b s₁ rest s₂} :
      Lowers options (.expr e false) scope (s.skip 1) b s₁ →
      Lowers options (.operands (decidingBranch isOr) s.label (next :: es) tail) scope s₁ rest s₂ →
      Lowers options (.shortCircuit isOr (e :: next :: es) tail) scope s
        (b ++ .ofCode [.branch (decidingBranch isOr) s.label] ++ rest ++
          .ofCode (leaveTo tail s₂ ++ [.label s.label, .loadI32 (if isOr then 1 else 0)] ++ retIf tail ++
            endMark tail s₂)) (afterEnd tail s₂)
  | operandsNil {kind decided tail scope s} : Lowers options (.operands kind decided [] tail) scope s {} s
  | operandsLast {kind decided e tail scope s b s₁} : Lowers options (.expr e tail) scope s b s₁ →
      Lowers options (.operands kind decided [e] tail) scope s b s₁
  | operandsCons {kind decided e next es tail scope s b s₁ rest s₂} :
      Lowers options (.expr e false) scope s b s₁ →
      Lowers options (.operands kind decided (next :: es) tail) scope s₁ rest s₂ →
      Lowers options (.operands kind decided (e :: next :: es) tail) scope s
        (b ++ .ofCode [.branch kind decided] ++ rest) s₂
  | casesNil {labels leave tail scope s} : Lowers options (.cases [] labels leave tail) scope s {} s
  | casesUnlabelled {c cs leave tail scope s} : Lowers options (.cases (c :: cs) [] leave tail) scope s {} s
  | casesDropped {values e cs label labels leave tail scope s b s₁} : values.isEmpty →
      Lowers options (.cases cs labels leave tail) scope s b s₁ →
      Lowers options (.cases ((values, e) :: cs) (label :: labels) leave tail) scope s b s₁
  | casesCons {values e cs label labels leave tail scope s b s₁ rest s₂} : values.isEmpty = false →
      Lowers options (.expr e tail) scope s b s₁ →
      Lowers options (.cases cs labels leave tail) scope s₁ rest s₂ →
      Lowers options (.cases ((values, e) :: cs) (label :: labels) leave tail) scope s
        (.ofCode [.label label] ++ b ++ .ofCode leave ++ rest) s₂
  | bindingsNil {usages scope inner s} : Lowers options (.bindings usages [] inner inner) scope s {} s
  | bindingsCons {usages x value bs scope inner result s type v s₁ b s₂} {boxed : Bool} :
      value.typeOf scope.types = .ok type → boxed = usages.isCaptured x →
      Lowers options (.expr value false) scope (s.skip 1) v s₁ →
      Lowers options (.bindings usages bs (inner.bind x (.slot (s.slot x) type boxed)) result) scope s₁ b s₂ →
      Lowers options (.bindings usages ((x, value) :: bs) inner result) scope s
        ({ locals := [⟨s.slot x, if boxed then .cell type else type⟩] } ++ v ++
          .ofCode ((if boxed then [Instr.typeOp .newCell type] else []) ++ [.storeLocal (s.slot x)]) ++ b) s₂

/-! ## Every successful lowering has a derivation -/

theorem block_append_nil (b : Block) : b ++ Block.ofCode [] = b := by
  show Block.mk (b.locals ++ []) (b.code ++ []) = b
  simp only [List.append_nil]

namespace Lowers

open Effect

variable {options : BuildOptions}

mutual
theorem of_lower : ∀ (e : Expr) {scope : Scope} {tail : Bool} {s t : Supply} {b : Block},
    (e.lower options scope tail).exec s = (.ok b, t) → Lowers options (.expr e tail) scope s b t
  | .literal v, scope, tail, s, t, b, h => by
    rw [Expr.lower] at h
    cases h
    exact .literal
  | .var x, scope, tail, s, t, b, h => by
    rw [Expr.lower] at h
    obtain ⟨storage, hx, h⟩ := exec_lift_bind_ok.mp h
    cases h
    exact .var hx
  | .assign x e, scope, tail, s, t, b, h => by
    rw [Expr.lower] at h
    obtain ⟨storage, hx, h⟩ := exec_lift_bind_ok.mp h
    obtain ⟨v, s₁, hv, h⟩ := exec_bind_ok.mp h
    cases h
    exact .assign hx (of_lower e hv)
  | .seq es, scope, tail, s, t, b, h => by
    rw [Expr.lower] at h
    exact .seq (of_lowerSeq es h)
  | .and es, scope, tail, s, t, b, h => by
    rw [Expr.lower] at h
    exact .and (of_lowerShortCircuit false es h)
  | .or es, scope, tail, s, t, b, h => by
    rw [Expr.lower] at h
    exact .or (of_lowerShortCircuit true es h)
  | .ite c t f, scope, tail, s, u, b, h => by
    rw [Expr.lower] at h
    simp only [exec_bind_ok, exec_freshLabel, Prod.mk.injEq, Except.ok.injEq] at h
    obtain ⟨_, _, ⟨rfl, rfl⟩, cb, s₁, hc, tb, s₂, ht, h⟩ := h
    have hc := of_lower c hc
    have ht := of_lower t ht
    cases tail with
    | true =>
      obtain ⟨fb, s₃, hf, h⟩ := exec_bind_ok.mp h
      cases h
      have := Lowers.ite hc ht (of_lower f hf)
      simpa [leaveTo, endMark, endLabel?, block_append_nil] using this
    | false =>
      simp only [Bool.false_eq_true, if_false, exec_bind_ok, exec_freshLabel, Prod.mk.injEq, Except.ok.injEq] at h
      obtain ⟨_, _, ⟨rfl, rfl⟩, fb, s₃, hf, h⟩ := h
      cases h
      exact Lowers.ite hc ht (of_lower f hf)
  | .switch value cases fallback, scope, tail, s, t, b, h => by
    rw [Expr.lower] at h
    obtain ⟨_, hcheck, h⟩ := exec_lift_bind_ok.mp h
    obtain ⟨type, htype, h⟩ := exec_lift_bind_ok.mp h
    obtain ⟨v, s₁, hv, h⟩ := exec_bind_ok.mp h
    simp only [exec_bind_ok, exec_freshLabel, exec_freshLabels, exec_dispatch, exec_freshEnd?, Prod.mk.injEq,
      Except.ok.injEq] at h
    obtain ⟨_, _, ⟨rfl, rfl⟩, _, _, ⟨rfl, rfl⟩, _, _, ⟨rfl, rfl⟩, _, _, ⟨rfl, rfl⟩, fb, s₅, hf, cb, s₆, hc, h⟩ := h
    cases h
    exact .switch rfl rfl rfl hcheck htype (of_lower value hv) (Supply.skip_skip ..) rfl rfl (of_lower fallback hf)
      (of_lowerCases cases hc)
  | .letIn bs body, scope, tail, s, t, b, h => by
    rw [Expr.lower] at h
    obtain ⟨⟨vb, inner⟩, s₁, hb, h⟩ := exec_bind_ok.mp h
    obtain ⟨b, s₂, hbody, h⟩ := exec_bind_ok.mp h
    cases h
    exact .letIn (of_lowerBindings _ bs hb) (of_lower body hbody)
  | .lambda x ps body, scope, tail, s, t, b, h => by
    rw [Expr.lower] at h
    obtain ⟨delegate, htype, h⟩ := exec_lift_bind_ok.mp h
    obtain ⟨⟨cells, types⟩, hcells, h⟩ := exec_lift_bind_ok.mp h
    cases h
    exact .lambda htype hcells
  | .invoke function args, scope, tail, s, t, b, h => by
    rw [Expr.lower] at h
    obtain ⟨delegate, htype, h⟩ := exec_lift_bind_ok.mp h
    obtain ⟨f, s₁, hf, h⟩ := exec_bind_ok.mp h
    obtain ⟨as, s₂, has, h⟩ := exec_bind_ok.mp h
    cases h
    exact .invoke htype (of_lower function hf) (of_lowerAll args has)
  | .binary op left right, scope, tail, s, t, b, h => by
    rw [Expr.lower] at h
    obtain ⟨type, htype, h⟩ := exec_lift_bind_ok.mp h
    obtain ⟨l, s₁, hl, h⟩ := exec_bind_ok.mp h
    obtain ⟨r, s₂, hr, h⟩ := exec_bind_ok.mp h
    cases h
    exact .binary htype (of_lower left hl) (of_lower right hr)
  | .unary op operand, scope, tail, s, t, b, h => by
    rw [Expr.lower] at h
    obtain ⟨type, htype, h⟩ := exec_lift_bind_ok.mp h
    obtain ⟨v, s₁, hv, h⟩ := exec_bind_ok.mp h
    cases h
    exact .unary htype (of_lower operand hv)
  | .getField target field, scope, tail, s, t, b, h => by
    rw [Expr.lower] at h
    obtain ⟨t, s₁, ht, h⟩ := exec_bind_ok.mp h
    cases h
    exact .getField (of_lower target ht)
  | .getStatic field, scope, tail, s, t, b, h => by
    rw [Expr.lower] at h
    cases h
    exact .getStatic
  | .setField target field value, scope, tail, s, t, b, h => by
    rw [Expr.lower] at h
    obtain ⟨t, s₁, ht, h⟩ := exec_bind_ok.mp h
    obtain ⟨v, s₂, hv, h⟩ := exec_bind_ok.mp h
    cases h
    exact .setField (of_lower target ht) (of_lower value hv)
  | .setStatic field value, scope, tail, s, t, b, h => by
    rw [Expr.lower] at h
    obtain ⟨v, s₁, hv, h⟩ := exec_bind_ok.mp h
    cases h
    exact .setStatic (of_lower value hv)
  | .new ctor args, scope, tail, s, t, b, h => by
    rw [Expr.lower] at h
    obtain ⟨as, s₁, has, h⟩ := exec_bind_ok.mp h
    cases h
    exact .new (of_lowerAll args has)
  | .call target method args, scope, tail, s, t, b, h => by
    rw [Expr.lower] at h
    obtain ⟨t, s₁, ht, h⟩ := exec_bind_ok.mp h
    obtain ⟨as, s₂, has, h⟩ := exec_bind_ok.mp h
    cases h
    exact .call (of_lower target ht) (of_lowerAll args has)
  | .callStatic method args, scope, tail, s, t, b, h => by
    rw [Expr.lower] at h
    obtain ⟨as, s₁, has, h⟩ := exec_bind_ok.mp h
    cases h
    exact .callStatic (of_lowerAll args has)

theorem of_lowerAll : ∀ (es : List Expr) {scope : Scope} {s t : Supply} {b : Block},
    (Expr.lowerAll options es scope).exec s = (.ok b, t) → Lowers options (.all es) scope s b t
  | [], scope, s, t, b, h => by
    rw [Expr.lowerAll] at h
    cases h
    exact .allNil
  | e :: es, scope, s, t, b, h => by
    rw [Expr.lowerAll] at h
    obtain ⟨b, s₁, hb, h⟩ := exec_bind_ok.mp h
    obtain ⟨rest, s₂, hrest, h⟩ := exec_bind_ok.mp h
    cases h
    exact .allCons (of_lower e hb) (of_lowerAll es hrest)

theorem of_lowerSeq : ∀ (es : List Expr) {scope : Scope} {tail : Bool} {s t : Supply} {b : Block},
    (Expr.lowerSeq options es scope tail).exec s = (.ok b, t) → Lowers options (.seq es tail) scope s b t
  | [], scope, tail, s, t, b, h => by
    rw [Expr.lowerSeq] at h
    cases h
    exact .seqNil
  | [e], scope, tail, s, t, b, h => by
    rw [Expr.lowerSeq] at h
    exact .seqLast (of_lower e h)
  | e :: next :: es, scope, tail, s, t, b, h => by
    simp only [Expr.lowerSeq] at h
    obtain ⟨type, htype, h⟩ := exec_lift_bind_ok.mp h
    obtain ⟨b, s₁, hb, h⟩ := exec_bind_ok.mp h
    obtain ⟨rest, s₂, hrest, h⟩ := exec_bind_ok.mp h
    cases h
    exact .seqCons htype (of_lower e hb) (of_lowerSeq (next :: es) hrest)

theorem of_lowerShortCircuit (isOr : Bool) : ∀ (es : List Expr) {scope : Scope} {tail : Bool} {s t : Supply}
    {b : Block}, (Expr.lowerShortCircuit options isOr es scope tail).exec s = (.ok b, t) →
      Lowers options (.shortCircuit isOr es tail) scope s b t
  | [], scope, tail, s, t, b, h => by
    rw [Expr.lowerShortCircuit] at h
    cases h
    exact .shortNil
  | [e], scope, tail, s, t, b, h => by
    rw [Expr.lowerShortCircuit] at h
    exact .shortLast (of_lower e h)
  | e :: next :: es, scope, tail, s, t, b, h => by
    simp only [Expr.lowerShortCircuit, exec_bind_ok, exec_freshLabel, Prod.mk.injEq, Except.ok.injEq] at h
    obtain ⟨_, _, ⟨rfl, rfl⟩, first, s₁, hfirst, rest, s₂, hrest, h⟩ := h
    have made := @Lowers.shortCons options isOr _ _ _ tail _ _ _ _ _ _ (of_lower e hfirst)
      (of_lowerOperands _ _ (next :: es) hrest)
    cases tail with
    | true =>
      cases h
      exact made
    | false =>
      obtain ⟨_, _, hend, h⟩ := exec_bind_ok.mp h
      cases hend
      cases h
      exact made

theorem of_lowerOperands (kind : BranchKind) (decided : Symbol) : ∀ (es : List Expr) {scope : Scope} {tail : Bool}
    {s t : Supply} {b : Block}, (Expr.lowerOperands options kind decided es scope tail).exec s = (.ok b, t) →
      Lowers options (.operands kind decided es tail) scope s b t
  | [], scope, tail, s, t, b, h => by
    rw [Expr.lowerOperands] at h
    cases h
    exact .operandsNil
  | [e], scope, tail, s, t, b, h => by
    rw [Expr.lowerOperands] at h
    exact .operandsLast (of_lower e h)
  | e :: next :: es, scope, tail, s, t, b, h => by
    simp only [Expr.lowerOperands] at h
    obtain ⟨b, s₁, hb, h⟩ := exec_bind_ok.mp h
    obtain ⟨rest, s₂, hrest, h⟩ := exec_bind_ok.mp h
    cases h
    exact .operandsCons (of_lower e hb) (of_lowerOperands kind decided (next :: es) hrest)

theorem of_lowerCases : ∀ (cs : List (CaseValues × Expr)) {labels : List Symbol} {leave : List Instr} {scope : Scope}
    {tail : Bool} {s t : Supply} {b : Block}, (Expr.lowerCases options cs labels leave scope tail).exec s = (.ok b, t) →
      Lowers options (.cases cs labels leave tail) scope s b t
  | [], labels, leave, scope, tail, s, t, b, h => by
    rw [Expr.lowerCases] at h
    cases h
    exact .casesNil
  | c :: cs, [], leave, scope, tail, s, t, b, h => by
    rw [Expr.lowerCases] at h
    · cases h
      exact .casesUnlabelled
    · simp
  | (values, e) :: cs, label :: labels, leave, scope, tail, s, t, b, h => by
    rw [Expr.lowerCases] at h
    split at h
    · rename_i hempty
      exact .casesDropped hempty (of_lowerCases cs h)
    · rename_i hempty
      obtain ⟨b, s₁, hb, h⟩ := exec_bind_ok.mp h
      obtain ⟨rest, s₂, hrest, h⟩ := exec_bind_ok.mp h
      cases h
      exact .casesCons (by simpa using hempty) (of_lower e hb) (of_lowerCases cs hrest)

theorem of_lowerBindings (usages : Usages) : ∀ (bs : List (Symbol × Expr)) {scope inner result : Scope} {s t : Supply}
    {b : Block}, (Expr.lowerBindings options usages bs scope inner).exec s = (.ok (b, result), t) →
      Lowers options (.bindings usages bs inner result) scope s b t
  | [], scope, inner, result, s, t, b, h => by
    rw [Expr.lowerBindings] at h
    cases h
    exact .bindingsNil
  | (x, value) :: bs, scope, inner, result, s, t, b, h => by
    rw [Expr.lowerBindings] at h
    obtain ⟨type, htype, h⟩ := exec_lift_bind_ok.mp h
    obtain ⟨_, _, hslot, h⟩ := exec_bind_ok.mp h
    cases hslot
    obtain ⟨v, s₁, hv, h⟩ := exec_bind_ok.mp h
    obtain ⟨⟨rest, result⟩, s₂, hrest, h⟩ := exec_bind_ok.mp h
    cases h
    exact .bindingsCons htype rfl (of_lower value hv) (of_lowerBindings usages bs hrest)
end
end Lowers

/-! ## Bodies -/

open Effect

/-- `Enters usages index params scope s b inner t`: binding the parameters from the given number
    on leads from `scope` to `inner`; the block copies those that a lambda uses into cells. -/
inductive Enters (usages : Usages) : Nat → List Param → Scope → Supply → Block → Scope → Supply → Prop
  | nil {index scope s} : Enters usages index [] scope s {} scope s
  | cell {index p params scope inner s b t} : index < 65536 → usages.isCaptured p.name →
      Enters usages (index + 1) params (scope.bind p.name (.slot (s.slot p.name) p.type true)) (s.skip 1) b inner t →
      Enters usages index (p :: params) scope s
        ({ locals := [⟨s.slot p.name, .cell p.type⟩]
           code := [.loadArg (.ofNat index), .typeOp .newCell p.type, .storeLocal (s.slot p.name)] } ++ b) inner t
  | plain {index p params scope inner s b t} : index < 65536 → usages.isCaptured p.name = false →
      Enters usages (index + 1) params (scope.bind p.name (.argument (.ofNat index) p.type)) s b inner t →
      Enters usages index (p :: params) scope s b inner t

theorem Enters.of_enterParams {usages : Usages} : ∀ {index : Nat} {params : List Param} {scope inner : Scope}
    {s t : Supply} {b : Block}, (enterParams usages index params scope).exec s = (.ok (b, inner), t) →
      Enters usages index params scope s b inner t
  | index, [], scope, inner, s, t, b, h => by
    rw [enterParams] at h
    cases h
    exact .nil
  | index, p :: params, scope, inner, s, t, b, h => by
    rw [enterParams] at h
    split at h
    · cases h
    · rename_i hindex
      cases hcaptured : usages.isCaptured p.name with
      | true =>
        simp only [hcaptured, if_true] at h
        obtain ⟨_, _, hslot, h⟩ := exec_bind_ok.mp h
        cases hslot
        obtain ⟨⟨rest, result⟩, s₁, hrest, h⟩ := exec_bind_ok.mp h
        cases h
        exact .cell (by omega) hcaptured (of_enterParams hrest)
      | false =>
        simp only [hcaptured, Bool.false_eq_true, if_false] at h
        exact .plain (by omega) hcaptured (of_enterParams h)

namespace Body

variable {options : BuildOptions} {body : Body} {h : Hierarchy} {s t : Supply} {b : Block}

/-- A body is entered through its parameters, then through the fields of its receiver. -/
theorem of_enter {usages : Usages} {scope : Scope} (he : (body.enter h usages).exec s = (.ok (b, scope), t)) :
    ∃ outer, Enters usages 0 body.params { types := { hierarchy := h } } s b outer t ∧
      (body.captures = [] ∧ scope = outer ∨
        ∃ receiver params storage, body.params = receiver :: params ∧
          outer.storage receiver.name body.body = .ok storage ∧
          enterCaptures h.table storage body.captures outer = .ok scope) := by
  obtain ⟨⟨start, outer⟩, s₁, hparams, he⟩ := exec_bind_ok.mp he
  simp only at he
  split at he
  · rename_i hempty
    cases he
    exact ⟨_, .of_enterParams hparams, .inl ⟨List.isEmpty_iff.mp hempty, rfl⟩⟩
  · split at he
    · cases he
    · rename_i receiver params hreceiver
      obtain ⟨storage, hstorage, he⟩ := exec_lift_bind_ok.mp he
      obtain ⟨inner, hinner, he⟩ := exec_lift_bind_ok.mp he
      cases he
      exact ⟨outer, .of_enterParams hparams, .inr ⟨receiver, params, storage, hreceiver, hstorage, hinner⟩⟩

/-- A method drops the value of its body when it returns nothing, and otherwise returns it. -/
theorem of_compileMethod {returnType : TypeRef} (hc : (body.compileMethod h options returnType).exec s = (.ok b, t)) :
    ∃ start scope s₁ type code, (body.enter h body.body.usages).exec s = (.ok (start, scope), s₁) ∧
      body.body.typeOf scope.types = .ok type ∧
      (returnType.isVoid ∧ type.isVoid = false ∧ Lowers options (.expr body.body false) scope s₁ code t ∧
          b = start ++ code ++ .ofCode [.op .pop, .op .ret] ∨
        (returnType.isVoid → type.isVoid) ∧ h.isAssignable type returnType ∧
          Lowers options (.expr body.body true) scope s₁ code t ∧ b = start ++ code) := by
  obtain ⟨⟨start, scope⟩, s₁, henter, hc⟩ := exec_bind_ok.mp hc
  obtain ⟨type, htype, hc⟩ := exec_lift_bind_ok.mp hc
  refine ⟨start, scope, s₁, type, ?_⟩
  split at hc
  · rename_i hvoid
    obtain ⟨code, s₂, hcode, hc⟩ := exec_bind_ok.mp hc
    cases hc
    simp only [Bool.and_eq_true, Bool.not_eq_true'] at hvoid
    exact ⟨code, henter, htype, .inl ⟨hvoid.1, hvoid.2, .of_lower _ hcode, rfl⟩⟩
  · rename_i hvoid
    split at hc
    · cases hc
    · rename_i hassign
      obtain ⟨code, s₂, hcode, hc⟩ := exec_bind_ok.mp hc
      cases hc
      refine ⟨code, henter, htype, .inr ⟨fun hv => ?_, by simpa using hassign, .of_lower _ hcode, rfl⟩⟩
      simpa [hv] using hvoid

/-- A constructor runs that of the base class on its receiver, then its body. -/
theorem of_compileConstructor {base : BaseCall} (hc : (body.compileConstructor h options base).exec s = (.ok b, t)) :
    ∃ this params start scope s₁ type storage args s₂ code, body.params = this :: params ∧
      (body.enter h (base.args.foldl (fun m arg => m.union arg.usages) body.body.usages)).exec s =
        (.ok (start, scope), s₁) ∧
      base.ctor.checkDeclared h.table = .ok () ∧ base.ctor.params.length = base.args.length ∧
      checkBaseArgs h scope.types base.ctor.params base.args = .ok () ∧
      body.body.typeOf scope.types = .ok type ∧ scope.storage this.name body.body = .ok storage ∧
      Lowers options (.all base.args) scope s₁ args s₂ ∧ Lowers options (.expr body.body false) scope s₂ code t ∧
      b = start ++ .ofCode storage.fetch ++ args ++ .ofCode [.callConstructor base.ctor] ++ code ++
        .ofCode (if type.isVoid then [.op .ret] else [.op .pop, .op .ret]) := by
  unfold compileConstructor at hc
  split at hc
  · cases hc
  · rename_i this params hparams
    obtain ⟨⟨start, scope⟩, s₁, henter, hc⟩ := exec_bind_ok.mp hc
    obtain ⟨_, hdeclared, hc⟩ := exec_lift_bind_ok.mp hc
    simp only at hc
    split at hc
    · cases hc
    · rename_i hlength
      obtain ⟨_, hargs, hc⟩ := exec_lift_bind_ok.mp hc
      obtain ⟨type, htype, hc⟩ := exec_lift_bind_ok.mp hc
      obtain ⟨storage, hstorage, hc⟩ := exec_lift_bind_ok.mp hc
      obtain ⟨args, s₂, hlower, hc⟩ := exec_bind_ok.mp hc
      obtain ⟨code, s₃, hcode, hc⟩ := exec_bind_ok.mp hc
      cases hc
      exact ⟨this, params, start, scope, s₁, type, storage, args, s₂, code, hparams, henter, hdeclared,
        by simpa using hlength, hargs, htype, hstorage, .of_lowerAll _ hlower, .of_lower _ hcode, rfl⟩

end Body

end Stackwright
