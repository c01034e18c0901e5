import Stackwright.Expr.Lowering
import Stackwright.Proofs.Evaluation

/-
  Stackwright.Proofs.Meaning — expressions with conversions.

  To the first-order language come conversions to integer types, and characters that fit their type. A conversion cuts
  the word that its operand is read as. What a switch can choose depends on a test of the size of its table and the
  number: `reach` says which entries a table of some size can lead to.
-/

namespace Stackwright

/-- The word that a value is read as before it is converted: 64-bit numbers as they are, all others with their sign,
    unless they are converted to `u64`. -/
def Datum.word (target : Primitive) : Datum → BitVec 64
  | .int p x =>
    if p.bits = 64 then .ofInt 64 x
    else if target = .u64 then (BitVec.ofInt 32 x).setWidth 64
    else (BitVec.ofInt 32 x).signExtend 64
  | .float x => if target = .u64 then x.toUInt64.toBitVec else x.toInt64.toBitVec
  | _ => 0

/-- The value of an operation on one value, conversions included. -/
def UnaryOp.result : UnaryOp → Datum → Except Stop Datum
  | .convert target, a => .ok (.int target (target.ofBits ((a.word target).setWidth target.bits)))
  | op, a => op.apply a

def UnaryOp.isPlain : UnaryOp → Bool
  | .convert target => target.isInteger
  | _ => true

/-- The value of a literal; characters that do not fit their type have none. -/
def Literal.result? : Literal → Option Datum
  | .char c => if c.toNat < 2 ^ 16 then some (.int .char c.toNat) else none
  | v => v.datum?

/-- Whether an entry of a table of some size can be chosen. -/
abbrev Reach := Nat → Int → Bool

/-- Tables lead to all their entries. -/
abbrev everywhere : Reach := fun _ _ => true

/-- Tables end before the sign bit of a 32-bit number, and their size is a number of 32 bits. -/
def bounded : Reach := fun size v => v < 2 ^ 31 && v < (size % 2 ^ 32 : Nat)

theorem bounded_iff {size : Nat} {v : Int} : bounded size v ↔ v < 2 ^ 31 ∧ v < (size % 2 ^ 32 : Nat) := by
  simp [bounded]

namespace Expr

variable (reach : Reach)

mutual
def meaning : Expr → Env → Outcome
  | .literal v, env =>
    match v.result? with
    | some d => .ok (d, env)
    | none => .error .stuck
  | .var x, env =>
    match env.lookup x with
    | some d => .ok (d, env)
    | none => .error .stuck
  | .assign x e, env => do
    let (d, env) ← meaning e env
    match env.update d x with
    | some env => .ok (.void, env)
    | none => .error .stuck
  | .seq es, env => meaningSeq es env
  | .and es, env => meaningShort false es env
  | .or es, env => meaningShort true es env
  | .ite c t f, env => do
    match ← meaning c env with
    | (.bool true, env) => meaning t env
    | (.bool false, env) => meaning f env
    | _ => .error .stuck
  | .switch value cases fallback, env => do
    match ← meaning value env with
    | (.int _ v, env) =>
      ((if reach (tableSize (cases.map (·.1))) v then meaningCases v cases env else none).getD (meaning fallback env))
    | _ => .error .stuck
  | .letIn bs body, env => do
    let (bound, env) ← meaningBindings bs env
    let (d, env) ← meaning body (bound ++ env)
    .ok (d, env.drop bound.length)
  | .binary op l r, env => do
    let (a, env) ← meaning l env
    let (b, env) ← meaning r env
    let d ← op.apply a b
    .ok (d, env)
  | .unary op e, env => do
    let (a, env) ← meaning e env
    let d ← op.result a
    .ok (d, env)
  | _, _ => .error .stuck
termination_by structural e => e

def meaningSeq : List Expr → Env → Outcome
  | [], env => .ok (.void, env)
  | [e], env => meaning e env
  | e :: es, env => do
    let (_, env) ← meaning e env
    meaningSeq es env
termination_by structural es => es

def meaningShort (isOr : Bool) : List Expr → Env → Outcome
  | [], env => .ok (.bool true, env)
  | [e], env => meaning e env
  | e :: es, env => do
    match ← meaning e env with
    | (.bool b, env) => if b == isOr then .ok (.bool b, env) else meaningShort isOr es env
    | _ => .error .stuck
termination_by structural es => es

def meaningCases (v : Int) : List (CaseValues × Expr) → Env → Option Outcome
  | [], _ => none
  | (values, e) :: cases, env => if values.claims v then some (meaning e env) else meaningCases v cases env
termination_by structural cases => cases

def meaningBindings : List (Symbol × Expr) → Env → Except Stop (Env × Env)
  | [], env => .ok ([], env)
  | (x, e) :: bs, env => do
    let (d, env) ← meaning e env
    let (bound, env) ← meaningBindings bs env
    .ok (bound ++ [(x, d)], env)
termination_by structural bs => bs
end

mutual
/-- Expressions without lambdas, members, and literals or conversions to anything but integers, whose characters fit. -/
def isPlain : Expr → Bool
  | .literal v => v.result?.isSome
  | .var _ => true
  | .assign _ e => e.isPlain
  | .seq es | .and es | .or es => allPlain es
  | .ite c t f => c.isPlain && t.isPlain && f.isPlain
  | .switch value cases fallback => value.isPlain && casesPlain cases && fallback.isPlain
  | .letIn bs body => bindingsPlain bs && body.isPlain
  | .binary _ l r => l.isPlain && r.isPlain
  | .unary op e => op.isPlain && e.isPlain
  | _ => false
termination_by structural e => e

def allPlain : List Expr → Bool
  | [] => true
  | e :: es => e.isPlain && allPlain es
termination_by structural es => es

def casesPlain : List (CaseValues × Expr) → Bool
  | [] => true
  | (_, e) :: cases => e.isPlain && casesPlain cases
termination_by structural cases => cases

def bindingsPlain : List (Symbol × Expr) → Bool
  | [] => true
  | (_, e) :: bs => e.isPlain && bindingsPlain bs
termination_by structural bs => bs
end

mutual
/-- The first-order language is part of this one, and means the same in it. -/
theorem meaning_of_isFirstOrder : ∀ e : Expr, e.isFirstOrder → e.isPlain ∧ ∀ env, meaning everywhere e env = e.eval env
  | .literal v, h => by
    have hv : v.result? = v.datum? := by cases v <;> first | rfl | cases h
    refine ⟨by rw [isPlain, hv]; exact h, fun _ => ?_⟩
    simp only [meaning, hv]
    rfl
  | .var _, _ => ⟨rfl, fun _ => rfl⟩
  | .assign _ e, h => by
    obtain ⟨hplain, he⟩ := meaning_of_isFirstOrder e h
    refine ⟨hplain, fun _ => ?_⟩
    simp only [meaning, he]
    rfl
  | .seq es, h => ⟨(meaning_of_allFirstOrder es h).1, (meaning_of_allFirstOrder es h).2.1⟩
  | .and es, h => ⟨(meaning_of_allFirstOrder es h).1, (meaning_of_allFirstOrder es h).2.2 false⟩
  | .or es, h => ⟨(meaning_of_allFirstOrder es h).1, (meaning_of_allFirstOrder es h).2.2 true⟩
  | .ite c t f, h => by
    simp only [isFirstOrder, Bool.and_eq_true] at h
    have hc := meaning_of_isFirstOrder c h.1.1
    have ht := meaning_of_isFirstOrder t h.1.2
    have hf := meaning_of_isFirstOrder f h.2
    refine ⟨by simp only [isPlain, hc.1, ht.1, hf.1, Bool.and_self], fun _ => ?_⟩
    simp only [meaning, hc.2, ht.2, hf.2]
    rfl
  | .switch value cases other, h => by
    simp only [isFirstOrder, Bool.and_eq_true] at h
    have hvalue := meaning_of_isFirstOrder value h.1.1
    have hcases := meaning_of_casesFirstOrder cases h.1.2
    have hother := meaning_of_isFirstOrder other h.2
    refine ⟨by simp only [isPlain, hvalue.1, hcases.1, hother.1, Bool.and_self], fun _ => ?_⟩
    simp only [meaning, hvalue.2, hcases.2, hother.2]
    rfl
  | .letIn bs body, h => by
    simp only [isFirstOrder, Bool.and_eq_true] at h
    simp [isPlain, meaning, eval, meaning_of_bindingsFirstOrder bs h.1, meaning_of_isFirstOrder body h.2]
  | .binary _ l r, h => by
    simp only [isFirstOrder, Bool.and_eq_true] at h
    simp [isPlain, meaning, eval, meaning_of_isFirstOrder l h.1, meaning_of_isFirstOrder r h.2]
  | .unary .not e, h | .unary .negate e, h => by
    simp [isPlain, meaning, eval, meaning_of_isFirstOrder e h, UnaryOp.isPlain, UnaryOp.result]

theorem meaning_of_allFirstOrder : ∀ es : List Expr, allFirstOrder es → allPlain es ∧
    (∀ env, meaningSeq everywhere es env = evalSeq es env) ∧
    ∀ isOr env, meaningShort everywhere isOr es env = evalShort isOr es env
  | [], _ => ⟨rfl, fun _ => rfl, fun _ _ => rfl⟩
  | e :: es, h => by
    simp only [allFirstOrder, Bool.and_eq_true] at h
    have he := meaning_of_isFirstOrder e h.1
    have hes := meaning_of_allFirstOrder es h.2
    refine ⟨by simp [allPlain, he.1, hes.1], fun _ => ?_, fun _ _ => ?_⟩
    · cases es <;> simp only [meaningSeq, evalSeq, he.2, hes.2.1]
    · cases es with
      | nil => exact he.2 _
      | cons =>
        simp only [meaningShort, he.2, hes.2.2]
        rfl

theorem meaning_of_casesFirstOrder : ∀ cs : List (CaseValues × Expr), casesFirstOrder cs → casesPlain cs ∧
    ∀ v env, meaningCases everywhere v cs env = evalCases v cs env
  | [], _ => ⟨rfl, fun _ _ => rfl⟩
  | (_, e) :: cs, h => by
    simp only [casesFirstOrder, Bool.and_eq_true] at h
    simp [casesPlain, meaningCases, evalCases, meaning_of_isFirstOrder e h.1, meaning_of_casesFirstOrder cs h.2]

theorem meaning_of_bindingsFirstOrder : ∀ bs : List (Symbol × Expr), bindingsFirstOrder bs → bindingsPlain bs ∧
    ∀ env, meaningBindings everywhere bs env = evalBindings bs env
  | [], _ => ⟨rfl, fun _ => rfl⟩
  | (_, e) :: bs, h => by
    simp only [bindingsFirstOrder, Bool.and_eq_true] at h
    simp [bindingsPlain, meaningBindings, evalBindings, meaning_of_isFirstOrder e h.1,
      meaning_of_bindingsFirstOrder bs h.2]
end

end Expr

end Stackwright
