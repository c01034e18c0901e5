import Mathlib.Algebra.Ring.Int.Defs
import Mathlib.Algebra.Ring.Nat
import Stackwright.Expr.Basic
import Stackwright.Decimal.Remainder
import Stackwright.Machine.Value

/-
  Stackwright.Proofs.Evaluation — what an expression of the first-order language means.

  Values carry their type: an integer is a number together with its primitive type, and an
  operation brings its result back into that type's range. Evaluation goes from left to right
  and hands the variables on, since assignments change them; it stops at a division by zero.
  It is stuck on what the language leaves out (lambdas, members, conversions, characters and
  floats as literals) and on operands that do not fit together.
-/

namespace Stackwright

namespace Primitive

/-- The number of bits of an integer type. -/
def bits : Primitive → Nat
  | .i8 | .u8 => 8
  | .i16 | .u16 | .char => 16
  | .i32 | .u32 => 32
  | .i64 | .u64 => 64
  | _ => 0

/-- Whether a number belongs to an integer type. -/
def InRange (p : Primitive) (v : Int) : Prop :=
  if p.isSigned then -2 ^ (p.bits - 1) ≤ v ∧ v < 2 ^ (p.bits - 1) else 0 ≤ v ∧ v < 2 ^ p.bits

/-- The number of the type that equals `v` up to a multiple of two to the number of bits. -/
def wrap (p : Primitive) (v : Int) : Int := if p.isSigned then v.bmod (2 ^ p.bits) else v % 2 ^ p.bits

/-- The number that some bits stand for. -/
def ofBits (p : Primitive) (b : BitVec p.bits) : Int := if p.isSigned then b.toInt else b.toNat

/-- Shift counts are taken modulo 64 for 64-bit types and modulo 32 for all others. -/
def shiftCount (p : Primitive) (n : Int) : Nat := (n % (if p.bits = 64 then 64 else 32)).toNat

end Primitive

/-- Why an evaluation has no value. -/
inductive Stop where
  | divideByZero
  | stuck
  deriving DecidableEq, Repr

inductive Datum where
  /-- What an assignment and an empty sequence give. -/
  | void
  | bool (b : Bool)
  | int (type : Primitive) (v : Int)
  | float (v : Float)
  /-- A string, null, or any other thing that is only passed on and compared. -/
  | ref (v : Machine.Value)

namespace Datum

/-- How the machine represents a value: integers narrower than 64 bits travel in 32. -/
def value : Datum → Machine.Value
  | .void => .null
  | .bool b => .ofBool b
  | .int type v => if type.bits = 64 then .i64 (Int64.ofInt v) else .i32 (Int32.ofInt v)
  | .float v => .f64 v
  | .ref v => v

/-- Which values belong to a type. Nothing but `void` is of type `void`. -/
def Fits : Datum → TypeRef → Prop
  | .void, t => t = .void
  | .bool _, t => t = .bool
  | .int type v, t => t = .primitive type ∧ type.isInteger ∧ type.InRange v
  | .float _, t => t.isPrimitiveWith Primitive.isFloat = true
  | .ref _, t => t.isPrimitiveWith (fun p => p != .string && p != .object) = false

end Datum

/-- Variables with their values, innermost first. -/
abbrev Env := List (Symbol × Datum)

namespace Env

def lookup (env : Env) (x : Symbol) : Option Datum := (env.find? fun entry => entry.1 == x).map (·.2)

/-- Gives the innermost variable of that name a new value. -/
def update (d : Datum) (x : Symbol) : Env → Option Env
  | [] => none
  | (y, old) :: env => if y == x then some ((y, d) :: env) else (update d x env).map ((y, old) :: ·)

end Env

/-! ## Operations -/

def BinaryOp.onInts (op : BinaryOp) (p : Primitive) (x y : Int) : Except Stop Datum :=
  let bitwise (f : BitVec p.bits → BitVec p.bits → BitVec p.bits) :=
    Datum.int p (p.ofBits (f (BitVec.ofInt p.bits x) (BitVec.ofInt p.bits y)))
  match op with
  | .add => .ok (.int p (p.wrap (x + y)))
  | .sub => .ok (.int p (p.wrap (x - y)))
  | .mul => .ok (.int p (p.wrap (x * y)))
  | .div => if y = 0 then .error .divideByZero else .ok (.int p (p.wrap (x.tdiv y)))
  | .rem => if y = 0 then .error .divideByZero else .ok (.int p (p.wrap (x.tmod y)))
  | .bitAnd => .ok (bitwise (· &&& ·))
  | .bitOr => .ok (bitwise (· ||| ·))
  | .bitXor => .ok (bitwise (· ^^^ ·))
  | .eq => .ok (.bool (x == y))
  | .ne => .ok (.bool (x != y))
  | .lt => .ok (.bool (x < y))
  | .le => .ok (.bool (x ≤ y))
  | .gt => .ok (.bool (y < x))
  | .ge => .ok (.bool (y ≤ x))
  | .shl | .shr => .error .stuck

/-- Shifts to the right fill in with the sign. -/
def BinaryOp.shift (op : BinaryOp) (p : Primitive) (x n : Int) : Except Stop Datum :=
  match op with
  | .shl => .ok (.int p (p.wrap (x * 2 ^ p.shiftCount n)))
  | .shr => .ok (.int p (x / 2 ^ p.shiftCount n))
  | _ => .error .stuck

def BinaryOp.onBools (op : BinaryOp) (a b : Bool) : Except Stop Datum :=
  match op with
  | .bitAnd => .ok (.bool (a && b))
  | .bitOr => .ok (.bool (a || b))
  | .bitXor => .ok (.bool (a ^^ b))
  | .eq => .ok (.bool (a == b))
  | .ne => .ok (.bool (a != b))
  | _ => .error .stuck

/-- Order comparisons with something that is not a number are false. -/
def BinaryOp.onFloats (op : BinaryOp) (x y : Float) : Except Stop Datum :=
  let ordered := !(x.isNaN || y.isNaN)
  match op with
  | .add => .ok (.float (x + y))
  | .sub => .ok (.float (x - y))
  | .mul => .ok (.float (x * y))
  | .div => .ok (.float (x / y))
  | .rem => .ok (.float (Decimal.remainder x y))
  | .eq => .ok (.bool (x == y))
  | .ne => .ok (.bool (x != y))
  | .lt => .ok (.bool (x < y))
  | .gt => .ok (.bool (x > y))
  | .le => .ok (.bool (ordered && !decide (x > y)))
  | .ge => .ok (.bool (ordered && !decide (x < y)))
  | _ => .error .stuck

def BinaryOp.isShift : BinaryOp → Bool
  | .shl | .shr => true
  | _ => false

/-- The value of an operation on two values. -/
def BinaryOp.apply (op : BinaryOp) : Datum → Datum → Except Stop Datum
  | .int p x, .int q y =>
    if op.isShift then if q = .i32 then op.shift p x y else .error .stuck
    else if p = q then op.onInts p x y else .error .stuck
  | .bool a, .bool b => op.onBools a b
  | .float x, .float y => op.onFloats x y
  | .ref v, .ref w =>
    match op with
    | .eq => .ok (.bool (v.same w))
    | .ne => .ok (.bool (!v.same w))
    | _ => .error .stuck
  | _, _ => .error .stuck

/-- The value of an operation on one value. -/
def UnaryOp.apply : UnaryOp → Datum → Except Stop Datum
  | .not, .bool b => .ok (.bool !b)
  | .not, .int p x => .ok (.int p (p.ofBits (~~~BitVec.ofInt p.bits x)))
  | .negate, .int p x => .ok (.int p (p.wrap (-x)))
  | .negate, .float x => .ok (.float (-x))
  | _, _ => .error .stuck

/-! ## Expressions -/

def Literal.datum? : Literal → Option Datum
  | .bool b => some (.bool b)
  | .i8 v => some (.int .i8 v.toInt)
  | .i16 v => some (.int .i16 v.toInt)
  | .i32 v => some (.int .i32 v.toInt)
  | .i64 v => some (.int .i64 v.toInt)
  | .u8 v => some (.int .u8 v.toNat)
  | .u16 v => some (.int .u16 v.toNat)
  | .u32 v => some (.int .u32 v.toNat)
  | .u64 v => some (.int .u64 v.toNat)
  | .string s => some (.ref (.str s))
  | .null _ => some (.ref .null)
  | .char _ | .f32 _ | .f64 _ => none

/-- Whether a case of a switch claims a number. -/
def CaseValues.claims (values : CaseValues) (v : Int) : Bool := values.toList.any fun u => (u.toNat : Int) == v

/-- The outcome of an evaluation: a value and the variables after it. -/
abbrev Outcome := Except Stop (Datum × Env)

namespace Expr

mutual
def eval : Expr → Env → Outcome
  | .literal v, env =>
    match v.datum? with
    | some d => .ok (d, env)
    | none => .error .stuck
  | .var x, env =>
    match env.lookup x with
    | some d => .ok (d, env)
    | none => .error .stuck
  | .assign x e, env => do
    let (d, env) ← eval e env
    match env.update d x with
    | some env => .ok (.void, env)
    | none => .error .stuck
  | .seq es, env => evalSeq es env
  | .and es, env => evalShort false es env
  | .or es, env => evalShort true es env
  | .ite c t f, env => do
    match ← eval c env with
    | (.bool true, env) => eval t env
    | (.bool false, env) => eval f env
    | _ => .error .stuck
  | .switch value cases fallback, env => do
    match ← eval value env with
    | (.int _ v, env) => (evalCases v cases env).getD (eval fallback env)
    | _ => .error .stuck
  | .letIn bs body, env => do
    let (bound, env) ← evalBindings bs env
    let (d, env) ← eval body (bound ++ env)
    .ok (d, env.drop bound.length)
  | .binary op l r, env => do
    let (a, env) ← eval l env
    let (b, env) ← eval r env
    let d ← op.apply a b
    .ok (d, env)
  | .unary op e, env => do
    let (a, env) ← eval e env
    let d ← op.apply a
    .ok (d, env)
  | _, _ => .error .stuck
termination_by structural e => e

/-- The value of the last expression. -/
def evalSeq : List Expr → Env → Outcome
  | [], env => .ok (.void, env)
  | [e], env => eval e env
  | e :: es, env => do
    let (_, env) ← eval e env
    evalSeq es env
termination_by structural es => es

/-- Conjunction stops at the first false, disjunction at the first true. -/
def evalShort (isOr : Bool) : List Expr → Env → Outcome
  | [], env => .ok (.bool true, env)
  | [e], env => eval e env
  | e :: es, env => do
    match ← eval e env with
    | (.bool b, env) => if b == isOr then .ok (.bool b, env) else evalShort isOr es env
    | _ => .error .stuck
termination_by structural es => es

/-- The case that claims the number, if any. -/
def evalCases (v : Int) : List (CaseValues × Expr) → Env → Option Outcome
  | [], _ => none
  | (values, e) :: cases, env =>
    if values.claims v then some (eval e env) else evalCases v cases env
termination_by structural cases => cases

/-- The bound variables, the last one first, and the outer ones after that. -/
def evalBindings : List (Symbol × Expr) → Env → Except Stop (Env × Env)
  | [], env => .ok ([], env)
  | (x, e) :: bs, env => do
    let (d, env) ← eval e env
    let (bound, env) ← evalBindings bs env
    .ok (bound ++ [(x, d)], env)
termination_by structural bs => bs
end

mutual
/-- Expressions built from plain literals, variables, assignments, sequences, conditions, switches,
    bindings, binary operations, `not` and `neg`. -/
def isFirstOrder : Expr → Bool
  | .literal v => v.datum?.isSome
  | .var _ => true
  | .assign _ e => e.isFirstOrder
  | .seq es => allFirstOrder es
  | .and es => allFirstOrder es
  | .or es => allFirstOrder es
  | .ite c t f => c.isFirstOrder && t.isFirstOrder && f.isFirstOrder
  | .switch value cases fallback => value.isFirstOrder && casesFirstOrder cases && fallback.isFirstOrder
  | .letIn bs body => bindingsFirstOrder bs && body.isFirstOrder
  | .binary _ l r => l.isFirstOrder && r.isFirstOrder
  | .unary .not e => e.isFirstOrder
  | .unary .negate e => e.isFirstOrder
  | _ => false
termination_by structural e => e

def allFirstOrder : List Expr → Bool
  | [] => true
  | e :: es => e.isFirstOrder && allFirstOrder es
termination_by structural es => es

def casesFirstOrder : List (CaseValues × Expr) → Bool
  | [] => true
  | (_, e) :: cases => e.isFirstOrder && casesFirstOrder cases
termination_by structural cases => cases

def bindingsFirstOrder : List (Symbol × Expr) → Bool
  | [] => true
  | (_, e) :: bs => e.isFirstOrder && bindingsFirstOrder bs
termination_by structural bs => bs
end

end Expr

end Stackwright
