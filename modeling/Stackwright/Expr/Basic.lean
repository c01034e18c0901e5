import Stackwright.Names.Symbol
import Stackwright.Names.Member

/-
  Stackwright.Expr.Basic — the expression language of method bodies.

  Expressions are plain data. Variables are named by symbols; members are reached through
  references. A lambda carries the symbol that names its closure type, so that every pass
  over the expression agrees on it. `==` compares expressions as written: symbols by
  identity, numbers by value, so an expression with a NaN in it differs from itself.
-/

namespace Stackwright

inductive Literal where
  | bool (v : Bool)
  | char (v : Char)
  | i8 (v : Int8)
  | i16 (v : Int16)
  | i32 (v : Int32)
  | i64 (v : Int64)
  | u8 (v : UInt8)
  | u16 (v : UInt16)
  | u32 (v : UInt32)
  | u64 (v : UInt64)
  | f32 (v : Float32)
  | f64 (v : Float)
  | string (v : String)
  /-- The null reference of a reference type. -/
  | null (type : TypeRef)
  deriving BEq, Inhabited

/-- The type of a literal, or what a null was given. -/
def Literal.type : Literal → TypeRef
  | .bool _ => .primitive .bool
  | .char _ => .primitive .char
  | .i8 _ => .primitive .i8
  | .i16 _ => .primitive .i16
  | .i32 _ => .primitive .i32
  | .i64 _ => .primitive .i64
  | .u8 _ => .primitive .u8
  | .u16 _ => .primitive .u16
  | .u32 _ => .primitive .u32
  | .u64 _ => .primitive .u64
  | .f32 _ => .primitive .f32
  | .f64 _ => .primitive .f64
  | .string _ => .primitive .string
  | .null type => type

inductive BinaryOp where
  | add | sub | mul | div | rem
  | bitAnd | bitOr | bitXor | shl | shr
  | eq | ne | lt | le | gt | ge
  deriving DecidableEq, Repr, Inhabited

namespace BinaryOp

def all : List BinaryOp :=
  [.add, .sub, .mul, .div, .rem, .bitAnd, .bitOr, .bitXor, .shl, .shr, .eq, .ne, .lt, .le, .gt, .ge]

def text : BinaryOp → String
  | .add => "+" | .sub => "-" | .mul => "*" | .div => "/" | .rem => "%"
  | .bitAnd => "&" | .bitOr => "|" | .bitXor => "^" | .shl => "<<" | .shr => ">>"
  | .eq => "==" | .ne => "!=" | .lt => "<" | .le => "<=" | .gt => ">" | .ge => ">="

def ofText? (s : String) : Option BinaryOp := all.find? (·.text == s)

def isComparison : BinaryOp → Bool
  | .eq | .ne | .lt | .le | .gt | .ge => true
  | _ => false

end BinaryOp

inductive UnaryOp where
  | not
  | negate
  | convert (target : Primitive)
  deriving DecidableEq, Repr, Inhabited

namespace UnaryOp

def all : List UnaryOp := .not :: .negate :: Primitive.all.map .convert

def text : UnaryOp → String
  | .not => "not"
  | .negate => "neg"
  | .convert target => "as-" ++ target.text

def ofText? (s : String) : Option UnaryOp := all.find? (·.text == s)

end UnaryOp

structure Param where
  name : Symbol
  type : TypeRef
  deriving BEq, Inhabited

/-- The values that lead to one case of a switch. -/
abbrev CaseValues := Std.TreeSet UInt32

def CaseValues.of (values : List UInt32) : CaseValues := values.foldl (fun s v => s.insert v) ∅

inductive Expr where
  | literal (value : Literal)
  | var (name : Symbol)
  | assign (name : Symbol) (value : Expr)
  /-- Evaluates in turn; the last value is the result. -/
  | seq (items : List Expr)
  | and (items : List Expr)
  | or (items : List Expr)
  | ite (condition thenCase elseCase : Expr)
  | switch (value : Expr) (cases : List (CaseValues × Expr)) (fallback : Expr)
  /-- Every bound value is evaluated outside the scope of the new names. -/
  | letIn (bindings : List (Symbol × Expr)) (body : Expr)
  | lambda (closure : Symbol) (params : List Param) (body : Expr)
  | invoke (function : Expr) (args : List Expr)
  | binary (op : BinaryOp) (left right : Expr)
  | unary (op : UnaryOp) (operand : Expr)
  | getField (target : Expr) (field : FieldRef)
  | getStatic (field : FieldRef)
  | setField (target : Expr) (field : FieldRef) (value : Expr)
  | setStatic (field : FieldRef) (value : Expr)
  | new (ctor : ConstructorRef) (args : List Expr)
  | call (target : Expr) (method : MethodRef) (args : List Expr)
  | callStatic (method : MethodRef) (args : List Expr)
  deriving Inhabited

namespace Expr

/-- Immediate parts, in the order of evaluation. -/
def children : Expr → List Expr
  | .literal _ | .var _ | .getStatic _ => []
  | .assign _ value => [value]
  | .seq items | .and items | .or items => items
  | .ite c t e => [c, t, e]
  | .switch value cases fallback => value :: cases.map (·.2) ++ [fallback]
  | .letIn bindings body => bindings.map (·.2) ++ [body]
  | .lambda _ _ body => [body]
  | .invoke function args => function :: args
  | .binary _ left right => [left, right]
  | .unary _ operand => [operand]
  | .getField target _ => [target]
  | .setField target _ value => [target, value]
  | .setStatic _ value => [value]
  | .new _ args => args
  | .call target _ args => target :: args
  | .callStatic _ args => args

/-! ## Equality -/

mutual
def same : Expr → Expr → Bool
  | .literal a, .literal b => a == b
  | .var x, .var y => x == y
  | .assign x a, .assign y b => x == y && same a b
  | .seq as, .seq bs => sameAll as bs
  | .and as, .and bs => sameAll as bs
  | .or as, .or bs => sameAll as bs
  | .ite a b c, .ite d e f => same a d && same b e && same c f
  | .switch a as b, .switch c bs d => same a c && sameCases as bs && same b d
  | .letIn as a, .letIn bs b => sameBindings as bs && same a b
  | .lambda x ps a, .lambda y qs b => x == y && ps == qs && same a b
  | .invoke a as, .invoke b bs => same a b && sameAll as bs
  | .binary o a b, .binary p c d => o == p && same a c && same b d
  | .unary o a, .unary p b => o == p && same a b
  | .getField a f, .getField b g => same a b && f == g
  | .getStatic f, .getStatic g => f == g
  | .setField a f b, .setField c g d => same a c && f == g && same b d
  | .setStatic f a, .setStatic g b => f == g && same a b
  | .new c as, .new d bs => c == d && sameAll as bs
  | .call a m as, .call b n bs => same a b && m == n && sameAll as bs
  | .callStatic m as, .callStatic n bs => m == n && sameAll as bs
  | _, _ => false

def sameAll : List Expr → List Expr → Bool
  | [], [] => true
  | a :: as, b :: bs => same a b && sameAll as bs
  | _, _ => false

def sameCases : List (CaseValues × Expr) → List (CaseValues × Expr) → Bool
  | [], [] => true
  | (u, a) :: as, (v, b) :: bs => u.toList == v.toList && same a b && sameCases as bs
  | _, _ => false

def sameBindings : List (Symbol × Expr) → List (Symbol × Expr) → Bool
  | [], [] => true
  | (x, a) :: as, (y, b) :: bs => x == y && same a b && sameBindings as bs
  | _, _ => false
end

instance : BEq Expr := ⟨same⟩

/-! ## References -/

mutual
/-- Adds every key the expression mentions. The closure types of lambdas are not among
them: those come with the lambdas. -/
def addKeys : Expr → KeySet → KeySet
  | .literal (.null type), s => type.addKeys s
  | .literal _, s => s
  | .var _, s => s
  | .assign _ value, s => value.addKeys s
  | .seq items, s => addAllKeys items s
  | .and items, s => addAllKeys items s
  | .or items, s => addAllKeys items s
  | .ite c t e, s => e.addKeys (t.addKeys (c.addKeys s))
  | .switch value cases fallback, s => fallback.addKeys (addCaseKeys cases (value.addKeys s))
  | .letIn bindings body, s => body.addKeys (addBindingKeys bindings s)
  | .lambda _ params body, s => body.addKeys (TypeRef.addAllKeys (params.map (·.type)) s)
  | .invoke function args, s => addAllKeys args (function.addKeys s)
  | .binary _ left right, s => right.addKeys (left.addKeys s)
  | .unary _ operand, s => operand.addKeys s
  | .getField target field, s => target.addKeys (field.addKeys s)
  | .getStatic field, s => field.addKeys s
  | .setField target field value, s => value.addKeys (target.addKeys (field.addKeys s))
  | .setStatic field value, s => value.addKeys (field.addKeys s)
  | .new ctor args, s => addAllKeys args (ctor.addKeys s)
  | .call target method args, s => addAllKeys args (target.addKeys (method.addKeys s))
  | .callStatic method args, s => addAllKeys args (method.addKeys s)

def addAllKeys : List Expr → KeySet → KeySet
  | [], s => s
  | e :: es, s => addAllKeys es (e.addKeys s)

def addCaseKeys : List (CaseValues × Expr) → KeySet → KeySet
  | [], s => s
  | (_, e) :: es, s => addCaseKeys es (e.addKeys s)

def addBindingKeys : List (Symbol × Expr) → KeySet → KeySet
  | [], s => s
  | (_, e) :: es, s => addBindingKeys es (e.addKeys s)
end

def keys (e : Expr) : KeySet := e.addKeys ∅

end Expr

end Stackwright
