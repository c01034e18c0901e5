import Stackwright.Expr.Lowering

/-
  Stackwright.Expr.Closure — the types that lambdas turn into.

  A lambda becomes a type with one field per captured variable, holding that variable's
  cell, a constructor that takes the cells in the same order, and one method made from the
  lambda's body. Captured variables are listed in symbol order. The same lambda may occur
  several times if its layout is the same each time.
-/

namespace Stackwright

structure ClosureLayout where
  key : TypeKey
  /-- Captured variables with the types of their values, in symbol order. -/
  captures : List (Symbol × TypeRef)
  params : List Param
  returnType : TypeRef
  body : Expr
  deriving BEq, Inhabited

namespace ClosureLayout

def captureTypes (whole : Expr) (env : TypeEnv) :
    List Symbol → Except BuildError (List (Symbol × TypeRef))
  | [] => .ok []
  | name :: names =>
    match env.lookup name with
    | none => Expr.fault whole (.unbound name)
    | some type => do
      let rest ← captureTypes whole env names
      .ok ((name, type) :: rest)

/-- The layout of a lambda in the given scope. -/
def of (closure : Symbol) (params : List Param) (body : Expr) (env : TypeEnv) :
    Except BuildError ClosureLayout := do
  let whole := Expr.lambda closure params body
  let captures ← captureTypes whole env whole.usages.keys
  let type ← whole.typeOf env
  .ok { key := closureKey closure, captures, params,
        returnType := (type.signature?.map (·.2)).getD .void, body }

def field (l : ClosureLayout) (capture : Symbol) : FieldKey := l.key.field capture.text

def cellTypes (l : ClosureLayout) : List TypeRef := l.captures.map fun c => .cell c.2

def constructor (l : ClosureLayout) : ConstructorKey := l.key.constructor l.cellTypes

def invoke (l : ClosureLayout) : MethodKey :=
  l.key.method invokeName (l.params.map (·.type)) true

def delegateType (l : ClosureLayout) : TypeRef := .delegate (l.params.map (·.type)) l.returnType

/-- The receiver of a closure's method. -/
def receiver : Symbol := .named "<closure-self>"

/-- The body of the closure's method: the receiver comes first and leads to the captures. -/
def invokeBody (l : ClosureLayout) : Body :=
  { params := ⟨receiver, .deferred l.key⟩ :: l.params
    captures := l.captures.map fun c => ⟨c.1, c.2, .deferred (l.field c.1)⟩
    body := l.body }

end ClosureLayout

/-- Layouts by key. -/
abbrev Closures := Std.TreeMap TypeKey ClosureLayout TypeKey.order

/-- Adds a layout; a different one under the same key is refused. -/
def Closures.add (found : Closures) (layout : ClosureLayout) : Except BuildError Closures :=
  match found.get? layout.key with
  | none => .ok (found.insert layout.key layout)
  | some known => if known != layout then .error (.declaration (.type layout.key)) else .ok found

namespace Expr

mutual
def collect : Expr → TypeEnv → Closures → Except BuildError Closures
  | .literal _, _, found | .var _, _, found | .getStatic _, _, found => .ok found
  | .assign _ value, env, found => collect value env found
  | .seq items, env, found => collectAll items env found
  | .and items, env, found => collectAll items env found
  | .or items, env, found => collectAll items env found
  | .ite c t f, env, found => do
    let found ← collect c env found
    let found ← collect t env found
    collect f env found
  | .switch value cases fallback, env, found => do
    let found ← collect value env found
    let found ← collectCases cases env found
    collect fallback env found
  | .letIn bindings body, env, found => do
    let (inner, found) ← collectBindings bindings env env found
    collect body inner found
  | .lambda closure params body, env, found => do
    let layout ← ClosureLayout.of closure params body env
    let found ← found.add layout
    collect body (env.bindParams params) found
  | .invoke function args, env, found => do
    let found ← collect function env found
    collectAll args env found
  | .binary _ left right, env, found => do
    let found ← collect left env found
    collect right env found
  | .unary _ operand, env, found => collect operand env found
  | .getField target _, env, found => collect target env found
  | .setField target _ value, env, found => do
    let found ← collect target env found
    collect value env found
  | .setStatic _ value, env, found => collect value env found
  | .new _ args, env, found => collectAll args env found
  | .call target _ args, env, found => do
    let found ← collect target env found
    collectAll args env found
  | .callStatic _ args, env, found => collectAll args env found
termination_by structural e => e

def collectAll : List Expr → TypeEnv → Closures → Except BuildError Closures
  | [], _, found => .ok found
  | e :: es, env, found => do
    let found ← collect e env found
    collectAll es env found
termination_by structural es => es

def collectCases : List (CaseValues × Expr) → TypeEnv → Closures → Except BuildError Closures
  | [], _, found => .ok found
  | (_, e) :: es, env, found => do
    let found ← collect e env found
    collectCases es env found
termination_by structural cases => cases

/-- Values are searched in the outer scope and bound in the inner one. -/
def collectBindings :
    List (Symbol × Expr) → TypeEnv → TypeEnv → Closures → Except BuildError (TypeEnv × Closures)
  | [], _, inner, found => .ok (inner, found)
  | (name, value) :: rest, env, inner, found => do
    let found ← collect value env found
    let type ← value.typeOf env
    collectBindings rest env (inner.bind name type) found
termination_by structural bindings => bindings
end

/-- The layouts of all lambdas, also of those inside lambdas, in key order. -/
def closures (e : Expr) (env : TypeEnv) : Except BuildError (List ClosureLayout) := do
  let found ← e.collect env ∅
  .ok found.values

end Expr

end Stackwright
