import Stackwright.Expr.Closure
import Stackwright.Module.Definition

/-
  Stackwright.Module.Closures — definitions for the lambdas in a module's bodies.
-/

namespace Stackwright

/-- Stores the cells, which are the arguments from the given number on, into the fields. -/
def ClosureLayout.storeCells (l : ClosureLayout) : Nat → List (Symbol × TypeRef) → List Instr
  | _, [] => []
  | index, (name, _) :: captures =>
    .loadArg 0 :: .loadArg (UInt16.ofNat index) :: .storeField (.deferred (l.field name)) ::
      l.storeCells (index + 1) captures

/-- The sealed type that a lambda turns into. -/
def ClosureLayout.definition (l : ClosureLayout) : TypeDefinition :=
  let fields := l.captures.map fun c =>
    Member.field { name := (l.field c.1).name, attributes := { isPrivate := true }
                   fieldType := .cell c.2 }
  let code := [.loadArg 0, .callConstructor (.existing .object)] ++ l.storeCells 1 l.captures ++
    [.op .ret]
  { key := l.key
    attributes := { isSealed := true }
    members := fields ++
      [.constructor { attributes := { isPublic := true }, body := .code l.cellTypes { code } },
       .method { name := invokeName, attributes := { isPublic := true, isFinal := true }
                 returnType := l.returnType, body := .expr l.invokeBody }] }

def Body.typeEnv (b : Body) (h : Hierarchy) : TypeEnv :=
  b.captures.foldl (fun env c => env.bind c.name c.type)
    (TypeEnv.bindParams { hierarchy := h } b.params)

def Member.closures (h : Hierarchy) : Member → Except BuildError (List ClosureLayout)
  | .method { body := .expr body, .. } => body.body.closures (body.typeEnv h)
  | .constructor { body := .expr body base, .. } => do
    let env := body.typeEnv h
    let args := base.toList.flatMap (·.args)
    let layouts ← (args ++ [body.body]).mapM fun e => e.closures env
    .ok layouts.flatten
  | _ => .ok []

/-- The types that the lambdas in a definition's bodies need. -/
def TypeDefinition.closures (d : TypeDefinition) (h : Hierarchy) :
    Except BuildError (List TypeDefinition) := do
  let layouts ← d.members.mapM fun m => m.closures h
  .ok (layouts.flatten.map (·.definition))

end Stackwright
