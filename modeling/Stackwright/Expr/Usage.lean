import Std.Data.TreeMap
import Stackwright.Expr.Basic

/-
  Stackwright.Expr.Usage — the free variables of an expression and how each is used.

  A variable is written when some free occurrence assigns it, and captured when some free
  occurrence lies inside a lambda. Captured variables have to live in cells; all others
  keep plain storage.
-/

namespace Stackwright

structure Usage where
  written : Bool := false
  captured : Bool := false
  deriving DecidableEq, Repr, Inhabited

def Usage.merge (a b : Usage) : Usage :=
  { written := a.written || b.written, captured := a.captured || b.captured }

/-- Free variables in symbol order. Of equal symbols the one met first is listed. -/
abbrev Usages := Std.TreeMap Symbol Usage Symbol.order

namespace Usages

def add (m : Usages) (name : Symbol) (usage : Usage) : Usages :=
  m.insert (m.getKeyD name name) ((m.getD name {}).merge usage)

def union (a b : Usages) : Usages := b.toList.foldl (fun m entry => m.add entry.1 entry.2) a

def without (m : Usages) (bound : List Symbol) : Usages := bound.foldl (fun m name => m.erase name) m

def markCaptured (m : Usages) : Usages := m.map fun _ usage => { usage with captured := true }

def isWritten (m : Usages) (name : Symbol) : Bool := (m.get? name).any (·.written)

def isCaptured (m : Usages) (name : Symbol) : Bool := (m.get? name).any (·.captured)

end Usages

namespace Expr

mutual
def usages : Expr → Usages
  | .literal _ => ∅
  | .var name => Usages.add ∅ name {}
  | .assign name value => value.usages.add name { written := true }
  | .seq items => usagesAll items ∅
  | .and items => usagesAll items ∅
  | .or items => usagesAll items ∅
  | .ite c t e => (c.usages.union t.usages).union e.usages
  | .switch value cases fallback => (usagesCases cases value.usages).union fallback.usages
  | .letIn bindings body =>
    (usagesBindings bindings ∅).union (body.usages.without (bindings.map (·.1)))
  | .lambda _ params body => (body.usages.without (params.map (·.name))).markCaptured
  | .invoke function args => usagesAll args function.usages
  | .binary _ left right => left.usages.union right.usages
  | .unary _ operand => operand.usages
  | .getField target _ => target.usages
  | .getStatic _ => ∅
  | .setField target _ value => target.usages.union value.usages
  | .setStatic _ value => value.usages
  | .new _ args => usagesAll args ∅
  | .call target _ args => usagesAll args target.usages
  | .callStatic _ args => usagesAll args ∅

/-- Joins the usages of several expressions to those already found. -/
def usagesAll : List Expr → Usages → Usages
  | [], m => m
  | e :: es, m => usagesAll es (m.union e.usages)

def usagesCases : List (CaseValues × Expr) → Usages → Usages
  | [], m => m
  | (_, e) :: es, m => usagesCases es (m.union e.usages)

def usagesBindings : List (Symbol × Expr) → Usages → Usages
  | [], m => m
  | (_, e) :: es, m => usagesBindings es (m.union e.usages)
end

end Expr

end Stackwright
