import Stackwright.Module.Closures

/-
  Stackwright.Module.Declare — everything a module declares.

  The types of a module are declared in order, then the types its lambdas need, in key order.
  A lambda that occurs in several places must need the same type in all of them.
-/

namespace Stackwright

structure Module where
  types : List TypeDefinition := []
  deriving BEq, Inhabited

/-- All definitions of a module, those for lambdas last, and the table of their keys. -/
structure Declared where
  table : Table
  definitions : List TypeDefinition

abbrev DefinitionMap := Std.TreeMap TypeKey TypeDefinition TypeKey.order

def DefinitionMap.add (m : DefinitionMap) (d : TypeDefinition) : Except BuildError DefinitionMap :=
  match m.get? d.key with
  | none => .ok (m.insert d.key d)
  | some known => if known != d then .error (.declaration (.type d.key)) else .ok m

def DefinitionMap.addClosures (h : Hierarchy) (m : DefinitionMap) (d : TypeDefinition) :
    Except BuildError DefinitionMap := do
  let closures ← d.closures h
  closures.foldlM DefinitionMap.add m

def declareAll (t : Table) (definitions : List TypeDefinition) : Except BuildError Table :=
  definitions.foldlM (fun t d => d.declare t) t

def Module.declare (m : Module) (catalog : Metadata) : Except BuildError Declared := do
  let table ← declareAll ∅ m.types
  let closures ← m.types.foldlM (DefinitionMap.addClosures { table, catalog }) ∅
  let table ← declareAll table closures.values
  .ok { table, definitions := m.types ++ closures.values }

end Stackwright
