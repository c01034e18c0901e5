import Stackwright.Module.Declare
import Stackwright.Module.Steps

/-
  Stackwright.Module.Build — building a module on a target.

  A build declares everything, makes all steps and carries them out. It stops at the first
  fault; the target keeps what was made until then.
-/

namespace Stackwright

/-- A finished build. -/
structure Built (T : Target) where
  slots : Slots T.toHandles
  table : Table
  /-- Descriptions of the steps, in the order in which they were carried out. -/
  executed : List String

/-- What a build changes: the supply of names and the target's program. -/
structure BuildState (T : Target) where
  supply : Supply
  program : T.State

variable (T : Target)

def stepsOfAll (h : Hierarchy) (options : BuildOptions) :
    List TypeDefinition → Lower (List (Step T))
  | [] => pure []
  | d :: ds => do
    let first ← d.steps T h options
    let rest ← stepsOfAll h options ds
    pure (first ++ rest)

/-- The steps of all definitions in order. -/
def Declared.steps (d : Declared) (catalog : Metadata) (options : BuildOptions) : Lower (List (Step T)) :=
  stepsOfAll T { table := d.table, catalog } options d.definitions

def Module.build (m : Module) (catalog : Metadata) (options : BuildOptions) :
    Effect (BuildState T) (Built T) := do
  let declared ← m.declare catalog
  let steps ← Effect.zoom BuildState.supply (fun supply s => { s with supply })
    (declared.steps T catalog options)
  let (outcome, after) := (Step.execute steps).exec { program := (← get).program }
  modify fun s => { s with program := after.program }
  let executed ← outcome
  pure { slots := after.slots, table := declared.table, executed }

end Stackwright
