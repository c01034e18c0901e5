import Stackwright.Plan.Order
import Stackwright.Target.Basic

/-
  Stackwright.Plan.Step — tasks with the work they stand for.

  A step may read the slots of its inputs and has to write the slots of its outputs. Running
  steps plans them, creates the slots of all outputs, and carries the steps out in order
  until one fails or leaves an output unwritten.
-/

namespace Stackwright

/-- What steps work on. -/
structure Workspace (T : Target) where
  program : T.State
  slots : Slots T.toHandles := ∅

namespace Workspace

variable {T : Target} {α : Type}

def ofProgram (x : Effect T.State α) : Effect (Workspace T) α :=
  Effect.zoom (·.program) (fun program w => { w with program }) x

def read (key : ItemKey) : Effect (Workspace T) (T.At key) := do (← get).slots.read key

def write (key : ItemKey) (value : T.At key) : Effect (Workspace T) Unit := do
  let w ← get
  let slots ← w.slots.write key value
  set { w with slots }

end Workspace

structure Step (T : Target) extends Task where
  action : Effect (Workspace T) Unit

namespace Step

variable {T : Target}

def createSlots (steps : List (Step T)) (slots : Slots T.toHandles) : Slots T.toHandles :=
  steps.foldl (fun s step => step.outputs.toList.foldl Slots.create s) slots

/-- Carries out one step and checks that it kept its word. -/
def run (step : Step T) : Effect (Workspace T) Unit := do
  step.action
  let slots := (← get).slots
  match step.outputs.toList.find? fun key => !slots.isWritten key with
  | some key => throw (.structural (.unproduced step.description key))
  | none => pure ()

/-- Descriptions of the steps carried out, in order. -/
def runAll (steps : Array (Step T)) : List Nat → Effect (Workspace T) (List String)
  | [] => pure []
  | i :: order =>
    match steps[i]? with
    | none => runAll steps order
    | some step => do
      step.run
      let rest ← runAll steps order
      pure (step.description :: rest)

def execute (steps : List (Step T)) : Effect (Workspace T) (List String) := do
  let order ← Task.plan (steps.map (·.toTask))
  modify fun w => { w with slots := createSlots steps w.slots }
  runAll steps.toArray order

end Step

end Stackwright
