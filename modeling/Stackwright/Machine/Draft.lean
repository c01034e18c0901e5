import Stackwright.Effect
import Stackwright.Machine.Program

/-
  Stackwright.Machine.Draft — collecting a body.

  Labels are numbered as they are defined and placed when they are marked; all must be
  placed when the body is finished. Each block of a protected region is closed when the
  next one begins: a finally handler with `endfinally`, any other block by leaving to the
  region's end label.
-/

namespace Stackwright.Machine

/-- A protected region that is still being collected. -/
structure OpenRegion where
  start : Nat
  tryEnd : Option Nat := none
  endLabel : LabelId
  /-- Last one first. -/
  handlers : List Handler := []
  deriving Inhabited

/-- Where the block that runs last ends. -/
def OpenRegion.close (r : OpenRegion) (pc : Nat) : OpenRegion :=
  { r with
    tryEnd := some (r.tryEnd.getD pc)
    handlers := match r.handlers with
      | [] => []
      | last :: rest => { last with span.stop := pc } :: rest }

def OpenRegion.inFinally (r : OpenRegion) : Bool :=
  match r.handlers with
  | last :: _ => last.kind == .finally
  | [] => false

def OpenRegion.finish (r : OpenRegion) (pc : Nat) : Region :=
  { tried := ⟨r.start, r.tryEnd.getD pc⟩, handlers := r.handlers.reverse }

structure Draft where
  ops : Array Op := #[]
  /-- The position of each label, once it is marked. -/
  labels : Array (Option Nat) := #[]
  locals : Array Ty := #[]
  /-- Innermost first. -/
  opened : List OpenRegion := []
  regions : Array Region := #[]
  deriving Inhabited

namespace Draft

def refuse {σ α : Type} (fault : BackendFault) : Effect σ α := throw (.backend fault)

/-- The position of the next operation. -/
def pc (d : Draft) : Nat := d.ops.size

def defineLabel : Effect Draft LabelId := do
  let d ← get
  set { d with labels := d.labels.push none }
  pure ⟨d.labels.size⟩

def markLabel (label : LabelId) : Effect Draft Unit := do
  let d ← get
  match d.labels[label.index]? with
  | some none => set { d with labels := d.labels.setIfInBounds label.index (some d.pc) }
  | some (some _) => refuse (.labelMarkedTwice label.text)
  | none => refuse (.labelNeverDefined label.text)

def declareLocal (type : Ty) : Effect Draft LocalId := do
  let d ← get
  set { d with locals := d.locals.push type }
  pure ⟨d.locals.size⟩

def beginTry : Effect Draft LabelId := do
  let endLabel ← defineLabel
  modify fun d => { d with opened := { start := d.pc, endLabel } :: d.opened }
  pure endLabel

/-- Ends the block or handler that is being collected. -/
def leaveBlock : Effect Draft Unit := do
  let d ← get
  match d.opened with
  | [] => refuse .handlerOutsideRegion
  | region :: outer =>
    let last := if region.inFinally then Op.endFinally else .plain (.leave region.endLabel)
    let ops := d.ops.push last
    set { d with ops, opened := region.close ops.size :: outer }

def beginHandler (kind : HandlerKind) : Effect Draft Unit := do
  leaveBlock
  modify fun d =>
    match d.opened with
    | [] => d
    | region :: outer =>
      let handler := { kind, span := ⟨d.pc, d.pc⟩ }
      { d with opened := { region with handlers := handler :: region.handlers } :: outer }

def endTry : Effect Draft Unit := do
  match (← get).opened with
  | [] => refuse .handlerOutsideRegion
  | region :: _ =>
    if region.handlers.isEmpty then refuse .regionWithoutHandlers
    else
      leaveBlock
      modify fun d =>
        match d.opened with
        | [] => d
        | region :: outer =>
          { d with
            opened := outer
            labels := d.labels.setIfInBounds region.endLabel.index (some d.pc)
            regions := d.regions.push (region.finish d.pc) }

/-- The labels an operation can go to. -/
def targets : Stackwright.Op handles → List LabelId
  | .branch _ target | .leave target => [target]
  | .switch targets => targets
  | _ => []

def emit (op : Stackwright.Op handles) : Effect Draft Unit := do
  let d ← get
  match (targets op).find? fun label => label.index ≥ d.labels.size with
  | some label => refuse (.labelNeverDefined label.text)
  | none => set { d with ops := d.ops.push (.plain op) }

/-- The positions of the labels, counted from the given number on. -/
def placed : Nat → List (Option Nat) → Except BuildError (List Nat)
  | _, [] => .ok []
  | index, some pc :: rest => do
    let more ← placed (index + 1) rest
    .ok (pc :: more)
  | index, none :: _ => .error (.backend (.labelNeverMarked (LabelId.text ⟨index⟩)))

def finish (d : Draft) : Except BuildError Code :=
  if d.opened.isEmpty then do
    let labels ← placed 0 d.labels.toList
    .ok { ops := d.ops, labels := labels.toArray, locals := d.locals.toList
          regions := d.regions.toList }
  else .error (.backend .regionOpen)

end Draft

end Stackwright.Machine
