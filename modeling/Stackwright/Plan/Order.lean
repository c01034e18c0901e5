import Stackwright.Error

/-
  Stackwright.Plan.Order — in which order tasks run.

  A task has a phase, keys it needs and keys it makes. Phases run in ascending order. Within
  a phase a task is ready once all it needs has been made, by an earlier phase or by a task
  that already ran; among ready tasks the one listed first runs first. No key may be made
  twice. When tasks of a phase are left over, each is reported with what it waits for.

  A phase keeps, for each task that is not ready, how many keys it still lacks, and for each
  such key who waits for it. A key that is made counts down the tasks that wait for it.
-/

namespace Stackwright

structure Task where
  phase : Nat
  description : String
  inputs : KeySet
  outputs : KeySet

/-- A task and its place in the list of all tasks. -/
abbrev Placed := Task × Nat

namespace Task

/-- The keys that a task lacks, ascending. -/
def unmet (available : KeySet) (t : Task) : List ItemKey := t.inputs.toList.filter fun key => !available.contains key

/-- The first key, in list order and then key order, that some task makes again. -/
def madeTwice? (made : KeySet) : List Task → Option ItemKey
  | [] => none
  | t :: ts =>
    match t.outputs.toList.find? made.contains with
    | some key => some key
    | none => madeTwice? (made.insertMany t.outputs.toList) ts

/-- The phases that occur, ascending. -/
def phases (tasks : List Task) : List Nat :=
  (tasks.foldl (fun s t => s.insert t.phase) (∅ : Std.TreeSet Nat)).toList

end Task

/-- A phase at work. -/
structure Worklist where
  available : KeySet
  /-- How many keys each waiting task lacks. -/
  missing : Std.TreeMap Nat Nat := ∅
  /-- The tasks that wait for a key, in the order of their places. -/
  waiting : Std.TreeMap ItemKey (List Nat) ItemKey.order := ∅
  ready : Std.TreeSet Nat := ∅

namespace Worklist

def enroll (w : Worklist) (p : Placed) : Worklist :=
  match p.1.unmet w.available with
  | [] => { w with ready := w.ready.insert p.2 }
  | unmet =>
    { w with
      missing := w.missing.insert p.2 unmet.length
      waiting := unmet.foldl (fun waiting key => waiting.insert key (waiting.getD key [] ++ [p.2])) w.waiting }

/-- One of the keys that a task waits for is there. -/
def countDown (w : Worklist) (waiter : Nat) : Worklist :=
  match w.missing[waiter]? with
  | none => w
  | some count =>
    if count - 1 == 0 then { w with missing := w.missing.erase waiter, ready := w.ready.insert waiter }
    else { w with missing := w.missing.insert waiter (count - 1) }

def supply (w : Worklist) (key : ItemKey) : Worklist :=
  if w.available.contains key then w
  else
    (w.waiting.getD key []).foldl countDown
      { w with available := w.available.insert key, waiting := w.waiting.erase key }

/-- Takes a task out of the ready ones and makes its keys. -/
def run (tasks : List Task) (w : Worklist) (place : Nat) : Worklist :=
  match tasks[place]? with
  | none => { w with ready := w.ready.erase place }
  | some t => t.outputs.toList.foldl supply { w with ready := w.ready.erase place }

/-- Runs ready tasks, first one first, at most as many as the number given. -/
def drain (tasks : List Task) : Nat → Worklist → List Nat × Worklist
  | 0, w => ([], w)
  | n + 1, w =>
    match w.ready.toList.head? with
    | none => ([], w)
    | some place =>
      let rest := drain tasks n (w.run tasks place)
      (place :: rest.1, rest.2)

end Worklist

namespace Task

/-- Why a key that a task of the given phase needs is not there. -/
def unmetReason (tasks : List Task) (phase : Nat) (key : ItemKey) : UnmetReason :=
  match tasks.find? fun t => t.outputs.contains key with
  | none => .noProducer
  | some producer => if producer.phase > phase then .laterPhase producer.phase else .blocked

def stuck (tasks : List Task) (available : KeySet) (t : Task) : StuckStep :=
  { description := t.description
    unmet := (t.unmet available).map fun key => (key, unmetReason tasks t.phase key) }

def planPhases (tasks : List Task) (available : KeySet) : List Nat → Except BuildError (List Nat)
  | [] => .ok []
  | phase :: phases => do
    let members := tasks.zipIdx.filter fun p => p.1.phase == phase
    let (order, w) := Worklist.drain tasks members.length (members.foldl Worklist.enroll { available })
    if w.missing.isEmpty then
      let rest ← planPhases tasks w.available phases
      .ok (order ++ rest)
    else
      .error (.scheduling phase (w.missing.keys.filterMap fun place => tasks[place]?.map (stuck tasks w.available)))

/-- The order of execution, as places in the list. -/
def plan (tasks : List Task) : Except BuildError (List Nat) :=
  match madeTwice? ∅ tasks with
  | some key => .error (.singleAssignment key)
  | none => planPhases tasks ∅ (phases tasks)

end Task

end Stackwright
