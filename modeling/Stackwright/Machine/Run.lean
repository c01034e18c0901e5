import Stackwright.Machine.Step

/-
  Stackwright.Machine.Run — running methods.

  Frames are listed top first. A tail call gives up the caller's frame before the callee's
  is made, so it never adds to the depth; the callee's value goes where the caller's would
  have gone. An exception unwinds frames until a handler takes it. A run is bounded by a
  number of operations; a run that is not finished by then has no outcome.
-/

namespace Stackwright.Machine

/-- The most frames there can be. -/
def maxFrames : Nat := 512

inductive Progress where
  | running (frames : List Frame)
  | done (value : Value)

/-- Gives up the top frame and hands a value to the next. -/
def finishFrame (value : Value) : List Frame → Progress
  | [] => .running []
  | [top] => .done ((top.onReturn.result value).getD .null)
  | top :: caller :: rest => .running (caller.pushAll (top.onReturn.result value).toList :: rest)

def newFrame (record : MethodRecord) (code : Code) (call : Call) : Frame :=
  { method := call.method, code, args := call.args.toArray
    locals := (code.locals.map Value.initial).toArray
    returnsValue := !(record.ret == .void), onReturn := call.onReturn }

/-- A call of a method that the machine provides. -/
def invokeNative (natives : Natives) (record : MethodRecord) (frames : List Frame) (call : Call) :
    Act Progress := do
  let args := if record.isStatic then .null :: call.args else call.args
  let value ← natives.call call.method.name args
  let result := call.onReturn.result value
  match frames with
  | [] => pure (.done (result.getD .null))
  | top :: rest =>
    if call.tail then pure (finishFrame (result.getD .null) frames)
    else pure (.running (top.pushAll result.toList :: rest))

/-- A call of a method of the program. -/
def invokeCode (record : MethodRecord) (code : Code) (frames : List Frame) (call : Call) :
    Except Fault Progress :=
  if call.args.length != record.arity then
    .error (.invalidOperand call.method.name
      ("expected " ++ toString record.arity ++ " arguments, got " ++ toString call.args.length))
  else
    let (call, frames) := match call.tail, frames with
      | true, replaced :: rest => ({ call with onReturn := replaced.onReturn }, rest)
      | _, _ => (call, frames)
    if frames.length ≥ maxFrames then .error .stackOverflow
    else .ok (.running (newFrame record code call :: frames))

def invoke (p : Program) (natives : Natives) (frames : List Frame) (call : Call) : Act Progress :=
  let record := p.method call.method
  match record.kind with
  | .native => invokeNative natives record frames call
  | .defined (some code) => invokeCode record code frames call
  | .defined none | .abstract => throw (.missingBody call.method.name)

/-! ## Exceptions -/

inductive HandlerTarget where
  | catching (start : Nat)
  | finally (span : Span)

/-- What the regions, innermost first, do with an exception thrown at `pc`. A region's try
block offers its catch handlers and then its finally handler; a catch handler is covered
only by the finally handler of its region. -/
def handlerFor (p : Program) (thrown : Ty) (pc : Nat) : List Region → Option HandlerTarget
  | [] => none
  | r :: rest =>
    let finallyTarget := r.finallyHandler.map fun h => HandlerTarget.finally h.span
    if r.tried.contains pc then
      let caught := r.handlers.findSome? fun h =>
        match h.kind with
        | .catching type => if p.isSubtype thrown type then some (.catching h.span.start) else none
        | .finally => none
      (caught.or finallyTarget).or (handlerFor p thrown pc rest)
    else
      match r.handlerAt pc with
      | some ⟨.catching _, _⟩ => finallyTarget.or (handlerFor p thrown pc rest)
      | _ => handlerFor p thrown pc rest

/-- Hands an exception to the nearest handler. Every frame is past the operation it carried
out last. -/
def unwind (p : Program) (h : Heap) (exception : Value) : List Frame → Except Fault (List Frame)
  | [] => .error (.uncaught (describeException h exception))
  | top :: rest =>
    match handlerFor p (exception.type h) (top.pc - 1) top.code.regions with
    | some (.catching start) =>
      let pending := top.pending.filter fun q => q.within.contains start
      .ok ({ top with stack := [exception], pc := start, pending } :: rest)
    | some (.finally span) =>
      .ok ({ top with
        stack := [], pc := span.start, pending := ⟨span, .rethrow exception⟩ :: top.pending } :: rest)
    | none => unwind p h exception rest

/-! ## Runs -/

/-- One operation of the top frame. -/
def advance (p : Program) (natives : Natives) : List Frame → Act Progress
  | [] => pure (.done .null)
  | top :: rest => do
    match ← step p top with
    | .next top => pure (.running (top :: rest))
    | .return value => pure (finishFrame value (top :: rest))
    | .call caller call => invoke p natives (caller :: rest) call
    | .throw top exception => .running <$> unwind p (← Act.heap) exception (top :: rest)

/-- Runs until the first frame is given up. -/
def runFrames (p : Program) (natives : Natives) :
    Nat → List Frame → World → Option (Except Fault Value) × World
  | 0, _, w => (none, w)
  | n + 1, frames, w =>
    match (advance p natives frames).exec w with
    | (.ok (.running frames), w) => runFrames p natives n frames w
    | (.ok (.done value), w) => (some (.ok value), w)
    | (.error fault, w) => (some (.error fault), w)

/-- A program with the methods that the machine provides to it. -/
structure Loaded where
  program : Program
  natives : Natives := .standard

namespace Loaded

variable (m : Loaded)

/-- Runs prepared work that ends in a call. -/
def start (fuel : Nat) (prepare : Act Call) (w : World) : Option (Except Fault Value) × World :=
  let first := prepare >>= invoke m.program m.natives []
  match first.exec w with
  | (.ok (.running frames), w) => runFrames m.program m.natives fuel frames w
  | (.ok (.done value), w) => (some (.ok value), w)
  | (.error fault, w) => (some (.error fault), w)

/-- Calls a method; the receiver of an instance method is the first argument. -/
def call (fuel : Nat) (id : MethodId) (args : List Value) :
    World → Option (Except Fault Value) × World :=
  m.start fuel (pure { method := id, args, onReturn := m.program.onReturnOf id, tail := false })

/-- Makes an object. -/
def construct (fuel : Nat) (ctor : MethodId) (args : List Value) :
    World → Option (Except Fault Value) × World :=
  m.start fuel (m.program.construction ctor args)

/-- The first method of that name that the type declares. -/
def findStatic (typeName method : String) : Except Fault MethodId :=
  match m.program.findType typeName with
  | none => .error (.unknownType typeName)
  | some id =>
    match (m.program.type id).methods.find? fun x => (m.program.method x).name == method with
    | some found => .ok found
    | none => .error (.missingBody (typeName ++ "::" ++ method))

/-- Calls a method by name. -/
def runStatic (fuel : Nat) (typeName method : String) (args : List Value) (w : World) :
    Option (Except Fault Value) × World :=
  match m.findStatic typeName method with
  | .ok id => m.call fuel id args w
  | .error fault => (some (.error fault), w)

end Loaded

end Stackwright.Machine
