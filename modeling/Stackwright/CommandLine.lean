import Stackwright.CommandLine.Help

/-
  Stackwright.CommandLine — reading arguments, running scenarios, reporting.

  Options: `--scenario NAME`, as often as wanted; `--max-switch-cases NUMBER`,
  `--no-tail-calls` and `--dump`, at most once each. A value may also follow the option's
  name after an equals sign. `--help`, `-h`, `--version` and `-V` are answered where they
  stand, whatever follows them. Anything else is a usage error. Arguments are read from left
  to right, and the first that is an error or a question decides. Names are drawn from one
  supply for all scenarios of a run.
-/

namespace Stackwright.CommandLine

structure Settings where
  /-- All scenarios when empty. -/
  scenarios : List Scenario := []
  maxSwitchCases : Option Nat := none
  noTailCalls : Bool := false
  /-- Show the steps and the program before running it. -/
  dump : Bool := false
  deriving DecidableEq, Repr, Inhabited

/-- What the arguments ask for. -/
inductive Request where
  | play (settings : Settings)
  | help (detail : Detail)
  | version
  deriving DecidableEq, Repr, Inhabited

/-! ## Arguments -/

def decimal? (cs : List Char) : Option Nat :=
  if cs.isEmpty || !cs.all Char.isDigit then none
  else some (cs.foldl (fun n c => n * 10 + (c.toNat - '0'.toNat)) 0)

/-- A 64-bit number in decimal digits, with a plus sign or without. -/
def number? (s : String) : Option Nat :=
  let digits := match s.toList with
    | '+' :: rest => rest
    | cs => cs
  match decimal? digits with
  | some n => if n < Nat.pow 2 64 then some n else none
  | none => none

def addScenario (s : Settings) (value : String) : Option Settings :=
  (Scenario.ofName? value).map fun scenario => { s with scenarios := s.scenarios ++ [scenario] }

def setMaxSwitchCases (s : Settings) (value : String) : Option Settings :=
  if s.maxSwitchCases.isSome then none
  else (number? value).map fun n => { s with maxSwitchCases := some n }

def setNoTailCalls (s : Settings) : Option Settings :=
  if s.noTailCalls then none else some { s with noTailCalls := true }

def setDump (s : Settings) : Option Settings :=
  if s.dump then none else some { s with dump := true }

/-- The options that take a value. -/
def withValue? (name : String) : Option (Settings → String → Option Settings) :=
  if name == "--scenario" then some addScenario
  else if name == "--max-switch-cases" then some setMaxSwitchCases
  else none

/-- The options that stand alone. -/
def alone? (name : String) : Option (Settings → Option Settings) :=
  if name == "--no-tail-calls" then some setNoTailCalls
  else if name == "--dump" then some setDump
  else none

/-- What stands before the first equals sign and what follows it. -/
def splitValue (arg : String) : String × Option String :=
  let cs := arg.toList
  match cs.dropWhile (· != '=') with
  | [] => (arg, none)
  | _ :: value => (String.ofList (cs.takeWhile (· != '=')), some (String.ofList value))

/-- The question that one letter asks. -/
def letterQuestion? : Char → Option Request
  | 'h' => some (.help .summary)
  | 'V' => some .version
  | _ => none

/-- The question that an argument asks. Of letters behind one dash the first is enough. -/
def question? (arg : String) : Option Request :=
  if arg == "--help" then some (.help .full)
  else if arg == "--version" then some .version
  else match arg.toList with
    | '-' :: letter :: _ => letterQuestion? letter
    | _ => none

/-- What is asked for, or nothing for a usage error. -/
def parse (s : Settings) : List String → Option Request
  | [] => some (.play s)
  | ["--"] => some (.play s)
  | arg :: rest =>
    match question? arg with
    | some request => some request
    | none =>
      match splitValue arg with
      | (name, some value) =>
        match withValue? name with
        | some set => (set s value).bind fun s => parse s rest
        | none => none
      | (name, none) =>
        match alone? name with
        | some set => (set s).bind fun s => parse s rest
        | none =>
          match withValue? name, rest with
          | some set, value :: rest => (set s value).bind fun s => parse s rest
          | _, _ => none

/-! ## Running -/

/-- What a run writes, and whether something in it failed. -/
structure Report where
  out : String := ""
  err : String := ""
  failed : Bool := false
  deriving Repr, Inhabited

namespace Report

def lines (ls : List String) : String := String.join (ls.map fun line => line ++ "\n")

def print (ls : List String) : Report := { out := lines ls }

def failure (line : String) : Report := { err := lines [line], failed := true }

instance : Append Report where
  append a b := { out := a.out ++ b.out, err := a.err ++ b.err, failed := a.failed || b.failed }

end Report

namespace Settings

variable (s : Settings)

def options : BuildOptions :=
  { maxSwitchCases := s.maxSwitchCases.getD 256, tailCalls := !s.noTailCalls }

def stepLine (entry : String × Nat) : String :=
  Machine.padLeft 4 (toString entry.2) ++ "  " ++ entry.1

/-- The steps and the program of a scenario. -/
def dumpScenario (scenario : Scenario) : StateM Supply Report := do
  match ← (scenario.build s.options).run with
  | .ok (program, steps) =>
    pure (.print (steps.zipIdx.map stepLine) ++ { out := program.listing })
  | .error e => pure (.failure ("Error building " ++ scenario.title ++ ": " ++ e.message))

/-- What a scenario writes, and its result. -/
def playScenario (fuel : Nat) (scenario : Scenario) : StateM Supply Report := do
  let failed (message : String) := Report.failure ("Error in " ++ scenario.title ++ ": " ++ message)
  match ← (scenario.run s.options fuel).run with
  | .error e => pure (failed e.message)
  | .ok ran =>
    let written := Report.print ran.world.output.lines.toList
    match ran.result with
    | some (.ok value) => pure (written ++ .print ["=> " ++ value.quoted ran.world.heap])
    | some (.error fault) => pure (written ++ failed (fault.message ran.world.heap))
    | none => pure (written ++ failed "not finished")

def runScenario (fuel : Nat) (scenario : Scenario) : StateM Supply Report := do
  let head := Report.print ["== " ++ scenario.title ++ " =="]
  if s.dump then
    let dumped ← s.dumpScenario scenario
    if dumped.failed then pure (head ++ dumped)
    else
      let played ← s.playScenario fuel scenario
      pure (head ++ dumped ++ played)
  else
    let played ← s.playScenario fuel scenario
    pure (head ++ played)

def runAll (fuel : Nat) : List Scenario → StateM Supply Report
  | [] => pure {}
  | scenario :: rest => do
    let first ← s.runScenario fuel scenario
    let others ← runAll fuel rest
    pure (first ++ others)

/-- Runs the chosen scenarios, each of them bounded by a number of operations. -/
def run (fuel : Nat) : Report :=
  let scenarios := if s.scenarios.isEmpty then Scenario.all else s.scenarios
  ((s.runAll fuel scenarios).run {}).1

end Settings

/-- Does what is asked for. -/
def Request.run (fuel : Nat) : Request → Report
  | .play settings => settings.run fuel
  | .help detail => .print (Help.lines detail)
  | .version => .print Help.version

/-- The status of a usage error. -/
def usageStatus : Nat := 2

def Report.status (r : Report) : Nat := if r.failed then 1 else 0

end Stackwright.CommandLine
