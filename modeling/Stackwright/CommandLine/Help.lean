import Stackwright.Scenario

/-
  Stackwright.CommandLine.Help — what the program says about itself.

  Each option has its names on one line and its meaning indented below. The summary puts
  choices and defaults behind the meaning. The full help lists the choices with remarks,
  gives a default a line of its own, and sets options apart by empty lines.
-/

namespace Stackwright.CommandLine

inductive Detail where
  | summary
  | full
  deriving DecidableEq, Repr, Inhabited

namespace Help

structure Entry where
  /-- The option's names and the name of its value. -/
  names : String
  about : String
  /-- What the value may be, with remarks. -/
  choices : List (String × Option String) := []
  fallback : Option String := none
  deriving DecidableEq, Repr, Inhabited

def helpAbout : Detail → String
  | .summary => "Print help (see more with '--help')"
  | .full => "Print help (see a summary with '-h')"

def entries (detail : Detail) : List Entry :=
  [{ names := "      --scenario <SCENARIO>", about := "Scenario to run (repeatable)"
     choices := Scenario.all.map fun s => (s.name, s.remark?) },
   { names := "      --max-switch-cases <MAX_SWITCH_CASES>", about := "Largest dense switch table"
     fallback := some "256" },
   { names := "      --no-tail-calls", about := "Disable the tail. prefix" },
   { names := "      --dump", about := "Dump compile steps and instructions" },
   { names := "  -h, --help", about := helpAbout detail },
   { names := "  -V, --version", about := "Print version" }]

def indent : String := "          "

def fallbackText (value : String) : String := "[default: " ++ value ++ "]"

namespace Entry

def summary (e : Entry) : List String :=
  let fallback := (e.fallback.map fun value => " " ++ fallbackText value).getD ""
  let choices :=
    if e.choices.isEmpty then ""
    else " [possible values: " ++ ", ".intercalate (e.choices.map (·.1)) ++ "]"
  [e.names, indent ++ e.about ++ fallback ++ choices]

/-- The width of the longest choice. -/
def width (e : Entry) : Nat := e.choices.foldl (fun n choice => max n choice.1.length) 0

/-- One choice; the remarks of all choices start in the same column. -/
def choiceLine (e : Entry) (choice : String × Option String) : String :=
  let remark := (choice.2.map fun text =>
    ": " ++ String.ofList (List.replicate (e.width - choice.1.length) ' ') ++ text).getD ""
  indent ++ "- " ++ choice.1 ++ remark

def full (e : Entry) : List String :=
  let choices :=
    if e.choices.isEmpty then []
    else "" :: (indent ++ "Possible values:") :: e.choices.map e.choiceLine
  let fallback := (e.fallback.map fun value => [indent, indent ++ fallbackText value]).getD []
  [e.names, indent ++ e.about] ++ choices ++ fallback

end Entry

def entryLines (detail : Detail) : List String :=
  match detail with
  | .summary => (entries detail).flatMap Entry.summary
  | .full => [""].intercalate ((entries detail).map Entry.full)

def lines (detail : Detail) : List String :=
  ["Usage: ilforge [OPTIONS]", "", "Options:"] ++ entryLines detail

def version : List String := ["ilforge_vm 0.1.0"]

end Help

end Stackwright.CommandLine
