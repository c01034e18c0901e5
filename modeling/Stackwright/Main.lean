import Stackwright.CommandLine

/-
  Stackwright.Main — the program.
-/

open Stackwright.CommandLine

/-- More operations than any run gets to. -/
def Stackwright.CommandLine.operationLimit : Nat := Nat.pow 2 60

def main (args : List String) : IO UInt32 := do
  match parse {} args with
  | none =>
    IO.eprintln "Usage: ilforge [OPTIONS]\n\nFor more information, try '--help'."
    return usageStatus.toUInt32
  | some request =>
    let report := request.run operationLimit
    IO.print report.out
    IO.eprint report.err
    return report.status.toUInt32
