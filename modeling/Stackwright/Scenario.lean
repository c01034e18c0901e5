import Stackwright.Module.Build
import Stackwright.Machine.Target
import Stackwright.Machine.Run

/-
  Stackwright.Scenario — small modules that go through everything from end to end.
-/

namespace Stackwright

open Machine (Value World Fault)

inductive Scenario where
  /-- `new Acc(100, 10).combine(3, 8)`. -/
  | accumulator
  /-- Two greeters, declared after the type that uses them. -/
  | greeting
  /-- A counter changed through its cell, and a curried adder. -/
  | closures
  /-- Classifies 0 to 6 through a sparse dispatch table. -/
  | switch
  /-- Nested protected regions of raw code. -/
  | exceptions
  /-- Recursion far deeper than the frame limit. -/
  | countdown
  deriving DecidableEq, Repr, Inhabited

namespace Scenario

def all : List Scenario := [.accumulator, .greeting, .closures, .switch, .exceptions, .countdown]

/-- What the help says about the scenario. -/
def remark? : Scenario → Option String
  | .accumulator => some "`new Acc(100, 10).combine(3, 8)`"
  | .greeting => some "Two greeters, declared after the type that uses them"
  | .closures | .switch => none
  | .exceptions => some "Nested protected regions built from raw instructions"
  | .countdown => some "Self recursion far deeper than the frame limit"

/-- The name on the command line. -/
def name : Scenario → String
  | .accumulator => "accumulator"
  | .greeting => "greeting"
  | .closures => "closures"
  | .switch => "switch"
  | .exceptions => "exceptions"
  | .countdown => "countdown"

def ofName? (s : String) : Option Scenario := all.find? (·.name == s)

/-- The name in reports. -/
def title : Scenario → String
  | .accumulator => "Accumulator"
  | .greeting => "Greeting"
  | .closures => "Closures"
  | .switch => "Switch"
  | .exceptions => "Exceptions"
  | .countdown => "Countdown"

/-! ## Abbreviations -/

def string : TypeRef := .primitive .string
def u32 : TypeRef := .primitive .u32
def program : TypeKey := ⟨"Program"⟩

def var (name : String) : Expr := .var (.named name)
def int (v : Int32) : Expr := .literal (.i32 v)
def text (s : String) : Expr := .literal (.string s)
def param (name : String) (type : TypeRef) : Param := ⟨.named name, type⟩

def writeLine : MethodRef :=
  .existing { owner := .named "Console", name := "WriteLine", params := [string], returnType := .void
              isInstance := false }

def staticMethod (name : String) (returnType : TypeRef) (body : MethodBody) : Member :=
  .method { name, attributes := { isPublic := true, isStatic := true }, returnType, body }

def staticExpr (name : String) (returnType : TypeRef) (params : List Param) (body : Expr) : Member :=
  staticMethod name returnType (.expr { params, body })

def programType (members : List Member) : TypeDefinition :=
  { key := program, attributes := { isPublic := true }, members }

/-- A lambda with a name of its own. -/
def lambda (params : List Param) (body : Expr) : StateM Supply Expr := do
  let closure ← modifyGet (Supply.fresh (some "lambda"))
  pure (.lambda closure params body)

/-! ## Modules -/

def accumulatorModule : Module :=
  let acc : TypeKey := ⟨"Acc"⟩
  let this := param "this" (.deferred acc)
  let field (name : String) : FieldRef := .deferred (acc.field name)
  let get (name : String) : Expr := .getField (var "this") (field name)
  let store (name : String) : Expr := .setField (var "this") (field name) (var name)
  let accType : TypeDefinition :=
    { key := acc
      attributes := { isPublic := true, isSealed := true }
      members :=
        [.field { name := "a", attributes := { isPrivate := true }, fieldType := .i32 },
         .field { name := "b", attributes := { isPrivate := true }, fieldType := .i32 },
         .constructor
          { attributes := { isPublic := true }
            body := .expr
              { params := [this, param "a" .i32, param "b" .i32]
                body := .seq [store "a", store "b"] } none },
         .method
          { name := "combine", attributes := { isPublic := true }, returnType := .i32
            body := .expr
              { params := [this, param "i" .i32, param "j" .i32]
                body := .binary .add (.binary .mul (var "i") (get "a"))
                  (.binary .mul (var "j") (get "b")) } }] }
  let made := Expr.new (.deferred (acc.constructor [.i32, .i32])) [int 100, int 10]
  let combine : MethodRef := .deferred (acc.method "combine" [.i32, .i32] true)
  { types :=
      [accType, programType [staticExpr "main" .i32 [] (.call made combine [int 3, int 8])]] }

def greetingModule : Module :=
  let greeter : TypeKey := ⟨"Greeter"⟩
  let this := param "this" (.deferred greeter)
  let words : FieldRef := .deferred (greeter.field "text")
  let greet (s : String) : Expr :=
    .call (.new (.deferred (greeter.constructor [string])) [text s])
      (.deferred (greeter.method "Greet" [] true)) []
  let greeterType : TypeDefinition :=
    { key := greeter
      attributes := { isPublic := true }
      members :=
        [.field
          { name := "text", attributes := { isPrivate := true, initOnly := true }, fieldType := string },
         .constructor
          { attributes := { isPublic := true }
            body := .expr
              { params := [this, param "text" string]
                body := .setField (var "this") words (var "text") } none },
         .method
          { name := "Greet", attributes := { isPublic := true }, returnType := .void
            body := .expr
              { params := [this], body := .callStatic writeLine [.getField (var "this") words] } }] }
  let main := Expr.seq [greet "Hello, world!", greet "This is a test!"]
  { types := [programType [staticExpr "main" .void [] main], greeterType] }

def closuresModule : StateM Supply Module := do
  let makeAdder : MethodRef := .deferred (program.method "make_adder" [.i32] false)
  let inc ← lambda []
    (.seq [.assign (.named "count") (.binary .add (var "count") (int 1)), var "count"])
  let adder ← lambda [param "x" .i32] (.binary .add (var "x") (var "n"))
  let count := Expr.invoke (var "inc") []
  let counter := Expr.letIn [(.named "count", int 0)]
    (.letIn [(.named "inc", inc)] (.seq [count, count, count]))
  let main := Expr.binary .add (.binary .mul counter (int 100))
    (.invoke (.callStatic makeAdder [int 5]) [int 37])
  pure
    { types :=
        [programType
          [staticExpr "main" .i32 [] main,
           staticExpr "make_adder" (.delegate [.i32] .i32) [param "n" .i32] adder]] }

def switchModule : Module :=
  let classify : MethodRef := .deferred (program.method "classify" [u32] false)
  let table := Expr.switch (var "n")
    [(.of [0], text "zero"), (.of [1, 3, 5], text "odd"), (.of [2, 4], text "even")]
    (text "many")
  let print (n : Nat) : Expr :=
    .callStatic writeLine [.callStatic classify [.literal (.u32 (UInt32.ofNat n))]]
  { types :=
      [programType
        [staticExpr "classify" string [param "n" u32] table,
         staticExpr "main" .void [] (.seq ((List.range 7).map print))]] }

def exceptionsModule : Module :=
  let exception : TypeRef := .named "Exception"
  let inner := Symbol.named "inner"
  let outer := Symbol.named "outer"
  let message : MethodRef :=
    .existing { owner := exception, name := "get_Message", params := [], returnType := string
                isInstance := true }
  let print (s : String) : List Instr := [.loadString s, .call writeLine false]
  let code : List Instr :=
    [.beginTry outer, .beginTry inner, .loadString "boom",
     .newObject (.existing { owner := exception, params := [string] }), .op .throw,
     .beginCatch exception, .call message false, .call writeLine false, .leave inner, .endTry inner] ++
    print "after catch" ++ [.leave outer, .beginFinally] ++ print "finally" ++
    [.endTry outer, .op .ret]
  { types := [programType [staticMethod "main" .void (.code [] { code })]] }

def countdownModule : Module :=
  let count : MethodRef := .deferred (program.method "count" [.i32, .i32] false)
  let body := Expr.ite (.binary .eq (var "n") (int 0)) (var "acc")
    (.callStatic count [.binary .sub (var "n") (int 1), .binary .add (var "acc") (int 1)])
  { types := [programType [staticExpr "count" .i32 [param "n" .i32, param "acc" .i32] body]] }

def toModule : Scenario → StateM Supply Module
  | .accumulator => pure accumulatorModule
  | .greeting => pure greetingModule
  | .closures => closuresModule
  | .switch => pure switchModule
  | .exceptions => pure exceptionsModule
  | .countdown => pure countdownModule

/-- The method of `Program` to start with, and its arguments. -/
def entry : Scenario → String × List Value
  | .countdown => ("count", [.i32 10000, .i32 0])
  | _ => ("main", [])

/-! ## Runs -/

/-- Builds the module into a fresh program. -/
def build (s : Scenario) (options : BuildOptions) : Effect Supply (Machine.Program × List String) := do
  let m ← Effect.total s.toModule
  let (outcome, after) :=
    (m.build machine Machine.Natives.catalog options).exec { supply := (← get), program := {} }
  set after.supply
  let built ← outcome
  pure (after.program, built.executed)

/-- A scenario that was built and started. -/
structure Ran where
  program : Machine.Program
  /-- Descriptions of the build steps. -/
  steps : List String
  /-- Nothing when the run was not finished in time. -/
  result : Option (Except Fault Value)
  world : World

def run (s : Scenario) (options : BuildOptions) (fuel : Nat) : Effect Supply Ran := do
  let (program, steps) ← s.build options
  let (method, args) := s.entry
  let (result, world) := (Machine.Loaded.mk program .standard).runStatic fuel "Program" method args {}
  pure { program, steps, result, world }

end Scenario

end Stackwright
