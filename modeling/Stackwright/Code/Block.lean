import Stackwright.Error
import Stackwright.Code.Instr

/-
  Stackwright.Code.Block — a body: declared locals and the code that uses them.

  Blocks are joined end to end with `++`. A block is valid when each label is defined at most
  once, each used label is defined, each local is declared at most once, and each used local
  is declared; the checks run in this order and the first fault is the answer.
-/

namespace Stackwright

structure LocalDecl where
  name : Symbol
  type : TypeRef
  deriving BEq, Inhabited

structure Block where
  locals : List LocalDecl := []
  code : List Instr := []
  deriving BEq, Inhabited

namespace Block

instance : Append Block where
  append a b := { locals := a.locals ++ b.locals, code := a.code ++ b.code }

def ofCode (code : List Instr) : Block := { code }

/-- The first symbol that equals an earlier one. -/
def firstRepeat? : List Symbol → List Symbol → Option Symbol
  | _, [] => none
  | seen, x :: xs => if seen.contains x then some x else firstRepeat? (x :: seen) xs

def definedLabels (b : Block) : List Symbol := b.code.filterMap Instr.definedLabel?

def usedLabels (b : Block) : List Symbol := b.code.flatMap Instr.usedLabels

/-- The least symbol; of equal ones the last. -/
def least? : List Symbol → Option Symbol
  | [] => none
  | x :: xs =>
    match least? xs with
    | none => some x
    | some y => if x.order y == .lt then some x else some y

def checkLabels (b : Block) : Except BuildError Unit :=
  match firstRepeat? [] b.definedLabels with
  | some label => .error (.label label .definedTwice)
  | none =>
    match least? (b.usedLabels.filter fun label => !b.definedLabels.contains label) with
    | some label => .error (.label label .undefined)
    | none => .ok ()

def checkLocals (b : Block) : Except BuildError Unit :=
  let declared := b.locals.map (·.name)
  match firstRepeat? [] declared with
  | some name => .error (.structural (.localTwice name))
  | none =>
    match (b.code.filterMap Instr.local?).find? fun name => !declared.contains name with
    | some name => .error (.structural (.localUndeclared name))
    | none => .ok ()

def validate (b : Block) : Except BuildError Unit := do
  b.checkLabels
  b.checkLocals

/-- Every key the block mentions. -/
def keys (b : Block) : KeySet :=
  b.code.foldl (fun s i => i.addKeys s) (b.locals.foldl (fun s l => l.type.addKeys s) ∅)

end Block

end Stackwright
