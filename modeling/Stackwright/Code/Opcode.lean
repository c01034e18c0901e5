/-
  Stackwright.Code.Opcode — the names of stack operations.

  Three families: operations without operand, conditions of a branch, and operations on a
  type. Each name has one text; `ofText?` reads it back.
-/

namespace Stackwright

inductive Opcode where
  | nop | dup | pop | ret | throw
  | add | sub | mul | div | divUn | rem | remUn | neg
  | and | or | xor | not | shl | shr | shrUn
  | ceq | cgt | cgtUn | clt | cltUn
  | convI1 | convI2 | convI4 | convI8 | convU1 | convU2 | convU4 | convU8 | convR4 | convR8
  deriving DecidableEq, Repr, Inhabited

namespace Opcode

def all : List Opcode :=
  [.nop, .dup, .pop, .ret, .throw, .add, .sub, .mul, .div, .divUn, .rem, .remUn, .neg, .and, .or,
   .xor, .not, .shl, .shr, .shrUn, .ceq, .cgt, .cgtUn, .clt, .cltUn, .convI1, .convI2, .convI4,
   .convI8, .convU1, .convU2, .convU4, .convU8, .convR4, .convR8]

def text : Opcode → String
  | .nop => "nop" | .dup => "dup" | .pop => "pop" | .ret => "ret" | .throw => "throw"
  | .add => "add" | .sub => "sub" | .mul => "mul" | .div => "div" | .divUn => "div.un"
  | .rem => "rem" | .remUn => "rem.un" | .neg => "neg"
  | .and => "and" | .or => "or" | .xor => "xor" | .not => "not"
  | .shl => "shl" | .shr => "shr" | .shrUn => "shr.un"
  | .ceq => "ceq" | .cgt => "cgt" | .cgtUn => "cgt.un" | .clt => "clt" | .cltUn => "clt.un"
  | .convI1 => "conv.i1" | .convI2 => "conv.i2" | .convI4 => "conv.i4" | .convI8 => "conv.i8"
  | .convU1 => "conv.u1" | .convU2 => "conv.u2" | .convU4 => "conv.u4" | .convU8 => "conv.u8"
  | .convR4 => "conv.r4" | .convR8 => "conv.r8"

def ofText? (s : String) : Option Opcode := all.find? (·.text == s)

end Opcode

/-- When a branch is taken. -/
inductive BranchKind where
  | always | true | false
  | eq | neUn | lt | gt | le | ge
  deriving DecidableEq, Repr, Inhabited

namespace BranchKind

def all : List BranchKind := [.always, .true, .false, .eq, .neUn, .lt, .gt, .le, .ge]

def text : BranchKind → String
  | .always => "br" | .true => "brtrue" | .false => "brfalse"
  | .eq => "beq" | .neUn => "bne.un" | .lt => "blt" | .gt => "bgt" | .le => "ble" | .ge => "bge"

def ofText? (s : String) : Option BranchKind := all.find? (·.text == s)

end BranchKind

inductive TypeOp where
  | box
  | unboxAny
  | castClass
  | isInst
  /-- Pops a value and pushes a fresh cell that holds it. -/
  | newCell
  | loadCell
  /-- Pops a value, then a cell, and writes the value into the cell. -/
  | storeCell
  deriving DecidableEq, Repr, Inhabited

namespace TypeOp

def all : List TypeOp := [.box, .unboxAny, .castClass, .isInst, .newCell, .loadCell, .storeCell]

def text : TypeOp → String
  | .box => "box" | .unboxAny => "unbox.any" | .castClass => "castclass" | .isInst => "isinst"
  | .newCell => "newcell" | .loadCell => "ldcell" | .storeCell => "stcell"

def ofText? (s : String) : Option TypeOp := all.find? (·.text == s)

end TypeOp

end Stackwright
