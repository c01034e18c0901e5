import Stackwright.Decimal.Remainder
import Stackwright.Machine.Fault

/-
  Stackwright.Machine.Arithmetic — operations on numbers.

  Integers wrap; shift counts are taken modulo the width; a zero divisor is a fault.
  Operands of an operation have the same kind, except that 64-bit values can be shifted by
  32-bit counts. The unordered comparisons are unsigned on integers and true on floats when
  one side is not a number; `cgt.un` with null on the right asks whether the left is not
  null.
-/

namespace Stackwright.Machine

def refused {α : Type} (op : Opcode) (operand : Value) : Except Fault α :=
  .error (.invalidOpcode op operand)

/-- Division and remainder have no result for a zero divisor. -/
def guardZero {α : Type} (zero : Bool) (x : α) : Except Fault α :=
  if zero then .error .divideByZero else .ok x

def arithmetic32? (op : Opcode) (x y : Int32) : Option (Except Fault Int32) :=
  match op with
  | .add => some (.ok (x + y))
  | .sub => some (.ok (x - y))
  | .mul => some (.ok (x * y))
  | .div => some (guardZero (y == 0) (x / y))
  | .divUn => some (guardZero (y == 0) (x.toUInt32 / y.toUInt32).toInt32)
  | .rem => some (guardZero (y == 0) (x % y))
  | .remUn => some (guardZero (y == 0) (x.toUInt32 % y.toUInt32).toInt32)
  | .and => some (.ok (x &&& y))
  | .or => some (.ok (x ||| y))
  | .xor => some (.ok (x ^^^ y))
  | .shl => some (.ok (x <<< y))
  | .shr => some (.ok (x >>> y))
  | .shrUn => some (.ok (x.toUInt32 >>> y.toUInt32).toInt32)
  | _ => none

def arithmetic64? (op : Opcode) (x y : Int64) : Option (Except Fault Int64) :=
  match op with
  | .add => some (.ok (x + y))
  | .sub => some (.ok (x - y))
  | .mul => some (.ok (x * y))
  | .div => some (guardZero (y == 0) (x / y))
  | .divUn => some (guardZero (y == 0) (x.toUInt64 / y.toUInt64).toInt64)
  | .rem => some (guardZero (y == 0) (x % y))
  | .remUn => some (guardZero (y == 0) (x.toUInt64 % y.toUInt64).toInt64)
  | .and => some (.ok (x &&& y))
  | .or => some (.ok (x ||| y))
  | .xor => some (.ok (x ^^^ y))
  | .shl => some (.ok (x <<< y))
  | .shr => some (.ok (x >>> y))
  | .shrUn => some (.ok (x.toUInt64 >>> y.toUInt64).toInt64)
  | _ => none

def arithmeticFloat? (op : Opcode) (x y : Float) : Option Float :=
  match op with
  | .add => some (x + y)
  | .sub => some (x - y)
  | .mul => some (x * y)
  | .div => some (x / y)
  | .rem => some (Decimal.remainder x y)
  | _ => none

def isShift : Opcode → Bool
  | .shl | .shr | .shrUn => true
  | _ => false

def arithmetic (op : Opcode) (left right : Value) : Except Fault Value :=
  match left, right with
  | .i32 x, .i32 y =>
    match arithmetic32? op x y with
    | some r => r.map Value.i32
    | none => refused op right
  | .i64 x, .i64 y =>
    match arithmetic64? op x y with
    | some r => r.map Value.i64
    | none => refused op right
  | .i64 x, .i32 y =>
    if isShift op then
      match arithmetic64? op x y.toInt64 with
      | some r => r.map Value.i64
      | none => refused op right
    else refused op right
  | .f64 x, .f64 y =>
    match arithmeticFloat? op x y with
    | some r => .ok (.f64 r)
    | none => refused op right
  | _, _ => refused op right

def unary (op : Opcode) (value : Value) : Except Fault Value :=
  match op, value with
  | .neg, .i32 v => .ok (.i32 (-v))
  | .neg, .i64 v => .ok (.i64 (-v))
  | .neg, .f64 v => .ok (.f64 (-v))
  | .not, .i32 v => .ok (.i32 (~~~v))
  | .not, .i64 v => .ok (.i64 (~~~v))
  | _, _ => refused op value

/-- The order comparisons; none for equality and for operands without an order. -/
def ordered? (op : Opcode) (left right : Value) : Option Bool :=
  match left, right with
  | .i32 x, .i32 y =>
    match op with
    | .cgt => some (x > y)
    | .clt => some (x < y)
    | .cgtUn => some (x.toUInt32 > y.toUInt32)
    | .cltUn => some (x.toUInt32 < y.toUInt32)
    | _ => none
  | .i64 x, .i64 y =>
    match op with
    | .cgt => some (x > y)
    | .clt => some (x < y)
    | .cgtUn => some (x.toUInt64 > y.toUInt64)
    | .cltUn => some (x.toUInt64 < y.toUInt64)
    | _ => none
  | .f64 x, .f64 y =>
    let unordered := x.isNaN || y.isNaN
    match op with
    | .cgt => some (x > y)
    | .clt => some (x < y)
    | .cgtUn => some (unordered || x > y)
    | .cltUn => some (unordered || x < y)
    | _ => none
  | _, .null => if op == .cgtUn then some !left.isNull else none
  | _, _ => none

def compare (op : Opcode) (left right : Value) : Except Fault Bool :=
  match ordered? op left right with
  | some result => .ok result
  | none => if op == .ceq then .ok (left.same right) else refused op right

/-- A number as a 64-bit integer, floats cut off toward zero and kept in range, and as a float. -/
def numeric? : Value → Option (Int64 × Float)
  | .i32 v => some (v.toInt64, v.toFloat)
  | .i64 v => some (v, v.toFloat)
  | .f64 v => some (v.toInt64, v)
  | _ => none

/-- The conversion to an unsigned 64-bit number. -/
def convertUnsigned64 : Value → Int64 → Int64
  | .i32 v, _ => v.toUInt32.toUInt64.toInt64
  | .f64 v, _ => v.toUInt64.toInt64
  | _, integer => integer

def convert (op : Opcode) (value : Value) : Except Fault Value :=
  match numeric? value with
  | none => refused op value
  | some (integer, float) =>
    match op with
    | .convI1 => .ok (.i32 integer.toInt8.toInt32)
    | .convI2 => .ok (.i32 integer.toInt16.toInt32)
    | .convI4 => .ok (.i32 integer.toInt32)
    | .convU1 => .ok (.i32 integer.toUInt64.toUInt8.toUInt32.toInt32)
    | .convU2 => .ok (.i32 integer.toUInt64.toUInt16.toUInt32.toInt32)
    | .convU4 => .ok (.i32 integer.toInt32)
    | .convI8 => .ok (.i64 integer)
    | .convU8 => .ok (.i64 (convertUnsigned64 value integer))
    | .convR4 => .ok (.f64 float.toFloat32.toFloat)
    | .convR8 => .ok (.f64 float)
    | _ => refused op value

end Stackwright.Machine
