import Stackwright.Text.Quoted
import Stackwright.Decimal.Text
import Stackwright.Machine.Type

/-
  Stackwright.Machine.Value — values and the heap.

  Integers narrower than 64 bits travel as 32-bit values. Objects and cells live on the heap,
  because they change; delegates and boxes never change and carry their content, with a
  serial number that tells two of them apart.
-/

namespace Stackwright.Machine

inductive Value where
  | null
  | i32 (v : Int32)
  | i64 (v : Int64)
  | f64 (v : Float)
  | str (s : String)
  | object (address : Nat)
  | cell (address : Nat)
  | delegate (serial : Nat) (target : Value) (method : MethodId)
  | boxed (serial : Nat) (type : Ty) (content : Value)
  deriving Inhabited

structure Object where
  type : Ty
  fields : Array Value
  deriving Inhabited

structure Heap where
  objects : Array Object := #[]
  cells : Array Value := #[]
  /-- The next serial number. -/
  serial : Nat := 0
  deriving Inhabited

namespace Heap

def object (h : Heap) (address : Nat) : Object := h.objects.getD address default

def cell (h : Heap) (address : Nat) : Value := h.cells.getD address .null

def newObject (h : Heap) (o : Object) : Value × Heap :=
  (.object h.objects.size, { h with objects := h.objects.push o })

def newCell (h : Heap) (v : Value) : Value × Heap :=
  (.cell h.cells.size, { h with cells := h.cells.push v })

def newDelegate (h : Heap) (target : Value) (method : MethodId) : Value × Heap :=
  (.delegate h.serial target method, { h with serial := h.serial + 1 })

def newBox (h : Heap) (type : Ty) (content : Value) : Value × Heap :=
  (.boxed h.serial type content, { h with serial := h.serial + 1 })

def setCell (h : Heap) (address : Nat) (v : Value) : Heap :=
  { h with cells := h.cells.setIfInBounds address v }

def setField (h : Heap) (address slot : Nat) (v : Value) : Heap :=
  { h with objects := h.objects.modify address fun o =>
      { o with fields := o.fields.setIfInBounds slot v } }

end Heap

namespace Value

def ofBool (b : Bool) : Value := .i32 (if b then 1 else 0)

/-- What a place of the given type holds at first. -/
def initial : Ty → Value
  | .primitive .i64 | .primitive .u64 => .i64 0
  | .primitive .f32 | .primitive .f64 => .f64 0
  | .primitive .string | .primitive .object | .primitive .void => .null
  | .primitive _ => .i32 0
  | _ => .null

def isNull : Value → Bool
  | .null => true
  | _ => false

def isTruthy : Value → Bool
  | .null => false
  | .i32 v => v != 0
  | .i64 v => v != 0
  | .f64 v => v != 0
  | _ => true

def kind : Value → String
  | .null => "null"
  | .i32 _ => "int32"
  | .i64 _ => "int64"
  | .f64 _ => "float"
  | .str _ => "string"
  | .object _ => "object"
  | .cell _ => "cell"
  | .delegate _ _ _ => "delegate"
  | .boxed _ _ _ => "boxed value"

/-- Numbers and strings are compared by content, all else by identity. -/
def same : Value → Value → Bool
  | .null, .null => true
  | .i32 a, .i32 b => a == b
  | .i64 a, .i64 b => a == b
  | .f64 a, .f64 b => a == b
  | .str a, .str b => a == b
  | .object a, .object b => a == b
  | .cell a, .cell b => a == b
  | .delegate a _ _, .delegate b _ _ => a == b
  | .boxed a _ _, .boxed b _ _ => a == b
  | _, _ => false

/-- The type that a value has at run time. -/
def type (h : Heap) : Value → Ty
  | .i32 _ => .primitive .i32
  | .i64 _ => .primitive .i64
  | .f64 _ => .primitive .f64
  | .str _ => .primitive .string
  | .object address => (h.object address).type
  | .boxed _ type _ => type
  | .null | .cell _ | .delegate _ _ _ => .object

/-! ## Text -/

/-- What a cell or a box holds is inside of it. -/
inductive Inside (h : Heap) : Value → Value → Prop
  | cell (address : Nat) : Inside h (h.cell address) (.cell address)
  | boxed (serial : Nat) (type : Ty) (content : Value) : Inside h content (.boxed serial type content)

/-- The text of a value, and the number of cells and boxes around it. In a circle of cells looking for it never ends. -/
def render (h : Heap) : Value → String × Nat :=
  WellFounded.partialExtrinsicFix (Inside h) fun
    | .null, _ => ("", 0)
    | .i32 v, _ => (toString v.toInt, 0)
    | .i64 v, _ => (toString v.toInt, 0)
    | .f64 v, _ => (Decimal.plainText v, 0)
    | .str s, _ => (s, 0)
    | .object address, _ => ((h.object address).type.text, 0)
    | .delegate _ _ method, _ => (method.name, 0)
    | .cell address, render =>
      let inner := render (h.cell address) (.cell address)
      (inner.1, inner.2 + 1)
    | .boxed serial type content, render =>
      let inner := render content (.boxed serial type content)
      (inner.1, inner.2 + 1)

def text (h : Heap) (v : Value) : String := (v.render h).1

/-- The text of a value that shows its kind. -/
def quoted (h : Heap) : Value → String
  | .null => "null"
  | .str s => Text.quoted s
  | v => v.kind ++ "(" ++ v.text h ++ ")"

/-! ## Contents -/

/-- What can be seen from a value, to some depth. -/
inductive View where
  | null
  | i32 (v : Int32)
  | i64 (v : Int64)
  | f64 (v : Float)
  | str (s : String)
  | object (type : String) (fields : List View)
  | cell (content : View)
  | delegate (method : String) (target : View)
  | boxed (type : String) (content : View)
  /-- Below the depth. -/
  | hidden

def view (h : Heap) : Nat → Value → View
  | 0, _ => .hidden
  | n + 1, v =>
    match v with
    | .null => .null
    | .i32 v => .i32 v
    | .i64 v => .i64 v
    | .f64 v => .f64 v
    | .str s => .str s
    | .object address =>
      let o := h.object address
      .object o.type.text (o.fields.toList.map (view h n))
    | .cell address => .cell (view h n (h.cell address))
    | .delegate _ target method => .delegate method.name (view h n target)
    | .boxed _ type content => .boxed type.text (view h n content)

end Value

end Stackwright.Machine
