import Stackwright.Effect
import Stackwright.Expr.Usage
import Stackwright.Expr.Typing
import Stackwright.Expr.Storage

/-
  Stackwright.Expr.Lowering — from expressions to stack code.

  Each construct passes a tail flag to the parts whose value is its own. Code lowered in
  tail position never falls through: every path ends in `ret`, after a call marked as tail
  call when a call comes last. Labels and locals are drawn from the supply as they are
  needed, in the order of the code. Variables used inside a lambda live in cells.
-/

namespace Stackwright

structure BuildOptions where
  /-- The largest dispatch table a switch may have. -/
  maxSwitchCases : Nat := 256
  tailCalls : Bool := true
  deriving DecidableEq, Repr, Inhabited

/-- A variable reached through a field of the receiver, which is argument 0. The field holds
a cell of the variable's type. -/
structure Capture where
  name : Symbol
  type : TypeRef
  field : FieldRef
  deriving BEq, Inhabited

/-- A body given as an expression. Instance members list the receiver first. -/
structure Body where
  params : List Param
  captures : List Capture := []
  body : Expr
  deriving BEq, Inhabited

/-- The constructor of the base class that a constructor starts with. -/
structure BaseCall where
  ctor : ConstructorRef
  args : List Expr
  deriving BEq, Inhabited

abbrev Lower := Effect Supply

structure Scope where
  types : TypeEnv
  vars : List (Symbol × Storage) := []

namespace Scope

def bind (s : Scope) (name : Symbol) (storage : Storage) : Scope :=
  { types := s.types.bind name storage.type, vars := (name, storage) :: s.vars }

def storage (s : Scope) (name : Symbol) (whole : Expr) : Except BuildError Storage :=
  match s.vars.find? fun entry => entry.1 == name with
  | some (_, storage) => .ok storage
  | none => Expr.fault whole (.unbound name)

end Scope

/-! ## Small pieces of code -/

def fresh (hint : String) : Lower Symbol := Effect.total (modifyGet (Supply.fresh (some hint)))

def freshLabel : Lower Symbol := fresh "L"

/-- A new local named after a variable. -/
def freshLocal (name : Symbol) : Lower Symbol := fresh (name.hint?.getD "t")

def retIf (tail : Bool) : List Instr := if tail then [.op .ret] else []

/-- The operation that brings a 32-bit result back into the range of a narrower type. -/
def narrowing? : Primitive → Option Opcode
  | .i8 => some .convI1
  | .i16 => some .convI2
  | .u8 => some .convU1
  | .u16 | .char => some .convU2
  | _ => none

def conversion? : Primitive → Option Opcode
  | .i8 => some .convI1
  | .i16 => some .convI2
  | .i32 => some .convI4
  | .i64 => some .convI8
  | .u8 => some .convU1
  | .u16 | .char => some .convU2
  | .u32 => some .convU4
  | .u64 => some .convU8
  | .f32 => some .convR4
  | .f64 => some .convR8
  | _ => none

def narrowCode (type : Option Primitive) : List Instr :=
  match type.bind narrowing? with
  | some op => [.op op]
  | none => []

/-- A comparison and its negation. -/
def negated (compare : Opcode) : List Instr := [.op compare, .loadI32 0, .op .ceq]

def Literal.code : Literal → List Instr
  | .bool v => [.loadI32 (if v then 1 else 0)]
  | .char v => [.loadI32 (Int32.ofNat v.toNat)]
  | .i8 v => [.loadI32 v.toInt32]
  | .i16 v => [.loadI32 v.toInt32]
  | .i32 v => [.loadI32 v]
  | .u8 v => [.loadI32 (Int32.ofNat v.toNat)]
  | .u16 v => [.loadI32 (Int32.ofNat v.toNat)]
  | .u32 v => [.loadI32 v.toInt32]
  | .i64 v => [.loadI64 v]
  | .u64 v => [.loadI64 v.toInt64]
  | .f32 v => [.loadF64 v.toFloat, .op .convR4]
  | .f64 v => [.loadF64 v]
  | .string v => [.loadString v]
  | .null _ => [.loadNull]

/-- The operation on two operands of the given type, without narrowing. The unordered forms
keep comparisons with NaN false. -/
def binaryCode (op : BinaryOp) (type : Option Primitive) : List Instr :=
  let unsigned := type.any Primitive.isUnsigned
  let float := type.any Primitive.isFloat
  let pick := fun signed unsignedOp => if unsigned then unsignedOp else signed
  match op with
  | .add => [.op .add]
  | .sub => [.op .sub]
  | .mul => [.op .mul]
  | .div => [.op (pick .div .divUn)]
  | .rem => [.op (pick .rem .remUn)]
  | .bitAnd => [.op .and]
  | .bitOr => [.op .or]
  | .bitXor => [.op .xor]
  | .shl => [.op .shl]
  | .shr => [.op (pick .shr .shrUn)]
  | .eq => [.op .ceq]
  | .ne => negated .ceq
  | .lt => [.op (pick .clt .cltUn)]
  | .gt => [.op (pick .cgt .cgtUn)]
  | .le => negated (if float then .cgtUn else pick .cgt .cgtUn)
  | .ge => negated (if float then .cltUn else pick .clt .cltUn)

def BinaryOp.code (op : BinaryOp) (type : Option Primitive) : List Instr :=
  binaryCode op type ++ if op.isComparison then [] else narrowCode type

def UnaryOp.code (op : UnaryOp) (type : Option Primitive) : List Instr :=
  match op with
  | .not =>
    if type == some .bool then [.loadI32 0, .op .ceq] else .op .not :: narrowCode type
  | .negate => .op .neg :: narrowCode type
  | .convert target =>
    if type == some target then []
    else match conversion? target with
      | some op => [.op op]
      | none => []

/-! ## Dispatch tables -/

/-- The first value that a case claims although an earlier case has it, with both cases. -/
def claimedTwice? (earlier : List CaseValues) : List CaseValues → Option (Nat × Nat × Nat)
  | [] => none
  | values :: rest =>
    let clash := values.toList.findSome? fun v =>
      (earlier.findIdx? (·.contains v)).map fun i => (v.toNat, i, earlier.length)
    match clash with
    | some found => some found
    | none => claimedTwice? (earlier ++ [values]) rest

/-- One more than the largest claimed value. -/
def tableSize (cases : List CaseValues) : Nat :=
  cases.foldl (fun n values => values.toList.foldl (fun n v => max n (v.toNat + 1)) n) 0

def checkDispatch (options : BuildOptions) (cases : List CaseValues) : Except BuildError Unit :=
  match claimedTwice? [] cases with
  | some (value, first, second) => .error (.structural (.switchValueTwice value first second))
  | none =>
    if tableSize cases > options.maxSwitchCases then
      .error (.structural (.switchTooLarge (tableSize cases) options.maxSwitchCases))
    else .ok ()

/-- The label of the case that claims each value below the table's size, or the fallback's.
Entries are counted in 32 bits: a table for all 32-bit values has none, and every value falls
through to the fallback. -/
def dispatchTable (cases : List CaseValues) (labels : List Symbol) (fallback : Symbol) : List Symbol :=
  (List.range (UInt32.ofNat (tableSize cases)).toNat).map fun v =>
    ((cases.findIdx? (·.contains (UInt32.ofNat v))).bind fun i => labels[i]?).getD fallback

/-- Sends 64-bit values beyond the table to the fallback before they are cut to 32 bits. -/
def wideGuard (size : Nat) (inRange fallback : Symbol) : List Instr :=
  [.op .dup, .loadI64 (Int64.ofNat size), .op .cltUn, .branch .true inRange, .op .pop,
   .branch .always fallback, .label inRange, .op .convU4]

def freshLabels : Nat → Lower (List Symbol)
  | 0 => pure []
  | n + 1 => do
    let label ← freshLabel
    let labels ← freshLabels n
    pure (label :: labels)

/-- Chooses a case by the value on top. -/
def dispatch (cases : List CaseValues) (wide : Bool) (labels : List Symbol) (fallback : Symbol) :
    Lower (List Instr) :=
  if tableSize cases == 0 then pure [.op .pop]
  else if wide then do
    let inRange ← freshLabel
    pure (wideGuard (tableSize cases) inRange fallback ++ [.switch (dispatchTable cases labels fallback)])
  else pure [.switch (dispatchTable cases labels fallback)]

/-- The label after the cases, which never fall through in tail position. -/
def freshEnd? (tail : Bool) : Lower (Option Symbol) := if tail then pure none else some <$> freshLabel

/-! ## Expressions -/

/-- The cells of captured variables, pushed in symbol order, with their types. -/
def captureCells (scope : Scope) (whole : Expr) :
    List Symbol → Except BuildError (List Instr × List TypeRef)
  | [] => .ok ([], [])
  | name :: names => do
    let storage ← scope.storage name whole
    let code ← storage.fetchBox
    let (rest, types) ← captureCells scope whole names
    .ok (code ++ rest, storage.slotType :: types)

def closureKey (closure : Symbol) : TypeKey := ⟨"<closure>" ++ closure.text⟩

/-- The name of a closure's only method. -/
def invokeName : String := "Invoke"

namespace Expr

variable (options : BuildOptions)

mutual
def lower : Expr → Scope → Bool → Lower Block
  | .literal value, _, tail => pure (.ofCode (value.code ++ retIf tail))
  | e@(.var name), scope, tail => do
    let storage ← scope.storage name e
    pure (.ofCode (storage.fetch ++ retIf tail))
  | e@(.assign name value), scope, tail => do
    let storage ← scope.storage name e
    let v ← lower value scope false
    pure { v with code := storage.store v.code ++ retIf tail }
  | .seq items, scope, tail => lowerSeq items scope tail
  | .and items, scope, tail => lowerShortCircuit false items scope tail
  | .or items, scope, tail => lowerShortCircuit true items scope tail
  | .ite c t f, scope, tail => do
    let elseLabel ← freshLabel
    let condition ← lower c scope false
    let thenCode ← lower t scope tail
    if tail then
      let elseCode ← lower f scope true
      pure (condition ++ .ofCode [.branch .false elseLabel] ++ thenCode ++
        .ofCode [.label elseLabel] ++ elseCode)
    else
      let endLabel ← freshLabel
      let elseCode ← lower f scope false
      pure (condition ++ .ofCode [.branch .false elseLabel] ++ thenCode ++
        .ofCode [.branch .always endLabel, .label elseLabel] ++ elseCode ++
        .ofCode [.label endLabel])
  | .switch value cases fallback, scope, tail => do
    let claims := cases.map (·.1)
    checkDispatch options claims
    let wide := (← value.typeOf scope.types).isPrimitiveWith (· == .u64)
    let v ← lower value scope false
    let fallbackLabel ← freshLabel
    let caseLabels ← freshLabels cases.length
    let dispatch ← dispatch claims wide caseLabels fallbackLabel
    let endLabel? ← freshEnd? tail
    let leaveTo := endLabel?.toList.map (Instr.branch .always)
    let fallbackCode ← lower fallback scope tail
    let caseCode ← lowerCases cases caseLabels leaveTo scope tail
    pure (v ++ .ofCode (dispatch ++ [.label fallbackLabel]) ++ fallbackCode ++ .ofCode leaveTo ++
      caseCode ++ .ofCode (endLabel?.toList.map Instr.label))
  | .letIn bindings body, scope, tail => do
    let (values, inner) ← lowerBindings body.usages bindings scope scope
    let code ← lower body inner tail
    pure (values ++ code)
  | e@(.lambda closure params body), scope, tail => do
    let delegate ← (Expr.lambda closure params body).typeOf scope.types
    let (cells, types) ← captureCells scope e e.usages.keys
    let key := closureKey closure
    pure (.ofCode (cells ++
      [.newObject (.deferred (key.constructor types)),
       .newDelegate delegate (.deferred (key.method invokeName (params.map (·.type)) true))] ++
      retIf tail))
  | .invoke function args, scope, tail => do
    let delegate ← function.typeOf scope.types
    let f ← lower function scope false
    let as ← lowerAll args scope
    pure (f ++ as ++ .ofCode (.invokeDelegate delegate (tail && options.tailCalls) :: retIf tail))
  | .binary op left right, scope, tail => do
    let type ← left.typeOf scope.types
    let l ← lower left scope false
    let r ← lower right scope false
    pure (l ++ r ++ .ofCode (op.code type.primitive? ++ retIf tail))
  | .unary op operand, scope, tail => do
    let type ← operand.typeOf scope.types
    let v ← lower operand scope false
    pure (v ++ .ofCode (op.code type.primitive? ++ retIf tail))
  | .getField target field, scope, tail => do
    let t ← lower target scope false
    pure (t ++ .ofCode (.loadField field :: retIf tail))
  | .getStatic field, _, tail => pure (.ofCode (.loadStatic field :: retIf tail))
  | .setField target field value, scope, tail => do
    let t ← lower target scope false
    let v ← lower value scope false
    pure (t ++ v ++ .ofCode (.storeField field :: retIf tail))
  | .setStatic field value, scope, tail => do
    let v ← lower value scope false
    pure (v ++ .ofCode (.storeStatic field :: retIf tail))
  | .new ctor args, scope, tail => do
    let as ← lowerAll args scope
    pure (as ++ .ofCode (.newObject ctor :: retIf tail))
  | .call target method args, scope, tail => do
    let t ← lower target scope false
    let as ← lowerAll args scope
    pure (t ++ as ++ .ofCode (.callVirtual method (tail && options.tailCalls) :: retIf tail))
  | .callStatic method args, scope, tail => do
    let as ← lowerAll args scope
    pure (as ++ .ofCode (.call method (tail && options.tailCalls) :: retIf tail))
termination_by structural e => e

/-- Values pushed one after the other. -/
def lowerAll : List Expr → Scope → Lower Block
  | [], _ => pure {}
  | e :: es, scope => do
    let b ← lower e scope false
    let rest ← lowerAll es scope
    pure (b ++ rest)
termination_by structural es => es

/-- All but the last value are dropped. -/
def lowerSeq : List Expr → Scope → Bool → Lower Block
  | [], _, tail => pure (.ofCode (retIf tail))
  | [e], scope, tail => lower e scope tail
  | e :: es, scope, tail => do
    let type ← e.typeOf scope.types
    let b ← lower e scope false
    let rest ← lowerSeq es scope tail
    pure (b ++ .ofCode (if type.isVoid then [] else [.op .pop]) ++ rest)
termination_by structural es => es

/-- Conjunction stops at the first false, disjunction (`isOr`) at the first true. Without
operands the result is true. -/
def lowerShortCircuit (isOr : Bool) : List Expr → Scope → Bool → Lower Block
  | [], _, tail => pure (.ofCode (.loadI32 1 :: retIf tail))
  | [e], scope, tail => lower e scope tail
  | e :: es, scope, tail => do
    let decided ← freshLabel
    let first ← lower e scope false
    let kind := if isOr then BranchKind.true else .false
    let rest ← lowerOperands kind decided es scope tail
    let operands := first ++ .ofCode [.branch kind decided] ++ rest
    let outcome := Instr.loadI32 (if isOr then 1 else 0)
    if tail then pure (operands ++ .ofCode [.label decided, outcome, .op .ret])
    else
      let endLabel ← freshLabel
      pure (operands ++ .ofCode [.branch .always endLabel, .label decided, outcome, .label endLabel])
termination_by structural es => es

/-- Operands before the last may decide the result. -/
def lowerOperands (kind : BranchKind) (decided : Symbol) : List Expr → Scope → Bool → Lower Block
  | [], _, _ => pure {}
  | [e], scope, tail => lower e scope tail
  | e :: es, scope, tail => do
    let b ← lower e scope false
    let rest ← lowerOperands kind decided es scope tail
    pure (b ++ .ofCode [.branch kind decided] ++ rest)
termination_by structural es => es

/-- Cases that no value leads to are left out. -/
def lowerCases : List (CaseValues × Expr) → List Symbol → List Instr → Scope → Bool → Lower Block
  | [], _, _, _, _ => pure {}
  | _, [], _, _, _ => pure {}
  | (values, e) :: cases, label :: labels, leaveTo, scope, tail =>
    if values.isEmpty then lowerCases cases labels leaveTo scope tail
    else do
      let b ← lower e scope tail
      let rest ← lowerCases cases labels leaveTo scope tail
      pure (.ofCode [.label label] ++ b ++ .ofCode leaveTo ++ rest)
termination_by structural cases => cases

/-- Values are evaluated in the outer scope and bound in the inner one. -/
def lowerBindings (usages : Usages) :
    List (Symbol × Expr) → Scope → Scope → Lower (Block × Scope)
  | [], _, inner => pure ({}, inner)
  | (name, value) :: rest, scope, inner => do
    let type ← value.typeOf scope.types
    let boxed := usages.isCaptured name
    let slot ← freshLocal name
    let v ← lower value scope false
    let cell := if boxed then [Instr.typeOp .newCell type] else []
    let declared : Block := { locals := [⟨slot, if boxed then .cell type else type⟩] }
    let (block, inner) ← lowerBindings usages rest scope (inner.bind name (.slot slot type boxed))
    pure (declared ++ v ++ .ofCode (cell ++ [.storeLocal slot]) ++ block, inner)
termination_by structural bindings => bindings
end

end Expr

/-! ## Bodies -/

/-- Binds parameters from the given number on. Those that a lambda uses are copied into cells
before anything else happens. -/
def enterParams (usages : Usages) : Nat → List Param → Scope → Lower (Block × Scope)
  | _, [], scope => pure ({}, scope)
  | index, p :: params, scope =>
    if index ≥ 65536 then Effect.fail (.structural .tooManyParameters)
    else do
      let arg := UInt16.ofNat index
      if usages.isCaptured p.name then
        let slot ← freshLocal p.name
        let (rest, scope) ←
          enterParams usages (index + 1) params (scope.bind p.name (.slot slot p.type true))
        pure ({ locals := [⟨slot, .cell p.type⟩]
                code := [.loadArg arg, .typeOp .newCell p.type, .storeLocal slot] } ++ rest, scope)
      else enterParams usages (index + 1) params (scope.bind p.name (.argument arg p.type))

/-- Binds captures to the fields of the receiver, which must hold cells of their types. -/
def enterCaptures (table : Table) (receiver : Storage) :
    List Capture → Scope → Except BuildError Scope
  | [], scope => .ok scope
  | c :: captures, scope => do
    let info ← c.field.info table
    if info.fieldType == .cell c.type then
      enterCaptures table receiver captures (scope.bind c.name (.field receiver c.field c.type true))
    else .error (.type (.boxedFieldType c.field info.fieldType (.cell c.type)) none)

def Body.enter (b : Body) (h : Hierarchy) (usages : Usages) : Lower (Block × Scope) := do
  let (block, scope) ← enterParams usages 0 b.params { types := { hierarchy := h } }
  if b.captures.isEmpty then pure (block, scope)
  else match b.params with
    | [] => Effect.fail (.structural .capturesWithoutReceiver)
    | receiver :: _ =>
      let storage ← scope.storage receiver.name b.body
      let scope ← enterCaptures h.table storage b.captures scope
      pure (block, scope)

/-- The code of a method. A void method drops the value of its body. -/
def Body.compileMethod (b : Body) (h : Hierarchy) (options : BuildOptions) (returnType : TypeRef) :
    Lower Block := do
  let (start, scope) ← b.enter h b.body.usages
  let type ← b.body.typeOf scope.types
  if returnType.isVoid && !type.isVoid then
    let code ← b.body.lower options scope false
    pure (start ++ code ++ .ofCode [.op .pop, .op .ret])
  else if !h.isAssignable type returnType then
    Effect.fail (.type (.bodyType type returnType) (some b.body))
  else
    let code ← b.body.lower options scope true
    pure (start ++ code)

def checkBaseArgs (h : Hierarchy) (env : TypeEnv) :
    List TypeRef → List Expr → Except BuildError Unit
  | param :: params, arg :: args => do
    let type ← arg.typeOf env
    if h.isAssignable type param then checkBaseArgs h env params args
    else .error (.type (.baseArgumentType type param) (some arg))
  | _, _ => .ok ()

/-- The code of a constructor: the base class's constructor runs on the receiver, then the
body, whose value is dropped. -/
def Body.compileConstructor (b : Body) (h : Hierarchy) (options : BuildOptions) (base : BaseCall) :
    Lower Block := do
  match b.params with
  | [] => Effect.fail (.structural .constructorWithoutReceiver)
  | this :: _ =>
    let usages := base.args.foldl (fun m arg => m.union arg.usages) b.body.usages
    let (start, scope) ← b.enter h usages
    base.ctor.checkDeclared h.table
    let params := base.ctor.params
    if params.length != base.args.length then
      Effect.fail (.type (.baseArgumentCount base.ctor params.length base.args.length) none)
    else
      checkBaseArgs h scope.types params base.args
      let type ← b.body.typeOf scope.types
      let storage ← scope.storage this.name b.body
      let args ← Expr.lowerAll options base.args scope
      let code ← b.body.lower options scope false
      pure (start ++ .ofCode storage.fetch ++ args ++ .ofCode [.callConstructor base.ctor] ++ code ++
        .ofCode (if type.isVoid then [.op .ret] else [.op .pop, .op .ret]))

end Stackwright
