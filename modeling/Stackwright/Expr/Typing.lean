import Stackwright.Types.Hierarchy

/-
  Stackwright.Expr.Typing — the static type of an expression.

  Typing checks every part of an expression, in the order of evaluation, and answers with
  the first fault it meets, naming the innermost expression the fault belongs to. A switch
  is checked value first, then the fallback, then the cases, which must all have the
  fallback's type.
-/

namespace Stackwright

/-- The types of the variables in scope, innermost first. -/
structure TypeEnv where
  hierarchy : Hierarchy
  vars : List (Symbol × TypeRef) := []

namespace TypeEnv

def lookup (env : TypeEnv) (name : Symbol) : Option TypeRef :=
  (env.vars.find? fun entry => entry.1 == name).map (·.2)

def bind (env : TypeEnv) (name : Symbol) (type : TypeRef) : TypeEnv :=
  { env with vars := (name, type) :: env.vars }

def bindParams (env : TypeEnv) (params : List Param) : TypeEnv :=
  params.foldl (fun env p => env.bind p.name p.type) env

end TypeEnv

namespace Expr

def fault {α : Type} (whole : Expr) (f : TypeFault) : Except BuildError α :=
  .error (.type f (some whole))

/-- The type of a binary operation on operands of the given types. -/
def binaryType? (h : Hierarchy) (op : BinaryOp) (left right : TypeRef) : Option TypeRef :=
  let numeric := left.isPrimitiveWith Primitive.isNumeric
  let integer := left.isPrimitiveWith Primitive.isInteger
  match op with
  | .add | .sub | .mul | .div | .rem => if left == right && numeric then some left else none
  | .bitAnd | .bitOr | .bitXor =>
    if left == right && (integer || left.isBool) then some left else none
  | .shl | .shr => if integer && right == .i32 then some left else none
  | .eq | .ne =>
    if left == right && (numeric || left.isBool || h.isReference left) then some .bool else none
  | .lt | .le | .gt | .ge => if left == right && numeric then some .bool else none

/-- The type of a unary operation on an operand of the given type. -/
def unaryType? (op : UnaryOp) (operand : TypeRef) : Option TypeRef :=
  match op with
  | .not => if operand.isPrimitiveWith fun p => p == .bool || p.isInteger then some operand else none
  | .negate =>
    if operand.isPrimitiveWith fun p => p.isSigned || p.isFloat then some operand else none
  | .convert target =>
    if target.isNumeric && operand.isPrimitiveWith Primitive.isNumeric then some (.primitive target)
    else none

/-- Types a switch can branch on. -/
def isSwitchable (t : TypeRef) : Bool :=
  t.isPrimitiveWith fun p => p == .u8 || p == .u16 || p == .u32 || p == .u64

def checkCount (whole : Expr) (params : List TypeRef) (args : List Expr) : Except BuildError Unit :=
  if params.length == args.length then .ok ()
  else fault whole (.argumentCount params.length args.length)

def checkReceiver (whole : Expr) (owner : TypeRef) (env : TypeEnv) (type : TypeRef) :
    Except BuildError Unit :=
  if env.hierarchy.isAssignable type owner then .ok ()
  else fault whole (.receiverType type owner)

def checkStored (whole : Expr) (field : FieldRef) (info : FieldInfo) (env : TypeEnv) (type : TypeRef) :
    Except BuildError Unit :=
  if env.hierarchy.isAssignable type info.fieldType then .ok ()
  else fault whole (.notStorable type field info.fieldType)

mutual
def typeOf : Expr → TypeEnv → Except BuildError TypeRef
  | e@(.literal (.null type)), env =>
    if env.hierarchy.isReference type then .ok type else fault e (.nullOfValueType type)
  | .literal value, _ => .ok value.type
  | e@(.var name), env =>
    match env.lookup name with
    | some type => .ok type
    | none => fault e (.unbound name)
  | e@(.assign name value), env =>
    match env.lookup name with
    | none => fault e (.unbound name)
    | some target => do
      let type ← typeOf value env
      if env.hierarchy.isAssignable type target then .ok .void
      else fault e (.notAssignable type name target)
  | .seq items, env => typeOfLast items env .void
  | e@(.and items), env => do
    checkBools e items env
    .ok .bool
  | e@(.or items), env => do
    checkBools e items env
    .ok .bool
  | e@(.ite c t f), env => do
    let condition ← typeOf c env
    if !condition.isBool then fault e (.conditionNotBool condition)
    else
      let thenType ← typeOf t env
      let elseType ← typeOf f env
      if thenType == elseType then .ok thenType else fault e (.branchesDiffer thenType elseType)
  | e@(.switch value cases fallback), env => do
    let valueType ← typeOf value env
    if !isSwitchable valueType then fault e (.switchOnSigned valueType)
    else
      let type ← typeOf fallback env
      checkCases e type cases env
      .ok type
  | e@(.letIn bindings body), env => do
    let inner ← typeBindings e [] bindings env env
    typeOf body inner
  | .lambda _ params body, env => do
    let ret ← typeOf body (env.bindParams params)
    .ok (.delegate (params.map (·.type)) ret)
  | e@(.invoke function args), env => do
    let type ← typeOf function env
    match type.signature? with
    | none => fault e (.notInvocable type)
    | some (params, ret) =>
      checkCount e params args
      checkArgs e args params env
      .ok ret
  | e@(.binary op left right), env => do
    let l ← typeOf left env
    let r ← typeOf right env
    match binaryType? env.hierarchy op l r with
    | some type => .ok type
    | none => fault e (.badOperands op l r)
  | e@(.unary op operand), env => do
    let type ← typeOf operand env
    match unaryType? op type with
    | some result => .ok result
    | none => fault e (.badOperand op type)
  | e@(.getField target field), env => do
    let info ← field.info env.hierarchy.table
    if !info.isInstance then fault e .staticThroughInstance
    else
      checkReceiver e info.owner env (← typeOf target env)
      .ok info.fieldType
  | e@(.getStatic field), env => do
    let info ← field.info env.hierarchy.table
    if info.isInstance then fault e .instanceWithoutReceiver else .ok info.fieldType
  | e@(.setField target field value), env => do
    let info ← field.info env.hierarchy.table
    if !info.isInstance then fault e .staticThroughInstance
    else
      checkReceiver e info.owner env (← typeOf target env)
      checkStored e field info env (← typeOf value env)
      .ok .void
  | e@(.setStatic field value), env => do
    let info ← field.info env.hierarchy.table
    if info.isInstance then fault e .instanceWithoutReceiver
    else
      checkStored e field info env (← typeOf value env)
      .ok .void
  | e@(.new ctor args), env => do
    ctor.checkDeclared env.hierarchy.table
    if env.hierarchy.isInterface ctor.owner then fault e (.interfaceConstructed ctor.owner)
    else
      checkCount e ctor.params args
      checkArgs e args ctor.params env
      .ok ctor.owner
  | e@(.call target method args), env => do
    let info ← method.info env.hierarchy.table
    if !info.isInstance then fault e .staticThroughInstance
    else
      checkReceiver e info.owner env (← typeOf target env)
      checkCount e info.params args
      checkArgs e args info.params env
      .ok info.returnType
  | e@(.callStatic method args), env => do
    let info ← method.info env.hierarchy.table
    if info.isInstance then fault e .instanceWithoutReceiver
    else
      checkCount e info.params args
      checkArgs e args info.params env
      .ok info.returnType
termination_by structural e => e

/-- Checks all; the type is that of the last, or the given one when there is none. -/
def typeOfLast : List Expr → TypeEnv → TypeRef → Except BuildError TypeRef
  | [], _, last => .ok last
  | e :: es, env, _ => do
    let type ← typeOf e env
    typeOfLast es env type
termination_by structural es => es

def checkBools (whole : Expr) : List Expr → TypeEnv → Except BuildError Unit
  | [], _ => .ok ()
  | e :: es, env => do
    let type ← typeOf e env
    if type.isBool then checkBools whole es env else fault whole (.operandNotBool e type)
termination_by structural es => es

def checkCases (whole : Expr) (type : TypeRef) :
    List (CaseValues × Expr) → TypeEnv → Except BuildError Unit
  | [], _ => .ok ()
  | (_, e) :: es, env => do
    let caseType ← typeOf e env
    if caseType == type then checkCases whole type es env else fault whole (.casesDiffer caseType type)
termination_by structural cases => cases

/-- Types bound values in the outer scope and binds them in the inner one. -/
def typeBindings (whole : Expr) (seen : List Symbol) :
    List (Symbol × Expr) → TypeEnv → TypeEnv → Except BuildError TypeEnv
  | [], _, inner => .ok inner
  | (name, value) :: rest, env, inner =>
    if seen.contains name then fault whole (.boundTwice name)
    else do
      let type ← typeOf value env
      if type.isVoid then fault whole (.boundToVoid name)
      else typeBindings whole (name :: seen) rest env (inner.bind name type)
termination_by structural bindings => bindings

/-- Each argument must fit its parameter. -/
def checkArgs (whole : Expr) : List Expr → List TypeRef → TypeEnv → Except BuildError Unit
  | [], _, _ => .ok ()
  | _, [], _ => .ok ()
  | arg :: args, param :: params, env => do
    let type ← typeOf arg env
    if env.hierarchy.isAssignable type param then checkArgs whole args params env
    else fault whole (.argumentType arg type param)
termination_by structural args => args
end

end Expr

end Stackwright
