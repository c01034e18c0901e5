import Stackwright.Expr.Text

/-
  Stackwright.Error — why a build stops.

  Each error is a cause with the things it is about; the wording is in `message` alone.
  Type faults may name the expression in which they were found.
-/

namespace Stackwright

inductive TypeFault where
  | undeclaredMethod (key : MethodKey)
  | undeclaredConstructor (key : ConstructorKey)
  | undeclaredField (key : FieldKey)
  | nullOfValueType (type : TypeRef)
  | unbound (name : Symbol)
  | notAssignable (value : TypeRef) (name : Symbol) (target : TypeRef)
  | operandNotBool (operand : Expr) (type : TypeRef)
  | conditionNotBool (type : TypeRef)
  | branchesDiffer (thenType elseType : TypeRef)
  | switchOnSigned (type : TypeRef)
  | casesDiffer (caseType fallbackType : TypeRef)
  | boundTwice (name : Symbol)
  | boundToVoid (name : Symbol)
  | notInvocable (type : TypeRef)
  | badOperands (op : BinaryOp) (left right : TypeRef)
  | badOperand (op : UnaryOp) (type : TypeRef)
  | notStorable (value : TypeRef) (field : FieldRef) (type : TypeRef)
  | interfaceConstructed (owner : TypeRef)
  | argumentCount (expected found : Nat)
  | argumentType (arg : Expr) (found expected : TypeRef)
  | receiverType (found expected : TypeRef)
  | staticThroughInstance
  | instanceWithoutReceiver
  | bodyType (found expected : TypeRef)
  | baseArgumentCount (ctor : ConstructorRef) (expected found : Nat)
  | baseArgumentType (found expected : TypeRef)
  | boxedFieldType (field : FieldRef) (found expected : TypeRef)
  deriving Inhabited

def TypeFault.message : TypeFault → String
  | .undeclaredMethod key => "undeclared method " ++ key.text
  | .undeclaredConstructor key => "undeclared constructor " ++ key.text
  | .undeclaredField key => "undeclared field " ++ key.text
  | .nullOfValueType type => "unsupported literal: null of value type " ++ type.text
  | .unbound name => "unbound variable " ++ name.text
  | .notAssignable value name target =>
    "cannot assign " ++ value.text ++ " to " ++ name.text ++ ": " ++ target.text
  | .operandNotBool operand type =>
    "operand " ++ operand.text ++ " has type " ++ type.text ++ ", expected bool"
  | .conditionNotBool type => "condition has type " ++ type.text ++ ", expected bool"
  | .branchesDiffer thenType elseType =>
    "branches have different types " ++ thenType.text ++ " and " ++ elseType.text
  | .switchOnSigned type => "switch value has type " ++ type.text ++ ", expected an unsigned integer"
  | .casesDiffer caseType fallbackType =>
    "switch case has type " ++ caseType.text ++ ", default has type " ++ fallbackType.text
  | .boundTwice name => name.text ++ " is bound twice"
  | .boundToVoid name => name.text ++ " is bound to a void value"
  | .notInvocable type => "cannot invoke a value of type " ++ type.text
  | .badOperands op left right =>
    "operator " ++ op.text ++ " does not apply to " ++ left.text ++ " and " ++ right.text
  | .badOperand op type => op.text ++ " does not apply to " ++ type.text
  | .notStorable value field type =>
    "cannot store " ++ value.text ++ " into " ++ field.text ++ ": " ++ type.text
  | .interfaceConstructed owner => "cannot construct interface " ++ owner.text
  | .argumentCount expected found =>
    "expected " ++ toString expected ++ " arguments, found " ++ toString found
  | .argumentType arg found expected =>
    "argument " ++ arg.text ++ " has type " ++ found.text ++ ", expected " ++ expected.text
  | .receiverType found expected =>
    "receiver has type " ++ found.text ++ ", expected " ++ expected.text
  | .staticThroughInstance => "static member accessed through an instance"
  | .instanceWithoutReceiver => "instance member accessed without a receiver"
  | .bodyType found expected => "body has type " ++ found.text ++ ", expected " ++ expected.text
  | .baseArgumentCount ctor expected found =>
    "base constructor " ++ ctor.text ++ " expects " ++ toString expected ++ " arguments, found " ++
      toString found
  | .baseArgumentType found expected =>
    "base constructor argument has type " ++ found.text ++ ", expected " ++ expected.text
  | .boxedFieldType field found expected =>
    "boxed field " ++ field.text ++ " has type " ++ found.text ++ ", expected " ++ expected.text

inductive StructuralFault where
  | missingSlot (key : ItemKey)
  | unproduced (step : String) (key : ItemKey)
  | localTwice (name : Symbol)
  | localUndeclared (name : Symbol)
  | labelOutsideRegion (label : Symbol)
  | notBoxed (location : String)
  | constructorWithoutReceiver
  | capturesWithoutReceiver
  | tooManyParameters
  | switchValueTwice (value first second : Nat)
  | switchTooLarge (entries limit : Nat)
  | noReceiver (what : String) (owner : TypeKey)
  | wrongReceiver (name : Symbol) (what : String) (type : TypeRef) (owner : TypeKey)
  /-- What an action from outside the library reports. -/
  | reported (text : String)
  deriving Inhabited

def StructuralFault.message : StructuralFault → String
  | .missingSlot key => "no slot was created for " ++ key.text
  | .unproduced step key => "step `" ++ step ++ "` finished without producing " ++ key.text
  | .localTwice name => "local " ++ name.text ++ " is declared more than once"
  | .localUndeclared name => "local " ++ name.text ++ " is used but not declared"
  | .labelOutsideRegion label => "label " ++ label.text ++ " is used outside its protected region"
  | .notBoxed location => "storage " ++ location ++ " is not boxed"
  | .constructorWithoutReceiver => "constructor body has no receiver parameter"
  | .capturesWithoutReceiver => "captured variables need a receiver parameter"
  | .tooManyParameters => "too many parameters"
  | .switchValueTwice value first second =>
    "switch value " ++ toString value ++ " is claimed by cases " ++ toString first ++ " and " ++
      toString second
  | .switchTooLarge entries limit =>
    "switch needs a table of " ++ toString entries ++ " entries, the maximum is " ++ toString limit
  | .noReceiver what owner => what ++ " of " ++ owner.text ++ " has no receiver parameter"
  | .wrongReceiver name what type owner =>
    "receiver `" ++ name.text ++ "` of " ++ what ++ " has type " ++ type.text ++ ", expected " ++
      owner.text
  | .reported text => text

/-- What a target refuses to do. Its entities are given by their texts. -/
inductive BackendFault where
  | emptyTypeName
  | runtimeOwner (action type : String)
  | finalizedOwner (action type : String)
  | bodyRefused (method : String)
  | noMethod (owner name : String)
  | noConstructor (owner : String)
  | noField (owner name : String)
  | noRuntimeField (owner name type : String) (isInstance : Bool)
  | typeTwice (name : String)
  | notFinalizable (type : String)
  | baseNotFinalized (base type : String)
  | noBody (method : String)
  | abstractInConcrete (type method : String)
  | handlerOutsideRegion
  | regionOpen
  | regionWithoutHandlers
  | labelNeverMarked (label : String)
  | labelMarkedTwice (label : String)
  | labelNeverDefined (label : String)
  deriving DecidableEq, Inhabited

def BackendFault.message : BackendFault → String
  | .emptyTypeName => "empty type name"
  | .runtimeOwner action type => "cannot " ++ action ++ " on runtime type " ++ type
  | .finalizedOwner action type => "cannot " ++ action ++ " on finalized type " ++ type
  | .bodyRefused method => "method " ++ method ++ " cannot take a body"
  | .noMethod owner name => owner ++ " has no method " ++ name
  | .noConstructor owner => owner ++ " has no such constructor"
  | .noField owner name => owner ++ " has no field " ++ name
  | .noRuntimeField owner name type isInstance =>
    "runtime type " ++ owner ++ " exposes no field " ++ name ++ ": " ++ type ++ " (instance: " ++
      (if isInstance then "true" else "false") ++ ")"
  | .typeTwice name => "type " ++ name ++ " defined twice"
  | .notFinalizable type => "cannot finalize " ++ type
  | .baseNotFinalized base type => "base " ++ base ++ " of " ++ type ++ " is not finalized"
  | .noBody method => method ++ " has no body"
  | .abstractInConcrete type method =>
    "concrete type " ++ type ++ " has abstract method " ++ method
  | .handlerOutsideRegion => "handler outside of a protected region"
  | .regionOpen => "protected region left open"
  | .regionWithoutHandlers => "protected region without handlers"
  | .labelNeverMarked label => "label " ++ label ++ " never marked"
  | .labelMarkedTwice label => label ++ " marked twice"
  | .labelNeverDefined label => label ++ " was never defined"

/-- Why a step could not have one of its inputs. -/
inductive UnmetReason where
  /-- No step makes the key. -/
  | noProducer
  /-- A step of this later phase makes the key. -/
  | laterPhase (phase : Nat)
  /-- A step of the same phase makes the key, but never became ready. -/
  | blocked
  deriving DecidableEq, Repr, Inhabited

structure StuckStep where
  description : String
  unmet : List (ItemKey × UnmetReason)
  deriving DecidableEq, Inhabited

inductive LabelFault where
  | undefined
  | definedTwice
  deriving DecidableEq, Repr, Inhabited

inductive BuildError where
  | declaration (key : ItemKey)
  | scheduling (phase : Nat) (stuck : List StuckStep)
  | label (label : Symbol) (fault : LabelFault)
  | type (fault : TypeFault) (within : Option Expr)
  | structural (fault : StructuralFault)
  | uninitialized (key : ItemKey)
  | singleAssignment (key : ItemKey)
  | backend (fault : BackendFault)
  deriving Inhabited

def UnmetReason.text : UnmetReason → String
  | .noProducer => "never produced"
  | .laterPhase phase => "produced in phase " ++ toString phase
  | .blocked => "blocked"

def StuckStep.text (s : StuckStep) : String :=
  let unmet := s.unmet.map fun u => u.1.text ++ " (" ++ u.2.text ++ ")"
  "\n  " ++ s.description ++ " waits for" ++ (if unmet.isEmpty then "" else " ") ++
    ", ".intercalate unmet

namespace BuildError

/-- The word that names the kind of error. -/
def kind : BuildError → String
  | .declaration _ => "Declaration"
  | .scheduling _ _ => "Scheduling"
  | .label _ _ => "Label"
  | .type _ _ => "Type"
  | .structural _ => "Structural"
  | .uninitialized _ => "Uninitialized"
  | .singleAssignment _ => "SingleAssignment"
  | .backend _ => "Backend"

def detail : BuildError → String
  | .declaration key => key.text ++ " is declared more than once"
  | .scheduling phase stuck =>
    "phase " ++ toString phase ++ " cannot make progress:" ++ String.join (stuck.map StuckStep.text)
  | .label name .undefined => "label " ++ name.text ++ " is used but never defined"
  | .label name .definedTwice => "label " ++ name.text ++ " is defined more than once"
  | .type fault within => fault.message ++ (within.map fun e => " in " ++ e.text).getD ""
  | .structural fault => fault.message
  | .uninitialized key => "slot for " ++ key.text ++ " read before it was written"
  | .singleAssignment key => "slot for " ++ key.text ++ " written twice"
  | .backend fault => fault.message

def message (e : BuildError) : String := e.kind ++ "Error: " ++ e.detail

end BuildError

end Stackwright
