import Stackwright.Target.Basic
import Stackwright.Machine.Draft

/-
  Stackwright.Machine.Target — building programs for the machine.

  Types of the program take members until they are complete. Existing members of a type of
  the program are looked up in it; those of any other type are taken to be provided by the
  machine and noted once per owner, name, parameters and kind.
-/

namespace Stackwright.Machine

namespace Program

def constructorName : String := ".ctor"

def refuse {α : Type} (fault : BackendFault) : Effect Program α := throw (.backend fault)

/-- A type of the program that still takes members. -/
def openType (type : Ty) (action : String) : Effect Program TypeId := do
  match type with
  | .defined id =>
    let record := (← get).type id
    if record.layout.isSome then refuse (.finalizedOwner action record.name) else pure id
  | _ => refuse (.runtimeOwner action type.text)

def modifyType (id : TypeId) (f : TypeRecord → TypeRecord) : Effect Program Unit :=
  modify fun p => { p with types := p.types.modify id.index f }

def memberName (owner : Ty) (name : String) : String := owner.text ++ "::" ++ name

def addMethod (record : MethodRecord) : Effect Program MethodId := do
  let p ← get
  let id : MethodId := { index := p.methods.size, name := memberName record.owner record.name }
  set { p with methods := p.methods.push record }
  match record.owner with
  | .defined owner => modifyType owner fun t => { t with methods := t.methods ++ [id] }
  | _ => pure ()
  pure id

/-- Notes a method of the machine, unless it is known. -/
def nativeMethod (record : MethodRecord) : Effect Program MethodId := do
  let known := (← get).methods.findIdx? fun m =>
    m.kind.isNative && m.owner == record.owner && m.name == record.name &&
      m.params == record.params && m.isStatic == record.isStatic
  match known with
  | some index => pure { index, name := memberName record.owner record.name }
  | none => addMethod record

def namedType (name : String) : Effect Program Ty := do
  match (← get).findType name with
  | some id => pure (.defined id)
  | none => pure (.named name)

def existingMethod (owner : Ty) (name : String) (params : List Ty) (ret : Ty) (isInstance : Bool) :
    Effect Program MethodId := do
  match owner with
  | .defined id =>
    match (← get).findMethod id name params with
    | some found => pure found
    | none => refuse (.noMethod owner.text name)
  | _ =>
    nativeMethod
      { owner, name, params, ret, isStatic := !isInstance, isVirtual := false, kind := .native }

def existingConstructor (owner : Ty) (params : List Ty) : Effect Program MethodId := do
  match owner with
  | .defined id =>
    match (← get).findMethod id constructorName params with
    | some found => pure found
    | none => refuse (.noConstructor owner.text)
  | _ =>
    nativeMethod
      { owner, name := constructorName, params, ret := .void, isStatic := false, isVirtual := false
        kind := .native }

def existingField (owner : Ty) (name : String) (type : Ty) (isInstance : Bool) :
    Effect Program FieldId := do
  match owner with
  | .defined id =>
    match (← get).findField id name with
    | some found => pure found
    | none => refuse (.noField owner.text name)
  | _ => refuse (.noRuntimeField owner.text name type.text isInstance)

def defineType (name : String) (attributes : TypeAttributes) (base : Option Ty)
    (interfaces : List Ty) : Effect Program Ty := do
  let p ← get
  if (p.findType name).isSome then refuse (.typeTwice name)
  else
    set { p with types := p.types.push { name, attributes, base, interfaces } }
    pure (.defined { index := p.types.size, name })

/-- What keeps a type from being complete. -/
def unfinished? (p : Program) (id : TypeId) : Option BackendFault :=
  let record := p.type id
  let concrete := !(record.attributes.isAbstract || record.attributes.isInterface)
  record.methods.findSome? fun m =>
    match (p.method m).kind with
    | .defined none => some (.noBody m.name)
    | .abstract => if concrete then some (.abstractInConcrete id.name m.name) else none
    | _ => none

/-- The fields that objects of the base have. -/
def inheritedLayout (p : Program) (id : TypeId) : Except BuildError (List FieldId) :=
  match (p.type id).base with
  | some (.defined base) =>
    match (p.type base).layout with
    | some layout => .ok layout
    | none => .error (.backend (.baseNotFinalized base.name id.name))
  | _ => .ok []

/-- Gives the fields their places, from the given one on. -/
def placeFields (p : Program) : Nat → List FieldId → Program
  | _, [] => p
  | slot, f :: fs =>
    placeFields { p with fields := p.fields.modify f.index fun r => { r with slot := some slot } }
      (slot + 1) fs

def finalizeType (type : Ty) : Effect Program TypeId := do
  match type with
  | .defined id =>
    let p ← get
    let inherited ← p.inheritedLayout id
    match p.unfinished? id with
    | some fault => refuse fault
    | none =>
      let own := (p.type id).fields.filter fun f => !(p.field f).isStatic
      set (p.placeFields inherited.length own)
      modifyType id fun t => { t with layout := some (inherited ++ own) }
      pure id
  | _ => refuse (.notFinalizable type.text)

def defineField (owner : Ty) (s : FieldSignature handles) : Effect Program FieldId := do
  let ownerId ← openType owner "define a field"
  let p ← get
  let id : FieldId := { index := p.fields.size, name := (p.type ownerId).name ++ "::" ++ s.name }
  set { p with
    fields := p.fields.push
      { owner, name := s.name, type := s.fieldType, isStatic := s.attributes.isStatic } }
  modifyType ownerId fun t => { t with fields := t.fields ++ [id] }
  pure id

def defineMethod (owner : Ty) (s : MethodSignature handles) : Effect Program MethodId := do
  let ownerId ← openType owner "define a method"
  let inInterface := ((← get).type ownerId).attributes.isInterface
  addMethod
    { owner, name := s.name, params := s.params, ret := s.returnType
      isStatic := s.attributes.isStatic
      isVirtual := inInterface || s.attributes.isVirtual || s.attributes.isAbstract
      kind := if inInterface || s.attributes.isAbstract then .abstract else .defined none }

def defineConstructor (owner : Ty) (s : ConstructorSignature handles) : Effect Program MethodId := do
  let _ ← openType owner "define a constructor"
  addMethod
    { owner, name := constructorName, params := s.params, ret := .void, isStatic := false
      isVirtual := false, kind := .defined none }

def defineProperty (owner : Ty) (s : PropertySignature handles) : Effect Program PropertyId := do
  let ownerId ← openType owner "define a property"
  let p ← get
  let id : PropertyId :=
    { index := p.properties.size, name := (p.type ownerId).name ++ "::" ++ s.name }
  set { p with
    properties := p.properties.push
      { owner, name := s.name, type := s.propertyType, getter := s.getter, setter := s.setter } }
  modifyType ownerId fun t => { t with properties := t.properties ++ [id] }
  pure id

/-- A body is taken once, by a method that is neither abstract nor provided by the machine. -/
def setBody (id : MethodId) (draft : Draft) : Effect Program Unit := do
  let code ← draft.finish
  let p ← get
  match (p.method id).kind with
  | .defined none =>
    set { p with
      methods := p.methods.modify id.index fun m => { m with kind := .defined (some code) } }
  | _ => refuse (.bodyRefused id.name)

end Program

end Stackwright.Machine

namespace Stackwright

open Machine in
/-- The machine as a target. -/
abbrev machine : Target where
  toHandles := handles
  State := Program
  Draft := Draft
  primitiveType p := pure (Ty.primitive p)
  namedType := Program.namedType
  cellType (content : Ty) := pure (Ty.cell content)
  delegateType (params : List Ty) (ret : Ty) := pure (Ty.delegate params ret)
  existingMethod := Program.existingMethod
  existingConstructor := Program.existingConstructor
  existingField := Program.existingField
  defineType := Program.defineType
  finalizeType := Program.finalizeType
  defineField := Program.defineField
  defineMethod := Program.defineMethod
  defineConstructor := Program.defineConstructor
  defineProperty := Program.defineProperty
  emptyDraft := {}
  defineLabel := Draft.defineLabel
  markLabel := Draft.markLabel
  declareLocal := Draft.declareLocal
  beginTry := Draft.beginTry
  beginCatch (type : Ty) := Draft.beginHandler (.catching type)
  beginFinally := Draft.beginHandler .finally
  endTry := Draft.endTry
  emit := Draft.emit
  methodBody := Program.setBody
  constructorBody := Program.setBody

end Stackwright
