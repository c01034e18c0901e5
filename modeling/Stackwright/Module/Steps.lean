import Stackwright.Plan.Step
import Stackwright.Target.Emission
import Stackwright.Module.Definition

/-
  Stackwright.Module.Steps — the steps that build a definition.

  A type is defined first, then its members in order, then the bodies are written, all in
  the first phase. Completing a type belongs to the second phase and comes after its
  supertypes are complete. Bodies are checked and lowered when the steps are made, so a
  fault in one is found before anything is built.
-/

namespace Stackwright

def definePhase : Nat := 1

def finalizePhase : Nat := 2

def KeySet.single (key : ItemKey) : KeySet := (∅ : KeySet).insert key

namespace TypeDefinition

variable (T : Target) (d : TypeDefinition)

/-- Follows a reference with the slots as they are. -/
def following {α : Type} (x : Slots T.toHandles → Effect T.State α) : Effect (Workspace T) α := do
  Workspace.ofProgram (x (← get).slots)

def resolve (t : TypeRef) : Effect (Workspace T) T.Ty := following T fun slots => t.resolve T slots

def resolveAll (ts : List TypeRef) : Effect (Workspace T) (List T.Ty) :=
  following T fun slots => TypeRef.resolveAll T slots ts

def resolveMethod? : Option MethodRef → Effect (Workspace T) (Option T.Method)
  | none => pure none
  | some m => some <$> following T fun slots => m.resolve T slots

def ownerType : Effect (Workspace T) T.Ty := Workspace.read (.type d.key)

def typeStep : Step T where
  phase := definePhase
  description := "define type " ++ d.key.text
  inputs := d.supertypeKeys
  outputs := .single (.type d.key)
  action := do
    let base ← match d.base with
      | none => pure none
      | some base => some <$> resolve T base
    let interfaces ← resolveAll T d.interfaces
    let handle ← Workspace.ofProgram (T.defineType d.key.name d.attributes base interfaces)
    Workspace.write (.type d.key) handle

/-- Members need their owner and the types they mention. -/
def memberInputs (types : List TypeRef) : KeySet := TypeRef.addAllKeys types (.single (.type d.key))

def fieldStep (f : FieldDefinition) : Step T where
  phase := definePhase
  description := "define field " ++ (d.fieldKey f).text
  inputs := d.memberInputs [f.fieldType]
  outputs := .single (.field (d.fieldKey f))
  action := do
    let owner ← ownerType T d
    let fieldType ← resolve T f.fieldType
    let handle ← Workspace.ofProgram
      (T.defineField owner { name := f.name, attributes := f.attributes, fieldType })
    Workspace.write (.field (d.fieldKey f)) handle

def MethodBody.isAbstract : MethodBody → Bool
  | .abstract _ => true
  | _ => false

def methodStep (key : MethodKey) (m : MethodDefinition) : Step T where
  phase := definePhase
  description := "define method " ++ key.text
  inputs := d.memberInputs (key.params ++ [m.returnType])
  outputs := .single (.method key)
  action := do
    let owner ← ownerType T d
    let params ← resolveAll T key.params
    let returnType ← resolve T m.returnType
    let attributes :=
      { m.attributes with
        isStatic := m.attributes.isStatic || !key.isInstance
        isAbstract := m.attributes.isAbstract || MethodBody.isAbstract m.body }
    let handle ← Workspace.ofProgram
      (T.defineMethod owner { name := key.name, attributes, params, returnType })
    Workspace.write (.method key) handle

def constructorStep (key : ConstructorKey) (c : ConstructorDefinition) : Step T where
  phase := definePhase
  description := "define constructor " ++ key.text
  inputs := d.memberInputs key.params
  outputs := .single (.constructor key)
  action := do
    let owner ← ownerType T d
    let params ← resolveAll T key.params
    let handle ← Workspace.ofProgram
      (T.defineConstructor owner { attributes := { c.attributes with specialName := true }, params })
    Workspace.write (.constructor key) handle

def propertyStep (p : PropertyDefinition) : Step T where
  phase := definePhase
  description := "define property " ++ (d.propertyKey p).text
  inputs := (p.getter.toList ++ p.setter.toList).foldl (fun s m => m.addKeys s)
    (d.memberInputs [p.propertyType])
  outputs := .single (.property (d.propertyKey p))
  action := do
    let owner ← ownerType T d
    let propertyType ← resolve T p.propertyType
    let getter ← resolveMethod? T p.getter
    let setter ← resolveMethod? T p.setter
    let handle ← Workspace.ofProgram
      (T.defineProperty owner { name := p.name, attributes := p.attributes, propertyType, getter, setter })
    Workspace.write (.property (d.propertyKey p)) handle

/-- Supertypes have to be complete first. -/
def finalizeInputs : KeySet :=
  d.supertypeKeys.toList.foldl
    (fun s key => match key with
      | .type supertype => s.insert (.completed supertype)
      | _ => s)
    (.single (.type d.key))

def finalizeStep : Step T where
  phase := finalizePhase
  description := "finalize type " ++ d.key.text
  inputs := d.finalizeInputs
  outputs := .single (.completed d.key)
  action := do
    let handle ← ownerType T d
    let completed ← Workspace.ofProgram (T.finalizeType handle)
    Workspace.write (.completed d.key) completed

/-- Collects a body and hands it over. -/
def writeBody (block : Block) (accept : T.Draft → Effect T.State Unit) : Effect (Workspace T) Unit := do
  let slots := (← get).slots
  Workspace.ofProgram do
    let (outcome, after) := (Emission.block slots block).exec
      { program := (← get), draft := T.emptyDraft }
    set after.program
    outcome
    accept after.draft

def methodBodyStep (key : MethodKey) (block : Block) : Step T where
  phase := definePhase
  description := "emit body of " ++ key.text
  inputs := block.keys.insert (.method key)
  outputs := ∅
  action := do
    let method ← Workspace.read (.method key)
    writeBody T block (T.methodBody method)

def constructorBodyStep (key : ConstructorKey) (block : Block) : Step T where
  phase := definePhase
  description := "emit body of " ++ key.text
  inputs := block.keys.insert (.constructor key)
  outputs := ∅
  action := do
    let ctor ← Workspace.read (.constructor key)
    writeBody T block (T.constructorBody ctor)

/-- The steps of one member: those that define it and those that write its body. -/
def memberSteps (h : Hierarchy) (options : BuildOptions) :
    Member → Lower (List (Step T) × List (Step T))
  | .field f => pure ([d.fieldStep T f], [])
  | .method m => do
    let key ← d.methodKey m
    let bodies ← match m.body with
      | .abstract _ => pure []
      | .code _ block => pure [methodBodyStep T key block]
      | .expr body => do
        let block ← body.compileMethod h options m.returnType
        pure [methodBodyStep T key block]
    pure ([d.methodStep T key m], bodies)
  | .constructor c => do
    let key ← d.constructorKey c
    let block ← match c.body with
      | .code _ block => pure block
      | .expr body base => body.compileConstructor h options (base.getD d.defaultBaseCall)
    pure ([d.constructorStep T key c], [constructorBodyStep T key block])
  | .property p => pure ([d.propertyStep T p], [])

def allMemberSteps (h : Hierarchy) (options : BuildOptions) :
    List Member → Lower (List (Step T) × List (Step T))
  | [] => pure ([], [])
  | m :: ms => do
    let (defined, bodies) ← d.memberSteps T h options m
    let (moreDefined, moreBodies) ← allMemberSteps h options ms
    pure (defined ++ moreDefined, bodies ++ moreBodies)

def steps (h : Hierarchy) (options : BuildOptions) : Lower (List (Step T)) := do
  let (defined, bodies) ← d.allMemberSteps T h options d.members
  pure (d.typeStep T :: defined ++ bodies ++ [d.finalizeStep T])

end TypeDefinition

end Stackwright
