import Stackwright.Proofs.Delegates

/-
  Stackwright.Proofs.Boxing — which variables live in cells.

  A variable is captured when an occurrence that refers to it lies inside a lambda. `Touches` says
  which locals a piece of a body has and which of its instructions touch variables: there is one
  rule per way of using a variable, and one for all other constructs.
-/

namespace Stackwright

variable {xs : List Symbol} {w : Work}
variable {h : Hierarchy} {vars : Variables} {locals : List LocalDecl} {code : List Instr} {es : List Expr}
variable {x : Symbol} {locals' : List LocalDecl}

/-! ## Occurrences -/

namespace Expr

/-- A free occurrence of a variable. The flag says whether it lies inside a lambda of the expression. -/
inductive Occurs (x : Symbol) : Bool → Expr → Prop
  | read {y} : (y == x) → Occurs x false (.var y)
  | write {y e} : (y == x) → Occurs x false (.assign y e)
  | part {e part nested} : part ∈ e.parts → Occurs x nested part → Occurs x nested e
  | letBody {bs body nested} : (bs.map (·.1)).contains x = false → Occurs x nested body →
    Occurs x nested (.letIn bs body)
  | lambdaBody {closure ps body nested} : (ps.map (·.name)).contains x = false → Occurs x nested body →
      Occurs x true (.lambda closure ps body)

variable {x : Symbol} {e : Expr}

theorem Occurs.freeAt {nested : Bool} (h : e.Occurs x nested) :
    ∃ role depth, e.FreeAt x role depth ∧ nested = decide (0 < depth) := by
  induction h with
  | read hx => exact ⟨.read, 0, .read hx, rfl⟩
  | write hx => exact ⟨.write, 0, .write hx, rfl⟩
  | part hpart _ ih =>
    obtain ⟨role, depth, hfree, hnested⟩ := ih
    exact ⟨role, depth, .part hpart hfree, hnested⟩
  | letBody hbound _ ih =>
    obtain ⟨role, depth, hfree, hnested⟩ := ih
    exact ⟨role, depth, .letBody hbound hfree, hnested⟩
  | lambdaBody hbound _ ih =>
    obtain ⟨role, depth, hfree, -⟩ := ih
    exact ⟨role, depth + 1, .lambdaBody hbound hfree, by simp⟩

theorem FreeAt.occurs {role : Role} {depth : Nat} (h : e.FreeAt x role depth) : e.Occurs x (decide (0 < depth)) := by
  induction h with
  | read hx => exact .read hx
  | write hx => exact .write hx
  | part hpart _ ih => exact .part hpart ih
  | letBody hbound _ ih => exact .letBody hbound ih
  | lambdaBody hbound _ ih =>
    rw [decide_eq_true (Nat.succ_pos _)]
    exact .lambdaBody hbound ih

/-- A variable is captured exactly when it occurs inside a lambda. -/
theorem isCaptured_iff_occurs : e.usages.isCaptured x ↔ e.Occurs x true := by
  rw [isCaptured_iff_freeAt]
  constructor
  · rintro ⟨role, depth, hfree, hdepth⟩
    exact decide_eq_true hdepth ▸ hfree.occurs
  · intro h
    obtain ⟨role, depth, hfree, hnested⟩ := h.freeAt
    exact ⟨role, depth, hfree, of_decide_eq_true hnested.symm⟩

end Expr

/-! ## Binders -/

/-- A name bound by a body or a let, before some others, for some expressions. -/
structure Binder where
  name : Symbol
  /-- The names that are bound after it in the same place and would hide it. -/
  later : List Symbol
  /-- Where the name is visible. -/
  scope : List Expr

/-- An occurrence that refers to the binder lies inside a lambda. -/
def Binder.IsCaptured (b : Binder) : Prop := b.later.contains b.name = false ∧ ∃ e ∈ b.scope, e.Occurs b.name true

instance (b : Binder) : Decidable b.IsCaptured :=
  decidable_of_iff (b.later.contains b.name = false ∧ ∃ e ∈ b.scope, e.usages.isCaptured b.name) <| by
    simp only [Expr.isCaptured_iff_occurs, Binder.IsCaptured]

/-- The binders of names that are bound together. -/
def Binder.all (scope : List Expr) : List Symbol → List Binder
  | [] => []
  | x :: xs => ⟨x, xs, scope⟩ :: all scope xs

namespace Expr

/-- The binders of the expression itself. -/
def ownBinders : Expr → List Binder
  | .letIn bs body => Binder.all [body] (bs.map (·.1))
  | _ => []

/-- The let bindings that code is made for. -/
def binders (e : Expr) : List Binder := e.ownBinders ++ e.compiled.attach.flatMap fun ⟨c, _⟩ => c.binders
termination_by sizeOf e
decreasing_by exact sizeOf_child (compiled_subset_children (by assumption))

theorem binders_eq (e : Expr) : e.binders = e.ownBinders ++ e.compiled.flatMap binders := by
  rw [binders]
  simp

end Expr

/-! ## What code does to variables -/

/-- Where a variable is kept: as an argument, in a local of its own type, or in a local that holds its cell. -/
inductive Home where
  | argument (index : UInt16)
  | plain (slot : Symbol)
  | boxed (slot : Symbol)

structure Variable where
  name : Symbol
  type : TypeRef
  home : Home

namespace Variable

def load (v : Variable) : List Instr :=
  match v.home with
  | .argument index => [.loadArg index]
  | .plain slot => [.loadLocal slot]
  | .boxed slot => [.loadLocal slot, .typeOp .loadCell v.type]

/-- Writes the value that the given code pushes. -/
def store (v : Variable) (value : List Instr) : List Instr :=
  match v.home with
  | .argument index => value ++ [.storeArg index]
  | .plain slot => value ++ [.storeLocal slot]
  | .boxed slot => .loadLocal slot :: value ++ [.typeOp .storeCell v.type]

def storage (v : Variable) : Storage :=
  match v.home with
  | .argument index => .argument index v.type
  | .plain slot => .slot slot v.type false
  | .boxed slot => .slot slot v.type true

theorem fetch_storage (v : Variable) : v.storage.fetch = v.load := by
  obtain ⟨name, type, home⟩ := v
  cases home <;> rfl

theorem store_storage (v : Variable) (value : List Instr) : v.storage.store value = v.store value := by
  obtain ⟨name, type, home⟩ := v
  cases home <;> simp [storage, store, Storage.store, Storage.beforeStore, Storage.afterStore, Storage.isBoxed,
    Storage.loadSlot, Storage.type]

end Variable

/-- Variables in scope, innermost first. -/
abbrev Variables := List Variable

namespace Variables

/-- The variable that a name refers to. -/
def named (vars : Variables) (x : Symbol) : Option Variable := vars.find? (·.name == x)

def types (vars : Variables) (h : Hierarchy) : TypeEnv := { hierarchy := h, vars := vars.map fun v => (v.name, v.type) }

def scope (vars : Variables) (h : Hierarchy) : Scope :=
  { types := vars.types h, vars := vars.map fun v => (v.name, v.storage) }

end Variables

/-- The instructions that touch arguments, locals and cells. -/
def Instr.touchesVariable : Instr → Bool
  | .loadArg _ | .storeArg _ | .loadLocal _ | .storeLocal _ => true
  | .typeOp .newCell _ | .typeOp .loadCell _ | .typeOp .storeCell _ => true
  | _ => false

def Instr.makesCell : Instr → Bool
  | .typeOp .newCell _ => true
  | _ => false

def variableCode (code : List Instr) : List Instr := code.filter Instr.touchesVariable

/-- What uses variables: an expression, or one of the lists inside an expression. -/
inductive Spot where
  | expr (e : Expr)
  | all (es : List Expr)
  /-- Bindings for a body, on top of `inner`, lead to the variables `result`. -/
  | bindings (bs : List (Symbol × Expr)) (body : Expr) (inner result : Variables)

/-- `Touches h vars spot locals code`: where the variables are kept as `vars` says, code for `spot` declares the locals
    and touches variables as in `code`. -/
inductive Touches (h : Hierarchy) : Variables → Spot → List LocalDecl → List Instr → Prop
  | var {vars : Variables} {x v} : vars.named x = some v → Touches h vars (.expr (.var x)) [] v.load
  | assign {vars : Variables} {x e v locals code} : vars.named x = some v → Touches h vars (.expr e) locals code →
      Touches h vars (.expr (.assign x e)) locals (v.store code)
  /-- A lambda takes the cells of the variables that it uses. -/
  | lambda {vars : Variables} {closure ps body slots} :
    List.Forall₂ (fun x slot => ∃ v, vars.named x = some v ∧ v.home = .boxed slot)
        (Expr.lambda closure ps body).usages.keys slots →
      Touches h vars (.expr (.lambda closure ps body)) [] (slots.map .loadLocal)
  | letIn {vars inner : Variables} {bs body locals code locals' code'} :
    Touches h vars (.bindings bs body vars inner) locals code →
      Touches h inner (.expr body) locals' code' →
      Touches h vars (.expr (.letIn bs body)) (locals ++ locals') (code ++ code')
  | other {vars : Variables} {e locals code} : e.isTransparent → Touches h vars (.all e.compiled) locals code →
      Touches h vars (.expr e) locals code
  | nil {vars : Variables} : Touches h vars (.all []) [] []
  | cons {vars : Variables} {e es locals code locals' code'} : Touches h vars (.expr e) locals code →
      Touches h vars (.all es) locals' code' → Touches h vars (.all (e :: es)) (locals ++ locals') (code ++ code')
  | bindingsNil {vars inner : Variables} {body} : Touches h vars (.bindings [] body inner inner) [] []
  | bindingsCell {vars inner result : Variables} {x value bs body type slot locals code locals' code'} :
      value.typeOf (vars.types h) = .ok type → (⟨x, bs.map (·.1), [body]⟩ : Binder).IsCaptured →
      Touches h vars (.expr value) locals code →
      Touches h vars (.bindings bs body (⟨x, type, .boxed slot⟩ :: inner) result) locals' code' →
      Touches h vars (.bindings ((x, value) :: bs) body inner result) (⟨slot, .cell type⟩ :: locals ++ locals')
        (code ++ [.typeOp .newCell type, .storeLocal slot] ++ code')
  | bindingsPlain {vars inner result : Variables} {x value bs body type slot locals code locals' code'} :
      value.typeOf (vars.types h) = .ok type → ¬ (⟨x, bs.map (·.1), [body]⟩ : Binder).IsCaptured →
      Touches h vars (.expr value) locals code →
      Touches h vars (.bindings bs body (⟨x, type, .plain slot⟩ :: inner) result) locals' code' →
      Touches h vars (.bindings ((x, value) :: bs) body inner result) (⟨slot, type⟩ :: locals ++ locals')
        (code ++ [.storeLocal slot] ++ code')

/-! ### Counting cells -/

/-- The number of captured binders. -/
def capturedCount (bs : List Binder) : Nat := bs.countP fun b => b.IsCaptured

def Spot.binders : Spot → List Binder
  | .expr e => e.binders
  | .all es => es.flatMap Expr.binders
  | .bindings bs body _ _ => Binder.all [body] (bs.map (·.1)) ++ (bs.map (·.2)).flatMap Expr.binders

theorem Variable.countP_load (v : Variable) : v.load.countP Instr.makesCell = 0 := by
  obtain ⟨name, type, home⟩ := v
  cases home <;> rfl

theorem Variable.countP_store (v : Variable) (value : List Instr) :
    (v.store value).countP Instr.makesCell = value.countP Instr.makesCell := by
  obtain ⟨name, type, home⟩ := v
  cases home <;> simp [store, Instr.makesCell]

@[simp] theorem capturedCount_append (as bs : List Binder) :
    capturedCount (as ++ bs) = capturedCount as + capturedCount bs :=
  List.countP_append

@[simp] theorem capturedCount_cons (b : Binder) (bs : List Binder) :
    capturedCount (b :: bs) = capturedCount bs + if b.IsCaptured then 1 else 0 := by
  rw [capturedCount, List.countP_cons]
  simp [capturedCount]

/-- One cell is made per captured binder. -/
theorem Touches.countP_makesCell {spot : Spot} (ht : Touches h vars spot locals code) :
    code.countP Instr.makesCell = capturedCount spot.binders := by
  induction ht with
  | @var vars x v _ =>
    rw [v.countP_load, Spot.binders, Expr.binders_eq]
    rfl
  | @assign vars x e v locals code _ _ ih =>
    rw [v.countP_store, ih]
    simp [Spot.binders, Expr.binders_eq (.assign x e), Expr.ownBinders, Expr.compiled, Expr.children]
  | @lambda vars closure ps body slots _ =>
    rw [Spot.binders, Expr.binders_eq, List.countP_map]
    exact List.countP_eq_zero.mpr fun slot _ => by simp [Instr.makesCell]
  | @letIn vars inner bs body locals code locals' code' _ _ ihbs ihbody =>
    rw [List.countP_append, ihbs, ihbody]
    simp [Spot.binders, Expr.binders_eq (.letIn bs body), Expr.ownBinders, Expr.compiled, Expr.children, Nat.add_assoc]
  | @other vars e locals code htransparent _ ih =>
    have hown : e.ownBinders = [] := by
      cases e <;> first | rfl | cases htransparent
    rw [ih, Spot.binders, Spot.binders, Expr.binders_eq e, hown, List.nil_append]
  | nil | bindingsNil => rfl
  | cons _ _ ihe ihes =>
    rw [List.countP_append, ihe, ihes]
    simp [Spot.binders]
  | bindingsCell htype hcaptured _ _ ihv ihbs =>
    simp only [List.countP_append, ihv, ihbs, Spot.binders, List.map_cons, List.flatMap_cons, Binder.all,
      capturedCount_append,
      capturedCount_cons, if_pos hcaptured, List.countP_cons, List.countP_nil, Instr.makesCell, if_true,
        Bool.false_eq_true, if_false]
    omega
  | bindingsPlain htype hcaptured _ _ ihv ihbs =>
    simp only [List.countP_append, ihv, ihbs, Spot.binders, List.map_cons, List.flatMap_cons, Binder.all,
      capturedCount_append, capturedCount_cons, if_neg hcaptured, List.countP_cons, List.countP_nil, Instr.makesCell,
        Bool.false_eq_true, if_false]
    omega

/-! ## Lowered code -/

section

@[simp] theorem variableCode_nil : variableCode [] = [] := rfl

@[simp] theorem variableCode_cons (i : Instr) (code : List Instr) :
    variableCode (i :: code) = if i.touchesVariable then i :: variableCode code else variableCode code :=
  List.filter_cons

@[simp] theorem variableCode_append (a b : List Instr) : variableCode (a ++ b) = variableCode a ++ variableCode b :=
  List.filter_append ..

@[simp] theorem variableCode_retIf (tail : Bool) : variableCode (retIf tail) = [] := by cases tail <;> rfl

theorem variableCode_of_isGlueCode (h : isGlueCode code) : variableCode code = [] := by
  refine List.filter_eq_nil_iff.mpr fun i hi => ?_
  have hglue := List.all_eq_true.mp h i hi
  cases i <;> first | (cases hglue; done) | simp [Instr.touchesVariable]

theorem Variable.variableCode_load (v : Variable) : variableCode v.load = v.load := by
  obtain ⟨name, type, home⟩ := v
  cases home <;> rfl

theorem Variable.variableCode_store (v : Variable) (value : List Instr) :
    variableCode (v.store value) = v.store (variableCode value) := by
  obtain ⟨name, type, home⟩ := v
  cases home <;> simp [store, variableCode, Instr.touchesVariable, List.filter_cons]

end

theorem Variables.named_of_storage {whole : Expr} {storage : Storage}
    (hx : (vars.scope h).storage x whole = .ok storage)
    : ∃ v, vars.named x = some v ∧ v.storage = storage := by
  unfold Scope.storage at hx
  split at hx
  · rename_i name found hfind
    cases hx
    rw [scope, List.find?_map, Option.map_eq_some_iff] at hfind
    obtain ⟨v, hv, hpair⟩ := hfind
    exact ⟨v, hv, congrArg Prod.snd hpair⟩
  · cases hx

/-- Cells are taken from the locals of boxed variables. -/
theorem Variables.slots_of_storages {whole : Expr} {storages : List Storage}
    (hxs : List.Forall₂ (fun x storage => (vars.scope h).storage x whole = .ok storage ∧ storage.isBoxed) xs storages) :
    ∃ slots, List.Forall₂ (fun x slot => ∃ v, vars.named x = some v ∧ v.home = .boxed slot) xs slots ∧
      storages.flatMap Storage.loadSlot = slots.map .loadLocal := by
  induction hxs with
  | nil => exact ⟨[], .nil, rfl⟩
  | @cons x storage xs storages hx _ ih =>
    obtain ⟨slots, hslots, hcode⟩ := ih
    obtain ⟨⟨name, type, home⟩, hv, rfl⟩ := named_of_storage hx.1
    cases home with
    | argument | plain => cases hx.2
    | boxed slot =>
      refine ⟨slot :: slots, .cons ⟨_, hv, rfl⟩ hslots, ?_⟩
      rw [List.flatMap_cons, List.map_cons, hcode]
      rfl

/-! ### Bindings with distinct names -/

def Distinct (xs : List Symbol) : Prop := xs.Pairwise fun x y => (x == y) = false

theorem Distinct.head (h : Distinct (x :: xs)) : xs.contains x = false := by
  rw [List.contains_eq_any_beq, List.any_eq_false]
  intro y hy
  rw [(List.pairwise_cons.mp h).1 y hy]
  exact Bool.false_ne_true

namespace Expr

inductive Contains : Expr → Expr → Prop
  | self (e : Expr) : Contains e e
  | child {e c e'} : c ∈ e.children → Contains c e' → Contains e e'

/-- No let in the expression binds a name twice. -/
def BindsOnce (e : Expr) : Prop := ∀ bs body, e.Contains (.letIn bs body) → Distinct (bs.map (·.1))

theorem BindsOnce.child {e c : Expr} (h : e.BindsOnce) (hc : c ∈ e.children) : c.BindsOnce :=
  fun bs body hlet => h bs body (.child hc hlet)

end Expr

/-- The expression has a type in the scope. -/
def TypeEnv.Types (env : TypeEnv) (e : Expr) : Prop := ∃ type, Typed env (.expr e type)

namespace Typed

variable {env : TypeEnv}

theorem of_seq : ∀ {last type : TypeRef}, Typed env (.seq es last type) → ∀ e ∈ es, env.Types e := by
  induction es with
  | nil => exact fun _ => by simp
  | cons e es ih =>
    intro last type h
    cases h with
    | seqCons he hes => exact List.forall_mem_cons.mpr ⟨⟨_, he⟩, ih hes⟩

theorem of_bools (h : Typed env (.bools es)) : ∀ e ∈ es, env.Types e := by
  induction es with
  | nil => simp
  | cons e es ih =>
    cases h with
    | boolsCons he hes => exact List.forall_mem_cons.mpr ⟨⟨_, he⟩, ih hes⟩

theorem of_cases {cs : List (CaseValues × Expr)} {type : TypeRef} (h : Typed env (.cases cs type)) :
    ∀ e ∈ cs.map (·.2), env.Types e := by
  induction cs with
  | nil => simp
  | cons c cs ih =>
    cases h with
    | casesCons he hcs => exact List.forall_mem_cons.mpr ⟨⟨_, he⟩, ih hcs⟩

theorem of_args : ∀ {params : List TypeRef}, Typed env (.args es params) → ∀ e ∈ es, env.Types e := by
  induction es with
  | nil => exact fun _ => by simp
  | cons e es ih =>
    intro params h
    cases h with
    | argsCons he _ hes => exact List.forall_mem_cons.mpr ⟨⟨_, he⟩, ih hes⟩

/-- Bound values are typed, and no name comes up twice. -/
theorem of_bindings {bs : List (Symbol × Expr)} : ∀ {seen : List Symbol} {inner result : TypeEnv},
    Typed env (.bindings seen bs inner result) → (∀ e ∈ bs.map (·.2), env.Types e) ∧ Distinct (bs.map (·.1)) ∧
      ∀ x ∈ bs.map (·.1), seen.contains x = false := by
  induction bs with
  | nil => exact fun _ => ⟨by simp, .nil, by simp⟩
  | cons b bs ih =>
    intro seen inner result h
    cases h with
    | @bindingsCons _ _ x e _ type _ _ hseen he _ hbs =>
      obtain ⟨htyped, hdistinct, hlater⟩ := ih hbs
      refine ⟨List.forall_mem_cons.mpr ⟨⟨_, he⟩, htyped⟩, List.pairwise_cons.mpr ⟨fun y hy => ?_, hdistinct⟩,
        List.forall_mem_cons.mpr ⟨hseen, fun y hy => ?_⟩⟩
      · have hy := hlater y hy
        rw [List.contains_cons, Bool.or_eq_false_iff] at hy
        rw [BEq.comm]
        exact hy.1
      · have hy := hlater y hy
        rw [List.contains_cons, Bool.or_eq_false_iff] at hy
        exact hy.2

/-- The parts of a typed expression are typed in the same scope. -/
theorem part {e c : Expr} {type : TypeRef} (h : Typed env (.expr e type)) (hc : c ∈ e.parts) : env.Types c := by
  cases h with
  | literal | var | getStatic | lambda => cases hc
  | seq hes => exact hes.of_seq c hc
  | and hes | or hes => exact hes.of_bools c hc
  | switch hvalue _ hfallback hcases =>
    simp only [Expr.parts, Expr.children, List.cons_append, List.mem_cons, List.mem_append, List.not_mem_nil,
      or_false] at hc
    rcases hc with rfl | hc | rfl
    exacts [⟨_, hvalue⟩, hcases.of_cases c hc, ⟨_, hfallback⟩]
  | letIn hbs _ => exact hbs.of_bindings.1 c hc
  | invoke hf hargs =>
    rcases List.mem_cons.mp hc with rfl | hc
    exacts [⟨_, hf⟩, hargs.of_args c hc]
  | call _ _ ht _ hargs =>
    rcases List.mem_cons.mp hc with rfl | hc
    exacts [⟨_, ht⟩, hargs.of_args c hc]
  | new _ _ hargs | callStatic _ _ hargs => exact hargs.of_args c hc
  | _ =>
    simp only [Expr.parts, Expr.children, List.mem_cons, List.not_mem_nil, or_false] at hc
    rcases hc with rfl | rfl | rfl <;> exact ⟨_, by assumption⟩

end Typed

/-- The expression has a type in some scope. -/
def Expr.IsTyped (e : Expr) : Prop := ∃ env : TypeEnv, env.Types e

namespace Expr.IsTyped

variable {e c : Expr}

/-- The children of a typed expression are typed. -/
theorem child (h : e.IsTyped) (hc : c ∈ e.children) : c.IsTyped := by
  obtain ⟨env, type, h⟩ := h
  cases e with
  | letIn bs body =>
    cases h with
    | letIn hbs hbody =>
      rcases List.mem_append.mp hc with hc | hc
      · exact ⟨_, hbs.of_bindings.1 c hc⟩
      · cases List.mem_singleton.mp hc
        exact ⟨_, _, hbody⟩
  | lambda x ps body =>
    cases h with
    | lambda hbody =>
      cases List.mem_singleton.mp hc
      exact ⟨_, _, hbody⟩
  | _ => exact ⟨_, h.part hc⟩

theorem bindsOnce (h : e.IsTyped) : e.BindsOnce := by
  intro bs body hlet
  generalize hwhole : Expr.letIn bs body = whole at hlet
  induction hlet with
  | self e =>
    subst hwhole
    obtain ⟨env, type, h⟩ := h
    cases h with
    | letIn hbs _ => exact hbs.of_bindings.2.1
  | child hc _ ih => exact ih (h.child hc) hwhole

end Expr.IsTyped

/-! ### Derivations -/

theorem Touches.single {e : Expr} (ht : Touches h vars (.expr e) locals code) :
    Touches h vars (.all [e]) locals code := by
  simpa using Touches.cons ht .nil

theorem Touches.append {more : List Expr} {code' : List Instr} (hes : Touches h vars (.all es) locals code)
    (hmore : Touches h vars (.all more) locals' code') :
    Touches h vars (.all (es ++ more)) (locals ++ locals') (code ++ code') := by
  induction es generalizing locals code with
  | nil =>
    cases hes
    exact hmore
  | cons e es ih =>
    cases hes with
    | cons he hes => simpa using Touches.cons he (ih hes)

@[simp] theorem Block.locals_append (a b : Block) : (a ++ b).locals = a.locals ++ b.locals := rfl

@[simp] theorem Block.code_append (a b : Block) : (a ++ b).code = a.code ++ b.code := rfl

@[simp] theorem Block.locals_ofCode (code : List Instr) : (Block.ofCode code).locals = [] := rfl

@[simp] theorem Block.code_ofCode (code : List Instr) : (Block.ofCode code).code = code := rfl

section

variable {options : BuildOptions} {h : Hierarchy} {vars : Variables} {b : Block} {s t : Supply}

/-- Blocks for the expression touch variables as the rules say. -/
def Expr.IsTouched (options : BuildOptions) (h : Hierarchy) (vars : Variables) (e : Expr) : Prop :=
  ∀ b, IsLowered options (vars.scope h) e b → Touches h vars (.expr e) b.locals (variableCode b.code)

theorem Joined.touches (hj : Joined (IsLowered options (vars.scope h)) es b)
    (hes : ∀ e ∈ es, e.IsTouched options h vars) :
    Touches h vars (.all es) b.locals (variableCode b.code) := by
  induction hj with
  | nil hcode => simpa [variableCode_of_isGlueCode hcode] using Touches.nil
  | part hb _ ih =>
    obtain ⟨he, hes⟩ := List.forall_mem_cons.mp hes
    simpa using Touches.cons (he _ hb) (ih hes)
  | glue hcode _ ih => simpa [variableCode_of_isGlueCode hcode] using ih hes

theorem Lowers.touches_bindings {body : Expr} : ∀ {bs : List (Symbol × Expr)} (innerVars : Variables) {result : Scope}
    {s t : Supply} {b : Block}, Lowers options (.bindings body.usages bs (innerVars.scope h) result)
    (vars.scope h) s b t →
    Distinct (bs.map (·.1)) → (∀ e ∈ bs.map (·.2), e.IsTouched options h vars) → ∃ resultVars : Variables,
      result = resultVars.scope h ∧ Touches h vars (.bindings bs body innerVars resultVars) b.locals
        (variableCode b.code)
  | [], innerVars, _, _, _, _, hl, _, _ => by
    cases hl
    exact ⟨innerVars, rfl, .bindingsNil⟩
  | (x, value) :: bs, innerVars, result, s, t, _, hl, hdistinct, hes => by
    obtain ⟨he, hes⟩ := List.forall_mem_cons.mp hes
    cases hl with
    | @bindingsCons _ _ _ _ _ _ _ _ type v s₁ b _ boxed htype hboxed hv hbs =>
      have hvalue := he v ⟨_, _, _, hv⟩
      have hcaptured : boxed ↔ (⟨x, bs.map (·.1), [body]⟩ : Binder).IsCaptured := by
        simp [hboxed, Binder.IsCaptured, Expr.isCaptured_iff_occurs, hdistinct.head]
      cases boxed with
      | true =>
        obtain ⟨resultVars, hresult, hrest⟩ :=
          touches_bindings (⟨x, type, .boxed (s.slot x)⟩ :: innerVars) hbs hdistinct.of_cons hes
        refine ⟨resultVars, hresult, ?_⟩
        simpa [Instr.touchesVariable] using Touches.bindingsCell htype (hcaptured.mp rfl) hvalue hrest
      | false =>
        obtain ⟨resultVars, hresult, hrest⟩ :=
          touches_bindings (⟨x, type, .plain (s.slot x)⟩ :: innerVars) hbs hdistinct.of_cons hes
        refine ⟨resultVars, hresult, ?_⟩
        simpa [Instr.touchesVariable] using Touches.bindingsPlain htype (fun hc => by cases hcaptured.mpr hc)
          hvalue hrest

/-- Lowered code touches variables as the rules say. -/
theorem Expr.BindsOnce.isTouched {e : Expr} (honce : e.BindsOnce) (vars : Variables) : e.IsTouched options h vars := by
  have hchild {c : Expr} (hc : c ∈ e.children) {vars : Variables} : c.IsTouched options h vars := by
    have hsize := sizeOf_child hc
    exact (honce.child hc).isTouched vars
  rintro b ⟨tail, s, t, hl⟩
  cases hkind : e.isTransparent with
  | true => exact .other hkind ((hl.parts hkind).touches fun c hc => hchild (compiled_subset_children hc))
  | false =>
    cases hl with
    | @var x _ _ _ _ hx =>
      obtain ⟨v, hv, rfl⟩ := Variables.named_of_storage hx
      have hvar : Touches h vars (.expr (.var x)) [] v.load := .var hv
      simpa [v.fetch_storage, v.variableCode_load] using hvar
    | @assign x value _ _ _ _ v _ hx hv =>
      obtain ⟨var, hvar, rfl⟩ := Variables.named_of_storage hx
      have hvalue := hchild List.mem_cons_self v ⟨_, _, _, hv⟩
      simpa [var.store_storage, var.variableCode_store] using Touches.assign hvar hvalue
    | @letIn bs body _ _ _ _ vb _ b _ hbs hbody =>
      obtain ⟨innerVars, rfl, hvalues⟩ := hbs.touches_bindings vars (honce bs body (.self _)) fun c hc =>
        hchild (List.mem_append_left _ hc)
      simpa using Touches.letIn hvalues (hchild (by simp [children]) b ⟨_, _, _, hbody⟩)
    | @lambda x ps body _ _ _ _ _ _ _ hcells =>
      obtain ⟨storages, hstorages, rfl, -⟩ := forall₂_of_captureCells hcells
      obtain ⟨slots, hslots, hcode⟩ := Variables.slots_of_storages hstorages
      have hloads : variableCode (slots.map .loadLocal) = slots.map .loadLocal :=
        List.filter_eq_self.mpr fun i hi => by
          obtain ⟨slot, -, rfl⟩ := List.mem_map.mp hi
          rfl
      have hlambda : Touches h vars (.expr (.lambda x ps body)) [] (slots.map .loadLocal) := .lambda hslots
      simpa [hcode, hloads, Instr.touchesVariable] using hlambda
    | _ => cases hkind
termination_by sizeOf e

end

/-! ## Bodies -/

/-- `Received scope index params vars result locals code`: parameters from the given number on, visible in some
    expressions, lead from the variables `vars` to `result`. Captured ones are copied into cells. -/
inductive Received (scope : List Expr) : Nat → List Param → Variables → Variables → List LocalDecl → List Instr → Prop
  | nil {index vars} : Received scope index [] vars vars [] []
  | cell {index p params vars result slot locals code} : index < 65536 →
      (⟨p.name, params.map (·.name), scope⟩ : Binder).IsCaptured →
      Received scope (index + 1) params (⟨p.name, p.type, .boxed slot⟩ :: vars) result locals code →
      Received scope index (p :: params) vars result (⟨slot, .cell p.type⟩ :: locals)
        ([.loadArg (.ofNat index), .typeOp .newCell p.type, .storeLocal slot] ++ code)
  | plain {index p params vars result locals code} : index < 65536 →
      ¬ (⟨p.name, params.map (·.name), scope⟩ : Binder).IsCaptured →
      Received scope (index + 1) params (⟨p.name, p.type, .argument (.ofNat index)⟩ :: vars) result locals code →
      Received scope index (p :: params) vars result locals code

theorem Received.countP_makesCell {scope : List Expr} {index : Nat} {params : List Param} {result : Variables}
    (hr : Received scope index params vars result locals code) :
    code.countP Instr.makesCell = capturedCount (Binder.all scope (params.map (·.name))) := by
  induction hr with
  | nil => rfl
  | cell _ hcaptured _ ih =>
    rw [List.countP_append, ih, List.map_cons, Binder.all, capturedCount_cons, if_pos hcaptured, Nat.add_comm]
    rfl
  | plain _ hcaptured _ ih => rw [ih, List.map_cons, Binder.all, capturedCount_cons, if_neg hcaptured, Nat.add_zero]

theorem Enters.received {usages : Usages} {index : Nat} {params : List Param} {outer inner : Scope}
    {s t : Supply} {b : Block} (he : Enters usages index params outer s b inner t) (h : Hierarchy) {scope : List Expr}
    (husages : ∀ x, usages.isCaptured x ↔ ∃ e ∈ scope, e.Occurs x true) : ∀ vars : Variables, outer = vars.scope h →
      Distinct (params.map (·.name)) → ∃ result : Variables, inner = result.scope h ∧
        Received scope index params vars result b.locals b.code ∧ variableCode b.code = b.code := by
  induction he with
  | nil => exact fun _ hvars _ => ⟨_, hvars, .nil, rfl⟩
  | @cell index p params outer inner s b t hindex hcaptured _ ih =>
    intro vars hvars hdistinct
    subst hvars
    obtain ⟨result, hresult, hreceived, hcode⟩ := ih (⟨p.name, p.type, .boxed (s.slot p.name)⟩ :: vars) rfl
      hdistinct.of_cons
    refine ⟨result, hresult, .cell hindex ⟨hdistinct.head, (husages p.name).mp hcaptured⟩ hreceived, ?_⟩
    simp [Instr.touchesVariable, hcode]
  | @plain index p params outer inner s b t hindex hcaptured _ ih =>
    intro vars hvars hdistinct
    subst hvars
    obtain ⟨result, hresult, hreceived, hcode⟩ := ih (⟨p.name, p.type, .argument (.ofNat index)⟩ :: vars) rfl
      hdistinct.of_cons
    refine ⟨result, hresult, .plain hindex (fun hc => ?_) hreceived, hcode⟩
    rw [(husages p.name).mpr hc.2] at hcaptured
    cases hcaptured

/-- Every instruction that makes a cell touches a variable. -/
theorem countP_variableCode (code : List Instr) :
    (variableCode code).countP Instr.makesCell = code.countP Instr.makesCell := by
  rw [variableCode, List.countP_filter]
  refine List.countP_congr fun i _ => ?_
  cases i with
  | typeOp op type => cases op <;> rfl
  | _ => rfl

theorem distinct_of_times (h : ∀ x, Symbol.times xs x ≤ 1) : Distinct xs := by
  induction xs with
  | nil => exact .nil
  | cons x xs ih =>
    have hcons (z : Symbol) : Symbol.times (x :: xs) z = Symbol.times xs z + if x == z then 1 else 0 := List.countP_cons
    refine List.pairwise_cons.mpr ⟨fun y hy => ?_, ih fun z => ?_⟩
    · have hpos : 0 < Symbol.times xs y := List.countP_pos_iff.mpr ⟨y, hy, BEq.rfl⟩
      have hy := h y
      rw [hcons] at hy
      cases hxy : x == y with
      | false => rfl
      | true =>
        rw [hxy, if_pos rfl] at hy
        omega
    · have hz := h z
      rw [hcons] at hz
      omega

namespace Body

/-- What is compiled for a body: the arguments of the base constructor, if it has one, and the body. -/
def compiled (body : Body) (base : Option BaseCall) : List Expr := (base.map (·.args)).getD [] ++ [body.body]

/-- The binders of a body: its parameters and its let bindings. -/
def binders (body : Body) (base : Option BaseCall) : List Binder :=
  Binder.all (body.compiled base) (body.params.map (·.name)) ++ (body.compiled base).flatMap Expr.binders

/-- A constructor starts with its receiver. -/
def receiverCode (body : Body) (base : Option BaseCall) (vars : Variables) : List Instr :=
  if base.isSome then (((body.params.head?).bind fun p => vars.named p.name).map Variable.load).getD [] else []

/-- In a block, (1) one cell is made per captured binder and no other; (2) each local is declared once; (3) variables
    are touched as their binders say: captured ones through their cells, other parameters as plain arguments, and
    other let variables as plain locals of their own types. -/
structure Boxed (h : Hierarchy) (body : Body) (base : Option BaseCall) (b : Block) : Prop where
  cells : b.code.countP Instr.makesCell = capturedCount (body.binders base)
  locals : Distinct b.localNames
  touches : ∃ (vars : Variables) (locals locals' : List LocalDecl) (start code : List Instr),
    Received (body.compiled base) 0 body.params [] vars locals start ∧
    Touches h vars (.all (body.compiled base)) locals' code ∧
    b.locals = locals ++ locals' ∧ variableCode b.code = start ++ body.receiverCode base vars ++ code

theorem typed_of_checkBaseArgs {h : Hierarchy} {env : TypeEnv} (henv : env.hierarchy = h) :
    ∀ {params : List TypeRef} {args : List Expr},
    params.length = args.length → checkBaseArgs h env params args = .ok () → Typed env (.args args params)
  | [], [], _, _ => .argsNil
  | param :: params, arg :: args, hlength, hcheck => by
    rw [checkBaseArgs] at hcheck
    obtain ⟨type, htype, hcheck⟩ := except_bind_ok.mp hcheck
    split at hcheck
    · rename_i hassign
      exact .argsCons (.of_typeOf _ htype) (henv ▸ hassign) (typed_of_checkBaseArgs henv (Nat.succ.inj hlength) hcheck)
    · cases hcheck

variable {body : Body} {h : Hierarchy} {options : BuildOptions} {s t : Supply} {b : Block}

/-- A body without captures is entered through its parameters. -/
theorem received_of_enter {usages : Usages} {start : Block} {scope : Scope} (hcaptures : body.captures = [])
    (hdistinct : Distinct (body.params.map (·.name))) (base : Option BaseCall)
    (husages : ∀ x, usages.isCaptured x ↔ ∃ e ∈ body.compiled base, e.Occurs x true)
    (henter : (body.enter h usages).exec s = (.ok (start, scope), t)) : ∃ vars : Variables, scope = vars.scope h ∧
      Received (body.compiled base) 0 body.params [] vars start.locals start.code ∧
        variableCode start.code = start.code := by
  obtain ⟨outer, henters, hscope⟩ := of_enter henter
  have hscope : scope = outer := by
    rcases hscope with ⟨-, hscope⟩ | ⟨_, _, _, _, _, hfields⟩
    · exact hscope
    · rw [hcaptures] at hfields
      cases hfields
      rfl
  rw [hscope]
  exact henters.received h husages [] rfl hdistinct

/-- The cells are those of the binders when variables are touched as the binders say. -/
theorem boxed_of_touches {base : Option BaseCall} {start : List Instr} (hmade : Made s [] [] b t)
    (hreceived : Received (body.compiled base) 0 body.params [] vars locals start)
    (htouches : Touches h vars (.all (body.compiled base)) locals' code) (hlocals : b.locals = locals ++ locals')
    (hcode : variableCode b.code = start ++ body.receiverCode base vars ++ code) : Boxed h body base b where
  cells := by
    have hreceiver : (body.receiverCode base vars).countP Instr.makesCell = 0 := by
      unfold receiverCode
      split
      · cases body.params.head?.bind fun p => vars.named p.name with
        | none => rfl
        | some v => exact v.countP_load
      · rfl
    rw [← countP_variableCode, hcode, List.countP_append, List.countP_append, hreceived.countP_makesCell,
      htouches.countP_makesCell, hreceiver, binders, capturedCount_append]
    rfl
  locals := distinct_of_times hmade.locals_once
  touches := ⟨vars, locals, locals', start, code, hreceived, htouches, hlocals, hcode⟩

theorem compileMethod_boxed (hcaptures : body.captures = []) (hdistinct : Distinct (body.params.map (·.name)))
    {returnType : TypeRef} (hc : (body.compileMethod h options returnType).exec s = (.ok b, t)) :
    Boxed h body none b := by
  have hmade := compileMethod_made hc
  obtain ⟨start, scope, s₁, type, code, henter, htype, hcode⟩ := of_compileMethod hc
  obtain ⟨vars, hvars, hreceived, hstart⟩ := received_of_enter hcaptures hdistinct none
    (by simp [compiled, Expr.isCaptured_iff_occurs]) henter
  have honce : body.body.BindsOnce := Expr.IsTyped.bindsOnce ⟨_, _, .of_typeOf _ htype⟩
  have hbody {tail : Bool} (hl : Lowers options (.expr body.body tail) scope s₁ code t) :
      Touches h vars (.all (body.compiled none)) code.locals (variableCode code.code) :=
    .single (honce.isTouched vars _ ⟨_, _, _, hvars ▸ hl⟩)
  rcases hcode with ⟨-, -, hl, rfl⟩ | ⟨-, -, hl, rfl⟩
  · refine boxed_of_touches hmade hreceived (hbody hl) (by simp) ?_
    simp [hstart, receiverCode, Instr.touchesVariable]
  · refine boxed_of_touches hmade hreceived (hbody hl) (by simp) ?_
    simp [hstart, receiverCode]

theorem compileConstructor_boxed (hcaptures : body.captures = []) (hdistinct : Distinct (body.params.map (·.name)))
    {base : BaseCall} (hc : (body.compileConstructor h options base).exec s = (.ok b, t)) :
    Boxed h body (some base) b := by
  have hmade := compileConstructor_made hc
  obtain ⟨this, params, start, scope, s₁, type, storage, args, s₂, code, hparams, henter, -, hlength, hcheck, htype,
    hthis, hargs, hcode, rfl⟩ := of_compileConstructor hc
  obtain ⟨vars, hvars, hreceived, hstart⟩ := received_of_enter hcaptures hdistinct (some base)
    (by simp [compiled, Usages.isCaptured_foldl_union, Expr.isCaptured_iff_occurs, or_comm, or_and_right, exists_or])
      henter
  have honce : body.body.BindsOnce := Expr.IsTyped.bindsOnce ⟨_, _, .of_typeOf _ htype⟩
  have htyped := typed_of_checkBaseArgs (hvars ▸ rfl) hlength hcheck
  subst hvars
  have hargs := Joined.touches hargs.parts fun e he => (Expr.IsTyped.bindsOnce ⟨_, htyped.of_args e he⟩).isTouched vars
  have hbody := honce.isTouched vars _ ⟨_, _, _, hcode⟩
  obtain ⟨v, hv, rfl⟩ := Variables.named_of_storage hthis
  refine boxed_of_touches hmade hreceived (hargs.append hbody.single) (by simp) ?_
  have hend : variableCode (if type.isVoid then [.op .ret] else [.op .pop, .op .ret]) = [] := by
    cases type.isVoid <;> rfl
  simp [hstart, receiverCode, hparams, hv, v.fetch_storage, v.variableCode_load, Instr.touchesVariable, hend]

/-- Boxing is exact: a body with distinct parameters and no captures of its own, of a method or a constructor, makes
    one cell per parameter or let binding that a lambda refers to, and keeps all other variables plain. -/
theorem boxing_is_exact (hcaptures : body.captures = []) (hdistinct : Distinct (body.params.map (·.name)))
    (h : Hierarchy) (options : BuildOptions) :
    (∀ returnType s b t, (body.compileMethod h options returnType).exec s = (.ok b, t) → Boxed h body none b) ∧
    ∀ base s b t, (body.compileConstructor h options base).exec s = (.ok b, t) → Boxed h body (some base) b :=
  ⟨fun _ _ _ _ => compileMethod_boxed hcaptures hdistinct, fun _ _ _ _ => compileConstructor_boxed hcaptures hdistinct⟩

/-- A lambda uses the parameter `x` and the variable `sum`; the parameter `y` and the variable `spare` are not
    captured. -/
def offset : Body where
  params := [⟨.named "x", .i32⟩, ⟨.named "y", .i32⟩]
  body := .letIn [(.named "sum", .binary .add (.var (.named "x")) (.var (.named "y"))),
    (.named "spare", .var (.named "y"))] <|
    .lambda (.generated 0 none) [] (.binary .add (.var (.named "x")) (.var (.named "sum")))

theorem offset_boxed : ∃ b t,
    (offset.compileMethod { table := ∅, catalog := ∅ } {} (.delegate [] .i32)).exec { next := 1 } = (.ok b, t) ∧
    b.code.countP Instr.makesCell = 2 ∧ Boxed { table := ∅, catalog := ∅ } offset none b := by
  have hcount : ((offset.compileMethod { table := ∅, catalog := ∅ } {} (.delegate [] .i32)).exec
    { next := 1 }).1.toOption.map
      (·.code.countP Instr.makesCell) = some 2 := by decide +kernel
  rcases hc : (offset.compileMethod { table := ∅, catalog := ∅ } {} (.delegate [] .i32)).exec
    { next := 1 } with ⟨answer, t⟩
  rw [hc] at hcount
  cases answer with
  | error e => cases hcount
  | ok b =>
    have hdistinct : Distinct (offset.params.map (·.name)) := by
      unfold Distinct
      decide +kernel
    exact ⟨b, t, rfl, Option.some.inj hcount, (boxing_is_exact rfl hdistinct _ _).1 _ _ _ _ hc⟩

end Body

end Stackwright
