import Stackwright.Proofs.ClosureAgreement
import Stackwright.Proofs.Parts

/-
  Stackwright.Proofs.Delegates — every delegate in compiled code belongs to a lambda.

  Lowering emits a delegate for a lambda only, right after the closure and its cells, and every
  lambda that is lowered gets the closure that was declared for it.
-/

namespace Stackwright

variable {e : Expr}

/-! ## Code without delegates -/

def Instr.makesDelegate : Instr → Bool
  | .newDelegate _ _ => true
  | _ => false

/-- No delegate is made. -/
def makesNone (code : List Instr) : Bool := code.all fun i => !i.makesDelegate

@[simp] theorem makesNone_nil : makesNone [] = true := rfl

@[simp] theorem makesNone_cons (i : Instr) (code : List Instr) :
    makesNone (i :: code) = (!i.makesDelegate && makesNone code) :=
  rfl

@[simp] theorem makesNone_append (a b : List Instr) : makesNone (a ++ b) = (makesNone a && makesNone b) :=
    List.all_append

theorem makesNone_of_isQuietCode {code : List Instr} (h : isQuietCode code) : makesNone code := by
  have hi : ∀ i : Instr, i.isQuiet = true → (!i.makesDelegate) = true := by
    intro i hi
    cases i <;> first | rfl | cases hi
  exact List.all_eq_true.mpr fun i hmem => hi i (List.all_eq_true.mp h i hmem)

/-! ## Code whose delegates belong to lambdas -/

/-- The code before a delegate ends with the cells and the closure of the lambda `l`, which stands at `place`, and
    the delegate is that of the lambda. -/
inductive Lambda.Makes (l : Lambda) (place : Scope) : List Instr → TypeRef → MethodRef → Prop
  | intro {earlier cells types delegate} : l.expr.typeOf place.types = .ok delegate →
      captureCells place l.expr l.expr.usages.keys = .ok (cells, types) →
      Makes l place (earlier ++ (cells ++ [.newObject (.deferred ((closureKey l.closure).constructor types))])) delegate
        (.deferred ((closureKey l.closure).method invokeName (l.params.map (·.type)) true))

theorem Lambda.Makes.after {l : Lambda} {place : Scope} {before : List Instr} {delegate : TypeRef} {method : MethodRef}
    (h : l.Makes place before delegate method) (earlier : List Instr) :
    l.Makes place (earlier ++ before) delegate method := by
  cases h with
  | intro htype hcells =>
    rw [← List.append_assoc]
    exact .intro htype hcells

/-- Every delegate in the code belongs to a lambda of the given kind. -/
def DelegatesOf (P : Lambda → Scope → Prop) (code : List Instr) : Prop :=
  ∀ before delegate method after, code = before ++ .newDelegate delegate method :: after →
    ∃ l place, P l place ∧ l.Makes place before delegate method

namespace DelegatesOf

variable {P Q : Lambda → Scope → Prop} {a b code : List Instr}

theorem mono (h : DelegatesOf P code) (hPQ : ∀ l place, P l place → Q l place) : DelegatesOf Q code := by
  intro before delegate method after hcode
  obtain ⟨l, place, hl, hmakes⟩ := h before delegate method after hcode
  exact ⟨l, place, hPQ l place hl, hmakes⟩

theorem none (h : makesNone code) : DelegatesOf P code := by
  intro before delegate method after hcode
  rw [hcode] at h
  simp [Instr.makesDelegate] at h

theorem append (ha : DelegatesOf P a) (hb : DelegatesOf P b) : DelegatesOf P (a ++ b) := by
  intro before delegate method after hcode
  rcases List.append_eq_append_iff.mp hcode with ⟨middle, rfl, hb'⟩ | ⟨middle, rfl, hafter⟩
  · obtain ⟨l, place, hl, hmakes⟩ := hb _ _ _ _ hb'
    exact ⟨l, place, hl, hmakes.after a⟩
  · cases middle with
    | nil =>
      obtain ⟨l, place, hl, hmakes⟩ := hb [] _ _ _ hafter.symm
      exact ⟨l, place, hl, by simpa using hmakes.after before⟩
    | cons i middle =>
      cases hafter
      exact ha _ _ _ _ rfl

end DelegatesOf

/-! ## Lowered code -/

/-- The expressions in a piece of work. -/
def Work.exprs : Work → List Expr
  | .expr e _ => [e]
  | .all es | .seq es _ | .shortCircuit _ es _ | .operands _ _ es _ => es
  | .cases cs _ _ _ => cs.map (·.2)
  | .bindings _ bs _ _ => bs.map (·.2)

/-- The lambdas lowered with some expressions. -/
def AreLowered (options : BuildOptions) (es : List Expr) (scope : Scope) (l : Lambda) (place : Scope) : Prop :=
  ∃ e ∈ es, e.Lowered options scope l place

section

variable {options : BuildOptions} {scope : Scope} {code : List Instr} {es : List Expr}

/-- The code of a lambda makes one delegate, that of the lambda. -/
theorem DelegatesOf.self {l : Lambda} {delegate : TypeRef} {cells : List Instr} {types : List TypeRef}
    (htype : l.expr.typeOf scope.types = .ok delegate)
    (hcells : captureCells scope l.expr l.expr.usages.keys = .ok (cells, types)) :
    DelegatesOf (l.expr.Lowered options scope) (cells ++
      [.newObject (.deferred ((closureKey l.closure).constructor types)),
       .newDelegate delegate (.deferred ((closureKey l.closure).method invokeName (l.params.map (·.type)) true))]) := by
  have hnone : makesNone (cells ++ [.newObject (.deferred ((closureKey l.closure).constructor types))]) := by
    obtain ⟨storages, -, rfl, -⟩ := forall₂_of_captureCells hcells
    rw [makesNone_append, makesNone_of_isQuietCode (Storage.isQuietCode_cells storages)]
    rfl
  intro before delegate' method after hcode
  refine ⟨l, scope, .self l scope, ?_⟩
  rw [← List.singleton_append, ← List.append_assoc] at hcode
  rcases List.append_eq_append_iff.mp hcode with ⟨middle, rfl, hlast⟩ | ⟨middle, hbefore, hafter⟩
  · -- the only delegate is the last instruction
    cases middle with
    | nil =>
      cases hlast
      rw [List.append_nil]
      exact @Lambda.Makes.intro l scope [] cells types delegate htype hcells
    | cons i middle => cases middle <;> cases hlast
  · rw [hbefore] at hnone
    cases middle with
    | nil =>
      cases hafter
      rw [List.append_nil] at hbefore
      rw [← hbefore]
      exact @Lambda.Makes.intro l scope [] cells types delegate htype hcells
    | cons i middle =>
      cases hafter
      simp [Instr.makesDelegate] at hnone

/-- What is lowered together makes the delegates of what each expression is lowered with. -/
theorem Joined.delegates {b : Block} (h : Joined (IsLowered options scope) es b)
    (hes : ∀ e ∈ es, ∀ b, IsLowered options scope e b → DelegatesOf (e.Lowered options scope) b.code) :
    DelegatesOf (AreLowered options es scope) b.code := by
  have hglue {code : List Instr} (hcode : isGlueCode code) : makesNone code := by
    refine List.all_eq_true.mpr fun i hi => ?_
    have hi := List.all_eq_true.mp hcode i hi
    cases i <;> first | rfl | cases hi
  induction h with
  | nil hcode => exact .none (hglue hcode)
  | part h _ ih =>
    obtain ⟨he, hes⟩ := List.forall_mem_cons.mp hes
    exact ((he _ h).mono fun _ _ hl => ⟨_, List.mem_cons_self, hl⟩).append
      ((ih hes).mono fun _ _ ⟨e, he, hl⟩ => ⟨e, List.mem_cons_of_mem _ he, hl⟩)
  | glue hcode _ ih => exact (DelegatesOf.none (hglue hcode)).append (ih hes)

theorem Lowers.delegates_bindings {usages : Usages} : ∀ {bs : List (Symbol × Expr)} {inner result : Scope}
    {s t : Supply} {b : Block}, Lowers options (.bindings usages bs inner result) scope s b t →
    (∀ e ∈ bs.map (·.2), ∀ b, IsLowered options scope e b → DelegatesOf (e.Lowered options scope) b.code) →
    DelegatesOf (AreLowered options (bs.map (·.2)) scope) b.code
  | [], _, _, _, _, _, h, _ => by
    cases h
    exact .none rfl
  | (x, value) :: bs, _, _, _, _, _, h, hes => by
    obtain ⟨he, hes⟩ := List.forall_mem_cons.mp hes
    cases h with
    | bindingsCons _ _ hv hbs =>
      refine (DelegatesOf.append ((he _ ⟨_, _, _, hv⟩).mono fun _ _ hl => ⟨value, List.mem_cons_self, hl⟩)
        (.none ?_)).append
        ((delegates_bindings hbs hes).mono fun _ _ ⟨e, he, hl⟩ => ⟨e, List.mem_cons_of_mem _ he, hl⟩)
      rw [Block.ofCode_code]
      split <;> rfl

end

variable {options : BuildOptions}

/-- The delegates in lowered code belong to the lambdas that are lowered with it. -/
theorem Lowers.delegates (e : Expr) {tail : Bool} {scope : Scope} {s t : Supply} {b : Block}
    (h : Lowers options (.expr e tail) scope s b t) : DelegatesOf (e.Lowered options scope) b.code := by
  have hchild {c : Expr} (hc : c ∈ e.children) {scope : Scope} (b : Block) :
      IsLowered options scope c b → DelegatesOf (c.Lowered options scope) b.code := by
    rintro ⟨tail, s, t, h⟩
    have hsize := Expr.sizeOf_child hc
    exact delegates c h
  have hret {P : Lambda → Scope → Prop} (tail : Bool) : DelegatesOf P (retIf tail) :=
    .none (makesNone_of_isQuietCode (isQuietCode_retIf tail))
  cases hkind : e.isTransparent with
  | true =>
    refine ((h.parts hkind).delegates fun c hc => hchild (Expr.compiled_subset_children hc)).mono fun _ _
      ⟨c, hc, hl⟩ => ?_
    exact .part (Expr.compiled_subset_parts hkind hc) hl
  | false =>
    cases h with
    | @var _ _ _ _ storage =>
      exact (DelegatesOf.none (makesNone_of_isQuietCode storage.isQuietCode_fetch)).append (hret tail)
    | @assign x value _ _ _ storage v _ _ hv =>
      have hvalue := (hchild List.mem_cons_self v ⟨_, _, _, hv⟩).mono fun _ _ hl =>
        Expr.Lowered.part (e := .assign x value) List.mem_cons_self hl
      have hafter : makesNone [storage.afterStore] = true := makesNone_of_isQuietCode
        (by simp [storage.isQuiet_afterStore])
      exact (((DelegatesOf.none (makesNone_of_isQuietCode storage.isQuietCode_beforeStore)).append hvalue).append
        (.none hafter)).append (hret tail)
    | @letIn bs body _ _ _ _ vb _ b' _ hbindings hbody =>
      refine .append ((hbindings.delegates_bindings fun c hc => ?_).mono fun _ _ ⟨c, hc, hl⟩ => .part hc hl) ?_
      · exact hchild (List.mem_append_left _ hc)
      · exact (hchild (by simp [Expr.children]) b' ⟨_, _, _, hbody⟩).mono fun _ _ => .letBody hbindings
    | @lambda x ps body _ _ _ _ _ _ htype hcells =>
      exact .append (DelegatesOf.self (l := ⟨x, ps, body⟩) htype hcells) (hret tail)
    | _ => cases hkind
termination_by sizeOf e

/-! ## Compiled members -/

/-- A block that a member is compiled to. -/
inductive TypeDefinition.Compiles (d : TypeDefinition) (h : Hierarchy) (options : BuildOptions) : Member → Block → Prop
  | method {m body s b t} : m.body = .expr body → (body.compileMethod h options m.returnType).exec s = (.ok b, t) →
      Compiles d h options (.method m) b
  | constructor {c body base s b t} : c.body = .expr body base →
      (body.compileConstructor h options (base.getD d.defaultBaseCall)).exec s = (.ok b, t) →
      Compiles d h options (.constructor c) b

/-- The lambdas lowered with a member. -/
def Member.Lowered (h : Hierarchy) (options : BuildOptions) (member : Member) (l : Lambda) (place : Scope) : Prop :=
  ∃ e scope, member.Entered h e scope ∧ e.Lowered options scope l place

/-- The delegates in a compiled member belong to the lambdas that are lowered with it. -/
theorem TypeDefinition.Compiles.delegates {d : TypeDefinition} {h : Hierarchy} {options : BuildOptions}
    {member : Member}
    {b : Block} (hc : d.Compiles h options member b) : DelegatesOf (member.Lowered h options) b.code := by
  cases hc with
  | @method m body s b t hbody hc =>
    obtain ⟨start, scope, s₁, type, code, henter, -, hcode⟩ := Body.of_compileMethod hc
    obtain ⟨outer, hparams, -⟩ := Body.of_enter henter
    have hbody {tail : Bool} (hl : Lowers options (.expr body.body tail) scope s₁ code t) :
        DelegatesOf (Member.Lowered h options (.method m)) code.code := by
      exact hl.delegates.mono fun l place hl => ⟨_, scope, .method hbody henter, hl⟩
    rcases hcode with ⟨-, -, hl, rfl⟩ | ⟨-, -, hl, rfl⟩
    · exact ((DelegatesOf.none (makesNone_of_isQuietCode hparams.isQuietCode)).append (hbody hl)).append (.none rfl)
    · exact (DelegatesOf.none (makesNone_of_isQuietCode hparams.isQuietCode)).append (hbody hl)
  | @constructor c body base s b t hbody hc =>
    obtain ⟨this, params, start, scope, s₁, type, storage, args, s₂, code, -, henter, -, -, -, -, -, hargs,
        hcode, rfl⟩ :=
      Body.of_compileConstructor hc
    obtain ⟨outer, hparams, -⟩ := Body.of_enter henter
    have hbase : (base.getD d.defaultBaseCall).args = base.toList.flatMap (·.args) := by
      cases base with
      | none => rfl
      | some base => exact (List.append_nil _).symm
    have hpart {es : List Expr} (hes : es ⊆ base.toList.flatMap (·.args) ++ [body.body]) {code : List Instr}
        (hl : DelegatesOf (AreLowered options es scope) code) :
        DelegatesOf (Member.Lowered h options (.constructor c)) code :=
      hl.mono fun l place ⟨e, he, hl⟩ => ⟨e, scope, .constructor hbody henter (hes he), hl⟩
    have hend : Stackwright.makesNone (if type.isVoid then [.op .ret] else [.op .pop, .op .ret]) = true := by
      cases type.isVoid <;> rfl
    have hargs := hpart (by rw [← hbase]; exact List.subset_append_left _ _)
      (hargs.parts.delegates fun _ _ _ ⟨_, _, _, he⟩ => he.delegates)
    have hcode := hpart (List.subset_append_right _ _)
      (hcode.delegates.mono fun _ _ hl => ⟨_, List.mem_singleton_self body.body, hl⟩)
    exact (((((DelegatesOf.none (makesNone_of_isQuietCode hparams.isQuietCode)).append
      (.none (makesNone_of_isQuietCode storage.isQuietCode_fetch))).append hargs).append
      (.none rfl)).append hcode).append (.none hend)

/-! ## Declared modules -/

namespace Module

variable {m : Module} {catalog : Metadata} {declared : Declared}

/-- In a module that is declared, (1) every delegate in the code of a member belongs to a lambda that is lowered with
    it; (2) what is emitted for such a lambda makes a closure that is defined, with a constructor and a method that
    are declared, from the cells of its variables in the order of the fields; (3) two lambdas whose closures display
    the same have the same variables, parameters, result and body. -/
theorem closures_agree (hdeclare : m.declare catalog = .ok declared) (options : BuildOptions) :
    (∀ d ∈ declared.definitions, ∀ member ∈ d.members, ∀ b,
      d.Compiles { table := declared.table, catalog } options member b →
        DelegatesOf (member.Lowered { table := declared.table, catalog } options) b.code) ∧
    (∀ d ∈ declared.definitions, ∀ member ∈ d.members, ∀ l place,
      member.Lowered { table := declared.table, catalog } options l place → ∀ tail s b t,
        (l.expr.lower options place tail).exec s = (.ok b, t) → ∃ (layout closure : ClosureLayout) (cells : List Instr)
            (ctor : ConstructorRef) (delegate : TypeRef) (method : MethodRef),
          b.code = cells ++ [.newObject ctor, .newDelegate delegate method] ++ retIf tail ∧
          l.HasLayout place.types layout ∧ closure.Alike layout ∧
          closure.MadeBy declared place cells ctor delegate method) ∧
    ∀ table, declareAll ∅ m.types = .ok table → ∀ l₁ types₁ l₂ types₂,
      m.Holds { table, catalog } l₁ types₁ → m.Holds { table, catalog } l₂ types₂ → l₁.closure.text = l₂.closure.text →
        ∃ layout₁ layout₂, l₁.layout types₁ = .ok layout₁ ∧ l₂.layout types₂ = .ok layout₂ ∧ layout₁.Alike layout₂ := by
  obtain ⟨table, closures, hdeclares⟩ := of_declare hdeclare
  refine ⟨fun d _ member _ b hc => hc.delegates, fun d hd member hmember l place hl tail s b t hb => ?_,
    fun table' htable l₁ types₁ l₂ types₂ hl₁ hl₂ htext => ?_⟩
  · obtain ⟨e, scope, hentered, hl⟩ := hl
    obtain ⟨env, hcollected, hextends, hvars, hholds⟩ := hdeclares.collected_root hd hmember hentered
    obtain ⟨types, hheld, hplace, hextends, hvars⟩ := hl.held hentered.root.1 hcollected hextends hvars
    cases Lowers.of_lower _ hb with
    | lambda htype hcells =>
      obtain ⟨layout, closure, hhas, halike, hmade⟩ :=
        hdeclares.madeBy (hholds l types hheld) hplace hextends hvars htype hcells
      exact ⟨layout, closure, _, _, _, _, rfl, hhas, halike, hmade⟩
  · cases htable.symm.trans hdeclares.types
    obtain ⟨layout₁, closure₁, hlayout₁, halike₁, hclosure₁⟩ := hdeclares.closure_found hl₁
    obtain ⟨layout₂, closure₂, hlayout₂, halike₂, hclosure₂⟩ := hdeclares.closure_found hl₂
    have hkey : closure₁.key = closure₂.key := by
      rw [halike₁.key, halike₂.key, (Lambda.of_layout hlayout₁).key, (Lambda.of_layout hlayout₂).key,
        closureKey, closureKey, htext]
    have hsame := ClosureLayout.definition_injective (hdeclares.closure_unique hclosure₁ hclosure₂ hkey)
    rw [hsame] at halike₁
    exact ⟨layout₁, layout₂, hlayout₁, hlayout₂, halike₁.symm.trans halike₂⟩

/-- The method of `curriedAdd`. -/
def curriedAdd.method : MethodDefinition where
  name := "add"
  attributes := { isPublic := true, isStatic := true }
  returnType := .delegate [] (.delegate [.i32] .i32)
  body := .expr adder
where
  adder : Body := {
    params := [⟨.named "x", .i32⟩]
    body := .lambda (.generated 0 none) [] <| .lambda (.generated 1 none) [⟨.named "y", .i32⟩] <|
      .binary .add (.var (.named "x")) (.var (.named "y")) }

theorem curriedAdd_closures_agree : ∃ declared d b before delegate method after l place,
    curriedAdd.declare ∅ = .ok declared ∧ d ∈ declared.definitions ∧ ∃ member ∈ d.members,
      d.Compiles { table := declared.table, catalog := ∅ } {} member b ∧
      b.code = before ++ .newDelegate delegate method :: after ∧
      member.Lowered { table := declared.table, catalog := ∅ } {} l place ∧ l.Makes place before delegate method := by
  have hmakes : (curriedAdd.declare ∅ >>= fun declared =>
      ((curriedAdd.method.adder.compileMethod { table := declared.table, catalog := ∅ } {}
        curriedAdd.method.returnType).exec { next := 2 }).1.map fun b => b.code.any (·.makesDelegate)).toOption =
          some true := by
    decide +kernel
  have hok {x : Except BuildError Bool} (hx : x.toOption = some true) : x = .ok true := by
    cases x with
    | error e => cases hx
    | ok a => exact congrArg Except.ok (Option.some.inj hx)
  obtain ⟨declared, hdeclare, hmakes⟩ := except_bind_ok.mp (hok hmakes)
  rcases hcompile : (curriedAdd.method.adder.compileMethod { table := declared.table, catalog := ∅ } {}
    curriedAdd.method.returnType).exec { next := 2 } with ⟨_ | b, t⟩
  · rw [hcompile] at hmakes
    cases hmakes
  rw [hcompile] at hmakes
  obtain ⟨i, hi, hnew⟩ := List.any_eq_true.mp (Except.ok.inj hmakes)
  obtain ⟨before, after, hcode⟩ := List.append_of_mem hi
  obtain ⟨table, closures, hdeclares⟩ := of_declare hdeclare
  obtain ⟨d, hd, hmember⟩ : ∃ d ∈ curriedAdd.types, Member.method curriedAdd.method ∈ d.members :=
    ⟨_, List.mem_cons_self, List.mem_cons_of_mem _ List.mem_cons_self⟩
  have hd : d ∈ declared.definitions := hdeclares.definitions ▸ List.mem_append_left _ hd
  have hc : d.Compiles { table := declared.table, catalog := ∅ } {} (.method curriedAdd.method) b :=
    .method rfl hcompile
  cases i with
  | newDelegate delegate method =>
    obtain ⟨l, place, hl, hmade⟩ :=
      (closures_agree hdeclare {}).1 d hd _ hmember b hc before delegate method after hcode
    exact ⟨declared, d, b, before, delegate, method, after, l, place, hdeclare, hd, _, hmember, hc, hcode, hl, hmade⟩
  | _ => cases hnew

end Module

end Stackwright
