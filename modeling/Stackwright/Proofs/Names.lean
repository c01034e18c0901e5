import Stackwright.Proofs.References
import Stackwright.Proofs.Tidy
import Stackwright.Proofs.Typing
import Stackwright.Proofs.Declared

/-
  Stackwright.Proofs.Names — the classes that a module mentions by name.

  `P` is a test on names, for example that the target knows a class of that name. When every
  class that a module mentions passes the test, so does every class that its typed expressions
  and its lowered code mention: typing and lowering bring up no class of their own.

  - `Expr.typeOf_names`, `Lowers.names`: types and code.
  - `Body.compileMethod_names`, `Body.compileConstructor_names`: the code of a body.
-/

namespace Stackwright

variable {x : Symbol} {bs : List (Symbol × Expr)} {e : Expr}

variable (P : String → Prop)
variable {t : Table} {type : TypeRef} {h : Hierarchy} {env : TypeEnv} {code : List Instr} {b : Block} {s : Storage}
  {scope : Scope}

/-! ## References -/

def MethodRef.Names : MethodRef → Prop
  | .deferred _ => True
  | .existing m => m.owner.Names P ∧ TypeRef.NamesAll P m.params ∧ m.returnType.Names P

def ConstructorRef.Names : ConstructorRef → Prop
  | .deferred _ => True
  | .existing c => c.owner.Names P ∧ TypeRef.NamesAll P c.params

def FieldRef.Names : FieldRef → Prop
  | .deferred _ => True
  | .existing f => f.owner.Names P ∧ f.fieldType.Names P

def Instr.Names : Instr → Prop
  | .loadField f | .storeField f | .loadStatic f | .storeStatic f => f.Names P
  | .newObject c | .callConstructor c => c.Names P
  | .call m _ | .callVirtual m _ => m.Names P
  | .typeOp _ t | .beginCatch t | .invokeDelegate t _ => t.Names P
  | .newDelegate t m => t.Names P ∧ m.Names P
  | _ => True

structure Block.Names (b : Block) : Prop where
  locals : ∀ l ∈ b.locals, l.type.Names P
  code : ∀ i ∈ b.code, i.Names P

def Literal.Names : Literal → Prop
  | .null type => type.Names P
  | _ => True

namespace Expr

mutual
def Names : Expr → Prop
  | .literal v => v.Names P
  | .var _ => True
  | .assign _ e => e.Names
  | .seq es => NamesAll es
  | .and es => NamesAll es
  | .or es => NamesAll es
  | .ite c t f => c.Names ∧ t.Names ∧ f.Names
  | .switch value cases fallback => value.Names ∧ NamesCases cases ∧ fallback.Names
  | .letIn bs body => NamesBindings bs ∧ body.Names
  | .lambda _ ps body => (∀ p ∈ ps, p.type.Names P) ∧ body.Names
  | .invoke function args => function.Names ∧ NamesAll args
  | .binary _ l r => l.Names ∧ r.Names
  | .unary _ e => e.Names
  | .getField target field => target.Names ∧ field.Names P
  | .getStatic field => field.Names P
  | .setField target field value => target.Names ∧ field.Names P ∧ value.Names
  | .setStatic field value => field.Names P ∧ value.Names
  | .new ctor args => ctor.Names P ∧ NamesAll args
  | .call target method args => target.Names ∧ method.Names P ∧ NamesAll args
  | .callStatic method args => method.Names P ∧ NamesAll args

def NamesAll : List Expr → Prop
  | [] => True
  | e :: es => e.Names ∧ NamesAll es

def NamesCases : List (CaseValues × Expr) → Prop
  | [] => True
  | (_, e) :: cs => e.Names ∧ NamesCases cs

def NamesBindings : List (Symbol × Expr) → Prop
  | [] => True
  | (_, e) :: bs => e.Names ∧ NamesBindings bs
end

end Expr

/-! ## What is declared and what is in scope -/

def Declaration.Names : Declaration → Prop
  | .method decl => decl.returnType.Names P
  | .field decl => decl.fieldType.Names P
  | _ => True

def Table.Names (t : Table) : Prop := ∀ key decl, t.get? key = some decl → decl.Names P

structure TypeEnv.Names (env : TypeEnv) : Prop where
  table : env.hierarchy.table.Names P
  vars : ∀ x ∈ env.vars, x.2.Names P

def Storage.Names : Storage → Prop
  | .argument _ type | .slot _ type _ => type.Names P
  | .field target f type _ => target.Names ∧ f.Names P ∧ type.Names P

structure Scope.Names (scope : Scope) : Prop where
  types : scope.types.Names P
  vars : ∀ x ∈ scope.vars, x.2.Names P

variable {P}

theorem Table.Names.method {t : Table} (ht : t.Names P) {key : MethodKey} {decl : MethodDeclaration}
    (h : t.method? key = some decl) : decl.returnType.Names P := by
  unfold Table.method? at h
  split at h
  · rename_i decl' hdecl
    cases h
    exact ht _ _ hdecl
  · cases h

theorem Table.Names.field {t : Table} (ht : t.Names P) {key : FieldKey} {decl : FieldDeclaration}
    (h : t.field? key = some decl) : decl.fieldType.Names P := by
  unfold Table.field? at h
  split at h
  · rename_i decl' hdecl
    cases h
    exact ht _ _ hdecl
  · cases h

theorem MethodRef.info_names {m : MethodRef} {info : MethodInfo} (ht : t.Names P) (hm : m.Names P)
    (h : m.info t = .ok info) :
    info.returnType.Names P := by
  cases m with
  | existing m =>
    cases h
    exact hm.2.2
  | deferred key =>
    simp only [MethodRef.info] at h
    split at h
    · cases h
    · rename_i decl hdecl
      cases h
      exact ht.method hdecl

theorem FieldRef.info_names {f : FieldRef} {info : FieldInfo} (ht : t.Names P) (hf : f.Names P)
    (h : f.info t = .ok info) :
    info.fieldType.Names P := by
  cases f with
  | existing f =>
    cases h
    exact hf.2
  | deferred key =>
    simp only [FieldRef.info] at h
    split at h
    · cases h
    · rename_i decl hdecl
      cases h
      exact ht.field hdecl

theorem ConstructorRef.owner_names {c : ConstructorRef} (h : c.Names P) : c.owner.Names P := by
  cases c with
  | deferred => trivial
  | existing c => exact h.1

namespace TypeEnv.Names

variable {env : TypeEnv}

theorem bind (h : env.Names P) (x : Symbol) (htype : type.Names P) : (env.bind x type).Names P :=
  ⟨h.table, List.forall_mem_cons.mpr ⟨htype, h.vars⟩⟩

theorem bindParams (h : env.Names P) : ∀ {ps : List Param}, (∀ p ∈ ps, p.type.Names P) →
    (env.bindParams ps).Names P := by
  intro ps hps
  induction ps generalizing env with
  | nil => exact h
  | cons p ps ih =>
    obtain ⟨hp, hps⟩ := List.forall_mem_cons.mp hps
    exact ih (h.bind p.name hp) hps

theorem lookup (h : env.Names P) (hx : env.lookup x = some type) : type.Names P := by
  obtain ⟨entry, hentry, rfl⟩ := Option.map_eq_some_iff.mp hx
  exact h.vars entry (List.mem_of_find?_eq_some hentry)

end TypeEnv.Names

theorem Literal.type_names {v : Literal} (h : v.Names P) : v.type.Names P := by
  cases v with
  | null type => exact h
  | _ => trivial

theorem binaryType?_names {op : BinaryOp} {l r : TypeRef} (hl : l.Names P)
    (ht : Expr.binaryType? h op l r = some type) :
    type.Names P := by
  cases op <;> simp only [Expr.binaryType?, Option.ite_none_right_eq_some, Option.some.injEq] at ht <;>
    obtain ⟨-, rfl⟩ := ht <;> first | exact hl | trivial

theorem unaryType?_names {op : UnaryOp} {operand : TypeRef} (he : operand.Names P)
    (ht : Expr.unaryType? op operand = some type) :
    type.Names P := by
  cases op <;> simp only [Expr.unaryType?, Option.ite_none_right_eq_some, Option.some.injEq] at ht <;>
    obtain ⟨-, rfl⟩ := ht <;> first | exact he | trivial

/-! ## Types of expressions -/

/-- The types that a judgement leads to mention nothing that is not mentioned in what is judged. -/
def Judgement.Names (P : String → Prop) : Judgement → Prop
  | .expr e type => e.Names P → type.Names P
  | .seq es last type => Expr.NamesAll P es → last.Names P → type.Names P
  | .bindings _ bs inner result => Expr.NamesBindings P bs → inner.Names P → result.Names P
  | .bools _ | .cases _ _ | .args _ _ => True

theorem Typed.names {j : Judgement} (h : Typed env j) (henv : env.Names P) : j.Names P := by
  induction h with
  | literal => exact Literal.type_names
  | var hx => exact fun _ => henv.lookup hx
  | assign | and | or | setField | setStatic => exact fun _ => trivial
  | seq _ ih => exact fun he => ih henv he trivial
  | ite _ _ _ _ iht _ => exact fun he => iht henv he.2.1
  | switch _ _ _ _ _ ih _ => exact fun he => ih henv he.2.2
  | letIn _ _ ihbs ih => exact fun he => ih (ihbs henv he.1 henv) he.2
  | lambda _ ih => exact fun he => ⟨TypeRef.namesAll_iff.mpr (by simpa using he.1), ih (henv.bindParams he.1) he.2⟩
  | invoke _ _ ih _ => exact fun he => (ih henv he.1).2
  | binary _ _ hop ih _ => exact fun he => binaryType?_names (ih henv he.1) hop
  | unary _ hop ih => exact fun he => unaryType?_names (ih henv he) hop
  | getField hinfo => exact fun he => FieldRef.info_names henv.table he.2 hinfo
  | getStatic hinfo => exact fun he => FieldRef.info_names henv.table he hinfo
  | new => exact fun he => ConstructorRef.owner_names he.1
  | call hinfo => exact fun he => MethodRef.info_names henv.table he.2.1 hinfo
  | callStatic hinfo => exact fun he => MethodRef.info_names henv.table he.1 hinfo
  | seqNil => exact fun _ hlast => hlast
  | seqCons _ _ ihe ihes => exact fun hes _ => ihes henv hes.2 (ihe henv hes.1)
  | bindingsNil => exact fun _ hinner => hinner
  | bindingsCons _ _ _ _ ihe ihbs => exact fun hbs hinner => ihbs henv hbs.2 (hinner.bind _ (ihe henv hbs.1))
  | boolsNil | boolsCons | casesNil | casesCons | argsNil | argsCons => trivial

theorem Expr.typeOf_names (e : Expr) (henv : env.Names P) (he : e.Names P) (h : e.typeOf env = .ok type) :
    type.Names P :=
  (Typed.iff_typeOf.mp h).names henv he

/-! ## Lowered code -/

namespace Block.Names

theorem ofCode (h : ∀ i ∈ code, i.Names P) : (Block.ofCode code).Names P := ⟨by simp, h⟩

theorem append {a : Block} (ha : a.Names P) (hb : b.Names P) : (a ++ b).Names P :=
  ⟨List.forall_mem_append.mpr ⟨ha.locals, hb.locals⟩, List.forall_mem_append.mpr ⟨ha.code, hb.code⟩⟩

end Block.Names

/-- Simple code mentions nothing. -/
theorem names_of_isSimpleCode (h : isSimpleCode code) : ∀ i ∈ code, i.Names P := by
  intro i hi
  have := List.all_eq_true.mp h i hi
  cases i <;> trivial

theorem Block.Names.simple (h : isSimpleCode code = true) : (Block.ofCode code).Names P :=
  .ofCode (names_of_isSimpleCode h)

theorem Block.Names.retIf {i : Instr} (h : i.Names P) (tail : Bool) : (Block.ofCode (i :: retIf tail)).Names P :=
  .ofCode (List.forall_mem_cons.mpr ⟨h, names_of_isSimpleCode (isSimpleCode_retIf tail)⟩)

namespace Storage

theorem type_names (h : s.Names P) : s.type.Names P := by
  cases s with
  | argument | slot => exact h
  | field => exact h.2.2

theorem cellLoad_names (boxed : Bool) (h : type.Names P) : ∀ i ∈ cellLoad boxed type, i.Names P := by
  cases boxed with
  | false => simp [cellLoad]
  | true => simpa [cellLoad, Instr.Names] using h

theorem loadSlot_names : ∀ {s : Storage}, s.Names P → ∀ i ∈ s.loadSlot, i.Names P
  | .argument _ _, _ | .slot _ _ _, _ => by simp [loadSlot, Instr.Names]
  | .field target f _ _, h => by
    simp only [loadSlot, List.forall_mem_append, List.forall_mem_singleton]
    exact ⟨⟨loadSlot_names h.1, cellLoad_names _ (type_names h.1)⟩, h.2.1⟩

theorem fetch_names (h : s.Names P) : ∀ i ∈ s.fetch, i.Names P :=
  List.forall_mem_append.mpr ⟨loadSlot_names h, cellLoad_names _ (type_names h)⟩

theorem store_names {value : List Instr} (h : s.Names P) (hvalue : ∀ i ∈ value, i.Names P) :
    ∀ i ∈ s.store value, i.Names P := by
  have hbefore : ∀ i ∈ s.beforeStore, i.Names P := by
    unfold beforeStore
    split
    · exact loadSlot_names h
    · cases s with
      | field target => exact fetch_names h.1
      | argument | slot => simp
  have hafter : s.afterStore.Names P := by
    unfold afterStore
    split
    · exact type_names h
    · cases s with
      | field => exact h.2.1
      | argument | slot => trivial
  simp only [store, List.forall_mem_append, List.forall_mem_singleton]
  exact ⟨⟨hbefore, hvalue⟩, hafter⟩

end Storage

namespace Scope.Names

variable {scope : Scope}

theorem bind (h : scope.Names P) (x : Symbol) {storage : Storage} (hs : storage.Names P) :
    (scope.bind x storage).Names P :=
  ⟨h.types.bind x (Storage.type_names hs), List.forall_mem_cons.mpr ⟨hs, h.vars⟩⟩

theorem storage (h : scope.Names P) {whole : Expr} {storage : Storage}
    (hx : scope.storage x whole = .ok storage) : storage.Names P := by
  obtain ⟨y, hfind⟩ := Scope.find?_of_storage hx
  exact h.vars _ (List.mem_of_find?_eq_some hfind)

end Scope.Names

theorem captureCells_names {scope : Scope} {whole : Expr} (hscope : scope.Names P) : ∀ {names : List Symbol}
    {cells : List Instr} {types : List TypeRef}, captureCells scope whole names = .ok (cells, types) →
    ∀ i ∈ cells, i.Names P
  | [], _, _, h => by
    cases h
    simp
  | x :: names, _, _, h => by
    obtain ⟨storage, hstorage, h⟩ := except_bind_ok.mp h
    obtain ⟨code, hcode, h⟩ := except_bind_ok.mp h
    obtain ⟨⟨rest, types⟩, hrest, h⟩ := except_bind_ok.mp h
    cases h
    rw [Storage.loadSlot_of_fetchBox hcode]
    exact List.forall_mem_append.mpr ⟨Storage.loadSlot_names (hscope.storage hstorage), captureCells_names hscope hrest⟩

/-- What a piece of work mentions, and what is in scope inside its bindings. -/
def Work.Names (P : String → Prop) : Work → Prop
  | .expr e _ => e.Names P
  | .all es | .seq es _ | .shortCircuit _ es _ | .operands _ _ es _ => Expr.NamesAll P es
  | .cases cs _ leave _ => Expr.NamesCases P cs ∧ (Block.ofCode leave).Names P
  | .bindings _ bs inner _ => Expr.NamesBindings P bs ∧ inner.Names P

/-- Bindings lead to a scope that mentions nothing else. -/
def Work.Leaves (P : String → Prop) : Work → Prop
  | .bindings _ _ _ result => result.Names P
  | _ => True

theorem Lowers.names {options : BuildOptions} {w : Work} {s t : Supply} (h : Lowers options w scope s b t)
    (hscope : scope.Names P) (hw : w.Names P) : b.Names P ∧ w.Leaves P := by
  induction h with
  | literal => exact ⟨.simple (by simp [Literal.isSimpleCode_code]), trivial⟩
  | var hx =>
    refine ⟨.ofCode (List.forall_mem_append.mpr ⟨Storage.fetch_names (hscope.storage hx), ?_⟩), trivial⟩
    exact names_of_isSimpleCode (isSimpleCode_retIf _)
  | assign hx _ ih =>
    obtain ⟨hv, -⟩ := ih hscope hw
    refine ⟨⟨hv.locals, List.forall_mem_append.mpr ⟨Storage.store_names (hscope.storage hx) hv.code, ?_⟩⟩, trivial⟩
    exact names_of_isSimpleCode (isSimpleCode_retIf _)
  | seq _ ih | and _ ih | or _ ih => exact ⟨(ih hscope hw).1, trivial⟩
  | ite _ _ _ ihc iht ihf =>
    obtain ⟨hc, -⟩ := ihc hscope hw.1
    obtain ⟨ht, -⟩ := iht hscope hw.2.1
    obtain ⟨hf, -⟩ := ihf hscope hw.2.2
    exact ⟨((((hc.append (.simple rfl)).append ht).append (.simple (by simp [Instr.isSimple]))).append hf).append
      (.simple (by simp)), trivial⟩
  | switch _ _ _ _ _ _ _ _ hdispatch _ _ ihv ihf ihc =>
    subst hdispatch
    obtain ⟨hv, -⟩ := ihv hscope hw.1
    obtain ⟨hf, -⟩ := ihf hscope hw.2.2
    obtain ⟨hc, -⟩ := ihc hscope ⟨hw.2.1, .simple (by simp)⟩
    exact ⟨((((hv.append (.simple (by simp [isSimpleCode_dispatchCode, Instr.isSimple]))).append hf).append
      (.simple (by simp))).append hc).append (.simple (by simp)), trivial⟩
  | letIn _ _ ihbs ih =>
    obtain ⟨hvalues, hinner⟩ := ihbs hscope ⟨hw.1, hscope⟩
    exact ⟨hvalues.append (ih hinner hw.2).1, trivial⟩
  | lambda htype hcells =>
    refine ⟨.ofCode (List.forall_mem_append.mpr ⟨List.forall_mem_append.mpr ⟨captureCells_names hscope hcells, ?_⟩,
      ?_⟩), trivial⟩
    · simp only [List.forall_mem_cons]
      exact ⟨trivial, ⟨Expr.typeOf_names _ hscope.types hw htype, trivial⟩, by simp⟩
    · exact names_of_isSimpleCode (isSimpleCode_retIf _)
  | invoke htype _ _ ihf ihargs =>
    obtain ⟨hf, -⟩ := ihf hscope hw.1
    obtain ⟨hargs, -⟩ := ihargs hscope hw.2
    refine ⟨(hf.append hargs).append (.retIf ?_ _), trivial⟩
    exact Expr.typeOf_names _ hscope.types hw.1 htype
  | binary _ _ _ ihl ihr =>
    obtain ⟨hl, -⟩ := ihl hscope hw.1
    obtain ⟨hr, -⟩ := ihr hscope hw.2
    exact ⟨(hl.append hr).append (.simple (by simp [BinaryOp.isSimpleCode_code])), trivial⟩
  | unary _ _ ih => exact ⟨(ih hscope hw).1.append (.simple (by simp [UnaryOp.isSimpleCode_code])), trivial⟩
  | getField _ ih =>
    refine ⟨(ih hscope hw.1).1.append (.retIf ?_ _), trivial⟩
    exact hw.2
  | getStatic =>
    refine ⟨.retIf ?_ _, trivial⟩
    exact hw
  | setField _ _ ih ihrest | call _ _ ih ihrest =>
    refine ⟨((ih hscope hw.1).1.append (ihrest hscope hw.2.2).1).append (.retIf ?_ _), trivial⟩
    exact hw.2.1
  | setStatic _ ih | new _ ih | callStatic _ ih =>
    refine ⟨(ih hscope hw.2).1.append (.retIf ?_ _), trivial⟩
    exact hw.1
  | allNil | seqNil | shortNil | operandsNil | casesNil | casesUnlabelled =>
    exact ⟨.simple (by simp [Instr.isSimple]), trivial⟩
  | allCons _ _ ih ihrest => exact ⟨(ih hscope hw.1).1.append (ihrest hscope hw.2).1, trivial⟩
  | seqLast _ ih | shortLast _ ih | operandsLast _ ih => exact ⟨(ih hscope hw.1).1, trivial⟩
  | seqCons _ _ _ ih ihrest =>
    refine ⟨((ih hscope hw.1).1.append (.simple ?_)).append (ihrest hscope hw.2).1, trivial⟩
    split <;> rfl
  | shortCons _ _ ih ihrest =>
    exact ⟨(((ih hscope hw.1).1.append (.simple rfl)).append (ihrest hscope hw.2).1).append
      (.simple (by simp [Instr.isSimple])), trivial⟩
  | operandsCons _ _ ih ihrest =>
    exact ⟨((ih hscope hw.1).1.append (.simple rfl)).append (ihrest hscope hw.2).1, trivial⟩
  | casesDropped _ _ ih => exact ⟨(ih hscope ⟨hw.1.2, hw.2⟩).1, trivial⟩
  | casesCons _ _ _ ih ihrest =>
    exact ⟨(((Block.Names.simple rfl).append (ih hscope hw.1.1).1).append hw.2).append (ihrest hscope ⟨hw.1.2, hw.2⟩).1,
      trivial⟩
  | bindingsNil => exact ⟨.simple rfl, hw.2⟩
  | @bindingsCons usages x value bs scope inner result s type v s₁ b s₂ boxed htype _ _ _ ihv ihbs =>
    have hnames : type.Names P := Expr.typeOf_names value hscope.types hw.1.1 htype
    obtain ⟨hv, -⟩ := ihv hscope hw.1.1
    obtain ⟨hb, hresult⟩ := ihbs hscope ⟨hw.1.2, hw.2.bind x hnames⟩
    refine ⟨((Block.Names.append ?_ hv).append (.ofCode ?_)).append hb, hresult⟩
    · refine ⟨List.forall_mem_singleton.mpr ?_, by simp⟩
      cases boxed <;> exact hnames
    · cases boxed <;> simp [Instr.Names, hnames]

/-! ## Bodies -/

structure Body.Names (P : String → Prop) (b : Body) : Prop where
  params : ∀ p ∈ b.params, p.type.Names P
  captures : ∀ c ∈ b.captures, c.type.Names P ∧ c.field.Names P
  body : b.body.Names P

structure BaseCall.Names (P : String → Prop) (b : BaseCall) : Prop where
  ctor : b.ctor.Names P
  args : Expr.NamesAll P b.args

theorem Enters.names {usages : Usages} {index : Nat} {params : List Param} {inner : Scope} {s t : Supply}
    (h : Enters usages index params scope s b inner t) (hscope : scope.Names P)
    (hparams : ∀ p ∈ params, p.type.Names P) :
    b.Names P ∧ inner.Names P := by
  induction h with
  | nil => exact ⟨.simple rfl, hscope⟩
  | @cell index p params scope inner s b t _ _ _ ih =>
    obtain ⟨hp, hparams⟩ := List.forall_mem_cons.mp hparams
    obtain ⟨hb, hinner⟩ := ih (hscope.bind p.name hp) hparams
    exact ⟨Block.Names.append ⟨List.forall_mem_singleton.mpr hp, by simp [Instr.Names, hp]⟩ hb, hinner⟩
  | @plain index p params scope inner s b t _ _ _ ih =>
    obtain ⟨hp, hparams⟩ := List.forall_mem_cons.mp hparams
    exact ih (hscope.bind p.name hp) hparams

theorem enterCaptures_names {table : Table} {receiver : Storage} (hreceiver : receiver.Names P) :
    ∀ {captures : List Capture} {scope inner : Scope}, enterCaptures table receiver captures scope = .ok inner →
      scope.Names P → (∀ c ∈ captures, c.type.Names P ∧ c.field.Names P) → inner.Names P
  | [], scope, inner, h, hscope, _ => by
    cases h
    exact hscope
  | c :: captures, scope, inner, h, hscope, hcaptures => by
    obtain ⟨⟨htype, hfield⟩, hcaptures⟩ := List.forall_mem_cons.mp hcaptures
    obtain ⟨info, -, h⟩ := except_bind_ok.mp h
    split at h
    · exact enterCaptures_names hreceiver h (hscope.bind c.name ⟨hreceiver, hfield, htype⟩) hcaptures
    · cases h

namespace Body

variable {body : Body} {h : Hierarchy} {options : BuildOptions} {s t : Supply} {b : Block}

theorem enter_names {usages : Usages} (hbody : body.Names P) (htable : h.table.Names P)
    (he : (body.enter h usages).exec s = (.ok (b, scope), t)) : b.Names P ∧ scope.Names P := by
  have hempty : Scope.Names P { types := { hierarchy := h } } := ⟨⟨htable, by simp⟩, by simp⟩
  obtain ⟨outer, henters, hscope⟩ := of_enter he
  obtain ⟨hb, houter⟩ := henters.names hempty hbody.params
  refine ⟨hb, ?_⟩
  rcases hscope with ⟨-, rfl⟩ | ⟨_, _, storage, -, hstorage, hcaptures⟩
  · exact houter
  · exact enterCaptures_names (houter.storage hstorage) hcaptures houter hbody.captures

theorem compileMethod_names {returnType : TypeRef} (hbody : body.Names P) (htable : h.table.Names P)
    (hc : (body.compileMethod h options returnType).exec s = (.ok b, t)) : b.Names P := by
  obtain ⟨start, scope, s₁, type, code, henter, -, hcode⟩ := of_compileMethod hc
  obtain ⟨hstart, hscope⟩ := enter_names hbody htable henter
  rcases hcode with ⟨-, -, hcode, rfl⟩ | ⟨-, -, hcode, rfl⟩
  · exact (hstart.append (hcode.names hscope hbody.body).1).append (.simple rfl)
  · exact hstart.append (hcode.names hscope hbody.body).1

theorem compileConstructor_names {base : BaseCall} (hbody : body.Names P) (hbase : base.Names P)
    (htable : h.table.Names P) (hc : (body.compileConstructor h options base).exec s = (.ok b, t)) : b.Names P := by
  obtain ⟨this, params, start, scope, s₁, type, storage, args, s₂, code, -, henter, -, -, -, -, hstorage, hargs, hcode,
    rfl⟩ := of_compileConstructor hc
  obtain ⟨hstart, hscope⟩ := enter_names hbody htable henter
  have hthis : (Block.ofCode storage.fetch).Names P := .ofCode (Storage.fetch_names (hscope.storage hstorage))
  have hctor : (Block.ofCode [.callConstructor base.ctor]).Names P := .ofCode (List.forall_mem_singleton.mpr hbase.ctor)
  have hend : (Block.ofCode (if type.isVoid then [.op .ret] else [.op .pop, .op .ret])).Names P := by
    split <;> exact .simple rfl
  exact ((((hstart.append hthis).append (hargs.names hscope hbase.args).1).append hctor).append
    (hcode.names hscope hbody.body).1).append hend

end Body

/-! ## Closures -/

namespace Expr

theorem namesAll_iff {es : List Expr} : NamesAll P es ↔ ∀ e ∈ es, e.Names P := by
  induction es with
  | nil => simp [NamesAll]
  | cons e es ih => simp [NamesAll, ih]

theorem namesCases_iff {cs : List (CaseValues × Expr)} : NamesCases P cs ↔ ∀ e ∈ cs.map (·.2), e.Names P := by
  induction cs with
  | nil => simp [NamesCases]
  | cons c cs ih => rw [NamesCases, ih, List.map_cons, List.forall_mem_cons]

theorem namesBindings_iff : NamesBindings P bs ↔ ∀ e ∈ bs.map (·.2), e.Names P := by
  induction bs with
  | nil => simp [NamesBindings]
  | cons b bs ih => rw [NamesBindings, ih, List.map_cons, List.forall_mem_cons]

theorem Names.parts (h : e.Names P) : ∀ part ∈ e.parts, part.Names P := by
  cases e <;>
    simp only [Names, namesAll_iff, namesCases_iff, namesBindings_iff] at h <;>
    simp only [Expr.parts, children, List.forall_mem_cons, List.forall_mem_append] <;>
    grind

end Expr

theorem Binds.names {inner result : TypeEnv} (h : Binds env bs inner result) (henv : env.Names P)
    (hinner : inner.Names P) (hbs : Expr.NamesBindings P bs) : result.Names P := by
  induction h with
  | nil => exact hinner
  | cons htype _ ih => exact ih (hinner.bind _ (Expr.typeOf_names _ henv hbs.1 htype)) hbs.2

/-- A lambda mentions what the expression around it mentions, and so does its scope. -/
theorem Expr.Holds.names {types : TypeEnv} {l : Lambda} (h : e.Holds env l types) (henv : env.Names P)
    (he : e.Names P) :
    types.Names P ∧ l.expr.Names P := by
  induction h with
  | self => exact ⟨henv, he⟩
  | part hpart _ ih => exact ih henv (he.parts _ hpart)
  | letBody hbinds _ ih => exact ih (hbinds.names henv henv he.1) he.2
  | lambdaBody _ ih => exact ih (henv.bindParams he.1) he.2

namespace ClosureLayout

structure Names (P : String → Prop) (l : ClosureLayout) : Prop where
  captures : ∀ c ∈ l.captures, c.2.Names P
  params : ∀ p ∈ l.params, p.type.Names P
  returnType : l.returnType.Names P
  body : l.body.Names P

theorem captureTypes_names {whole : Expr} {env : TypeEnv} (henv : env.Names P) : ∀ {names : List Symbol}
    {captures : List (Symbol × TypeRef)}, captureTypes whole env names = .ok captures → ∀ c ∈ captures, c.2.Names P
  | [], _, h => by
    cases h
    simp
  | x :: names, _, h => by
    rw [captureTypes] at h
    split at h
    · cases h
    · rename_i type hx
      obtain ⟨rest, hrest, h⟩ := except_bind_ok.mp h
      cases h
      exact List.forall_mem_cons.mpr ⟨henv.lookup hx, captureTypes_names henv hrest⟩

end ClosureLayout

theorem Lambda.layout_names {l : Lambda} {types : TypeEnv} {layout : ClosureLayout} (h : l.layout types = .ok layout)
    (htypes : types.Names P) (hl : l.expr.Names P) : layout.Names P := by
  obtain ⟨captures, hcaptures, h⟩ := except_bind_ok.mp h
  obtain ⟨type, htype, h⟩ := except_bind_ok.mp h
  cases h
  obtain ⟨ret, hbody, rfl⟩ := Expr.typeOf_lambda htype
  exact ⟨ClosureLayout.captureTypes_names htypes hcaptures, hl.1, (Expr.typeOf_names _ htypes hl htype).2, hl.2⟩

/-! ## Definitions -/

def MethodBody.Names (P : String → Prop) : MethodBody → Prop
  | .code params block => TypeRef.NamesAll P params ∧ block.Names P
  | .expr body => body.Names P
  | .abstract params => TypeRef.NamesAll P params

def ConstructorBody.Names (P : String → Prop) : ConstructorBody → Prop
  | .code params block => TypeRef.NamesAll P params ∧ block.Names P
  | .expr body base => body.Names P ∧ ∀ call ∈ base, call.Names P

def Member.Names (P : String → Prop) : Member → Prop
  | .field f => f.fieldType.Names P
  | .method m => m.returnType.Names P ∧ m.body.Names P
  | .constructor c => c.body.Names P
  | .property p => p.propertyType.Names P ∧ (∀ m ∈ p.getter, m.Names P) ∧ ∀ m ∈ p.setter, m.Names P

structure TypeDefinition.Names (P : String → Prop) (d : TypeDefinition) : Prop where
  base : ∀ t ∈ d.base, t.Names P
  interfaces : ∀ t ∈ d.interfaces, t.Names P
  members : ∀ m ∈ d.members, m.Names P

def Module.Names (P : String → Prop) (m : Module) : Prop := ∀ d ∈ m.types, d.Names P

namespace ClosureLayout

variable {l : ClosureLayout}

theorem storeCells_names (l : ClosureLayout) : ∀ (captures : List (Symbol × TypeRef)) (index : Nat),
    ∀ i ∈ l.storeCells index captures, i.Names P
  | [], _ => by simp [storeCells]
  | c :: captures, index => by
    simp only [storeCells, List.forall_mem_cons]
    exact ⟨trivial, trivial, trivial, storeCells_names l captures (index + 1)⟩

theorem definition_names (h : l.Names P) : l.definition.Names P where
  base := by simp [definition]
  interfaces := by simp [definition]
  members := by
    have hcells : TypeRef.NamesAll P l.cellTypes := by
      rw [TypeRef.namesAll_iff, cellTypes, List.forall_mem_map]
      exact h.captures
    have hcode : ∀ i ∈ [.loadArg 0, .callConstructor (.existing .object)] ++ l.storeCells 1 l.captures ++ [.op .ret],
        i.Names P := by
      simp only [List.forall_mem_append, List.forall_mem_cons]
      exact ⟨⟨⟨trivial, ⟨trivial, trivial⟩, by simp⟩, l.storeCells_names _ _⟩, trivial, by simp⟩
    have hbody : l.invokeBody.Names P := by
      refine ⟨List.forall_mem_cons.mpr ⟨trivial, h.params⟩, ?_, h.body⟩
      simp only [invokeBody, List.forall_mem_map]
      exact fun c hc => ⟨h.captures c hc, trivial⟩
    simp only [definition, List.forall_mem_append, List.forall_mem_map, List.forall_mem_cons]
    exact ⟨h.captures, ⟨hcells, by simp, hcode⟩, ⟨h.returnType, hbody⟩, by simp⟩

end ClosureLayout

theorem TypeDefinition.HasEntries.names {d : TypeDefinition} {entries : List Entry} (h : d.HasEntries entries)
    (hd : d.Names P) : ∀ entry ∈ entries, entry.2.Names P := by
  obtain ⟨hmembers⟩ := h
  refine List.forall_mem_cons.mpr ⟨trivial, fun entry hentry => ?_⟩
  obtain ⟨m, hm, hentry⟩ := exists_of_forall₂_right hmembers hentry
  have hm := hd.members m hm
  cases m with
  | field f =>
    cases hentry
    exact hm
  | property p =>
    cases hentry
    trivial
  | method m =>
    obtain ⟨key, -, hentry⟩ := except_bind_ok.mp hentry
    cases hentry
    exact hm.1
  | constructor c =>
    obtain ⟨key, -, hentry⟩ := except_bind_ok.mp hentry
    cases hentry
    trivial

theorem Declares.names {result : Table} {ds : List TypeDefinition} {entries : List (List Entry)}
    (h : Declares t entries.flatten result) (ht : t.Names P) (hds : ∀ d ∈ ds, d.Names P)
    (hentries : List.Forall₂ TypeDefinition.HasEntries ds entries) : result.Names P := by
  intro key decl hdecl
  rcases h.get?.mp hdecl with hmem | hdecl
  · obtain ⟨own, hown, hmem⟩ := List.mem_flatten.mp hmem
    obtain ⟨d, hd, hd'⟩ := exists_of_forall₂_right hentries hown
    exact hd'.names (hds d hd) _ hmem
  · exact ht key decl hdecl

theorem Body.typeEnv_names {b : Body} (hb : b.Names P) (htable : h.table.Names P) : (b.typeEnv h).Names P := by
  have hparams : ((TypeEnv.mk h []).bindParams b.params).Names P := TypeEnv.Names.bindParams ⟨htable, by simp⟩ hb.params
  have hcaptures : ∀ c ∈ b.captures, c.type.Names P := fun c hc => (hb.captures c hc).1
  unfold typeEnv
  generalize TypeEnv.bindParams { hierarchy := h } b.params = env at hparams ⊢
  generalize b.captures = captures at hcaptures ⊢
  induction captures generalizing env with
  | nil => exact hparams
  | cons c captures ih =>
    obtain ⟨hc, hcaptures⟩ := List.forall_mem_cons.mp hcaptures
    exact ih _ (hparams.bind c.name hc) hcaptures

theorem Member.roots_names {m : Member} (hm : m.Names P) (htable : h.table.Names P) :
    ∀ root ∈ m.roots h, root.1.Names P ∧ root.2.Names P := by
  unfold roots
  split
  · exact List.forall_mem_singleton.mpr ⟨hm.2.body, Body.typeEnv_names hm.2 htable⟩
  · rename_i body base _
    have henv := Body.typeEnv_names hm.1 htable
    rw [List.forall_mem_map, List.forall_mem_append, List.forall_mem_singleton]
    refine ⟨fun e he => ⟨?_, henv⟩, hm.1.body, henv⟩
    obtain ⟨call, hcall, he⟩ := List.mem_flatMap.mp he
    exact Expr.namesAll_iff.mp (hm.2 call (by simpa using hcall)).args e he
  · simp

/-- A module that was declared brings up no other class than it mentions. -/
theorem Module.Declares.names {m : Module} {catalog : Metadata} {table : Table} {closures : DefinitionMap}
    {declared : Declared} (h : m.Declares catalog table closures declared) (hm : m.Names P) :
    (∀ d ∈ declared.definitions, d.Names P) ∧ declared.table.Names P := by
  obtain ⟨own, added, hown, hadded, htypes, hrest⟩ := h.entries
  have hempty : Table.Names P ∅ := by
    intro key decl hdecl
    cases (Std.TreeMap.getElem?_emptyc : (∅ : Table)[key]? = none).symm.trans hdecl
  have htable : table.Names P := htypes.names hempty hm hown
  have hclosures : ∀ d ∈ closures.values, d.Names P := by
    intro d hd
    obtain ⟨l, types, layout, ⟨t, ht, member, hmember, root, hroot, hl⟩, hlayout, rfl⟩ := h.only hd
    obtain ⟨hroot, henv⟩ := Member.roots_names ((hm t ht).members member hmember) htable root hroot
    obtain ⟨htypes, hl⟩ := hl.names henv hroot
    exact ClosureLayout.definition_names (Lambda.layout_names hlayout htypes hl)
  rw [h.definitions]
  exact ⟨List.forall_mem_append.mpr ⟨hm, hclosures⟩, hrest.names htable hclosures hadded⟩

end Stackwright
