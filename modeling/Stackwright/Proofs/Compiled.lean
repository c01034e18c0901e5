import Stackwright.Proofs.Emitted
import Stackwright.Proofs.Preservation
import Stackwright.Module.Steps

/-
  Stackwright.Proofs.Compiled — a compiled method computes its body.

  Code without lambdas and members refers to nothing outside its body, so it can be installed
  wherever its types are known. A call enters it with the arguments where the parameters live, runs
  it, and hands over what the body leaves on the stack.

  - `Lowers.simple`: such code refers to nothing.
-/

namespace Stackwright

open Machine

variable {index : Nat} {args : List Datum}
variable {code : Code} {scope : Scope} {s t : Supply} {b : Block} {params : List Param} {id : MethodId}
variable {L : Layout} {ws : Workspace machine} {p : Program} {returnType : TypeRef}

/-! ## Plain code -/

/-- Storages that need no cell. -/
def Storage.isPlain : Storage → Bool
  | .argument _ _ => true
  | .slot _ _ boxed => !boxed
  | .field _ _ _ _ => false

def Scope.IsPlain (scope : Scope) : Prop := ∀ x ∈ scope.vars, x.2.isPlain = true

theorem Storage.isSimpleCode_fetch {storage : Storage} (h : storage.isPlain) : isSimpleCode storage.fetch := by
  cases storage with
  | argument => rfl
  | slot name type boxed =>
    cases boxed with
    | true => cases h
    | false => rfl
  | field => cases h

theorem Storage.isSimpleCode_store {storage : Storage} (h : storage.isPlain) {code : List Instr}
    (hcode : isSimpleCode code) : isSimpleCode (storage.store code) := by
  rw [store, isSimpleCode_append, isSimpleCode_append, hcode]
  cases storage with
  | argument => rfl
  | slot name type boxed =>
    cases boxed with
    | true => cases h
    | false => rfl
  | field => cases h

theorem Scope.IsPlain.storage {x : Symbol} {whole : Expr} {storage : Storage} (h : scope.IsPlain)
    (hx : scope.storage x whole = .ok storage) : storage.isPlain := by
  obtain ⟨y, hfind⟩ := Scope.find?_of_storage hx
  exact h _ (List.mem_of_find?_eq_some hfind)

theorem Scope.IsPlain.bind (h : scope.IsPlain) (x : Symbol) {storage : Storage} (hstorage : storage.isPlain) :
    (scope.bind x storage).IsPlain := by
  intro y hy
  rcases List.mem_cons.mp hy with rfl | hy
  · exact hstorage
  · exact h y hy

/-- Work without lambdas and members leads to simple code. -/
def Simple : Work → Scope → Block → Prop
  | .expr e _, scope, b => e.isPlain → scope.IsPlain → isSimpleCode b.code = true
  | .seq es _, scope, b | .shortCircuit _ es _, scope, b | .operands _ _ es _, scope, b =>
    Expr.allPlain es → scope.IsPlain → isSimpleCode b.code = true
  | .cases cs _ leave _, scope, b => Expr.casesPlain cs → scope.IsPlain → isSimpleCode leave →
      isSimpleCode b.code = true
  | .bindings usages bs inner result, scope, b => Expr.bindingsPlain bs →
      (∀ x, usages.isCaptured x = false) → scope.IsPlain → inner.IsPlain →
      result.IsPlain ∧ isSimpleCode b.code = true
  | .all _, _, _ => True

theorem Lowers.simple {options : BuildOptions} {w : Work} (h : Lowers options w scope s b t) : Simple w scope b := by
  induction h with
  | literal =>
    intro _ _
    simp [Literal.isSimpleCode_code]
  | var hx =>
    intro _ hscope
    simp [Storage.isSimpleCode_fetch (hscope.storage hx)]
  | assign hx _ ih =>
    intro hfirst hscope
    simp [Storage.isSimpleCode_store (hscope.storage hx) (ih hfirst hscope)]
  | seq _ ih | and _ ih | or _ ih => exact ih
  | ite _ _ _ ihc iht ihf =>
    intro hfirst hscope
    simp only [Expr.isPlain, Bool.and_eq_true] at hfirst
    simp [ihc hfirst.1.1 hscope, iht hfirst.1.2 hscope, ihf hfirst.2 hscope, Instr.isSimple]
  | switch _ _ _ _ _ _ _ _ hdispatch _ _ ihv ihf ihc =>
    intro hfirst hscope
    simp only [Expr.isPlain, Bool.and_eq_true] at hfirst
    subst hdispatch
    simp [ihv hfirst.1.1 hscope, ihf hfirst.2 hscope, ihc hfirst.1.2 hscope (isSimpleCode_leaveTo _ _),
      isSimpleCode_dispatchCode, Instr.isSimple]
  | letIn _ _ ihbs ih =>
    intro hfirst hscope
    simp only [Expr.isPlain, Bool.and_eq_true] at hfirst
    obtain ⟨hinner, hvalues⟩ := ihbs hfirst.1 (Expr.usages_of_isPlain _ · hfirst.2) hscope hscope
    simp [hvalues, ih hfirst.2 hinner]
  | binary _ _ _ ihl ihr =>
    intro hfirst hscope
    simp only [Expr.isPlain, Bool.and_eq_true] at hfirst
    simp [ihl hfirst.1 hscope, ihr hfirst.2 hscope, BinaryOp.isSimpleCode_code]
  | unary _ _ ih =>
    intro hfirst hscope
    rw [Expr.isPlain, Bool.and_eq_true] at hfirst
    simp [ih hfirst.2 hscope, UnaryOp.isSimpleCode_code]
  | lambda | invoke | getField | getStatic | setField | setStatic | new | call | callStatic =>
    intro hfirst
    cases hfirst
  | allNil | allCons => trivial
  | seqNil =>
    intro _ _
    simp
  | seqLast _ ih | shortLast _ ih | operandsLast _ ih =>
    intro hfirst hscope
    rw [Expr.allPlain, Expr.allPlain, Bool.and_true] at hfirst
    exact ih hfirst hscope
  | seqCons _ _ _ ih ihrest =>
    intro hfirst hscope
    rw [Expr.allPlain, Bool.and_eq_true] at hfirst
    simp [ih hfirst.1 hscope, ihrest hfirst.2 hscope]
    split <;> rfl
  | shortNil =>
    intro _ _
    simp [Instr.isSimple]
  | shortCons _ _ ih ihrest | operandsCons _ _ ih ihrest =>
    intro hfirst hscope
    rw [Expr.allPlain, Bool.and_eq_true] at hfirst
    simp [ih hfirst.1 hscope, ihrest hfirst.2 hscope, Instr.isSimple]
  | operandsNil =>
    intro _ _
    rfl
  | casesNil | casesUnlabelled =>
    intro _ _ _
    rfl
  | casesDropped _ _ ih =>
    intro hfirst hscope hleave
    rw [Expr.casesPlain, Bool.and_eq_true] at hfirst
    exact ih hfirst.2 hscope hleave
  | casesCons _ _ _ ih ihrest =>
    intro hfirst hscope hleave
    rw [Expr.casesPlain, Bool.and_eq_true] at hfirst
    simp [ih hfirst.1 hscope, hleave, ihrest hfirst.2 hscope hleave, Instr.isSimple]
  | bindingsNil =>
    intro _ _ _ hinner
    exact ⟨hinner, rfl⟩
  | bindingsCons _ hboxed _ _ ihv ihb =>
    intro hfirst husages hscope hinner
    obtain rfl := hboxed.trans (husages _)
    rw [Expr.bindingsPlain, Bool.and_eq_true] at hfirst
    obtain ⟨hresult, hrest⟩ := ihb hfirst.2 husages hscope (hinner.bind _ rfl)
    refine ⟨hresult, ?_⟩
    simp [ihv hfirst.1 hscope, hrest, Instr.isSimple]

/-! ## Entering a body -/

/-- The parameters with their arguments, the last one first. -/
def paramEnv (params : List Param) (args : List Datum) :
    Env := (List.zipWith (fun p d => (p.name, d)) params args).reverse

/-- A value that may be passed for a parameter. -/
def Param.Admits (p : Param) (d : Datum) : Prop := d ≠ .void ∧ d.Fits p.type

/-- Without lambdas, entering a body takes no code. -/
theorem Enters.eq_empty {usages : Usages} {inner : Scope} (h : Enters usages index params scope s b inner t)
    (husages : ∀ x, usages.isCaptured x = false) (hplain : scope.IsPlain) : b = {} ∧ t = s ∧ inner.IsPlain := by
  induction h with
  | nil => exact ⟨rfl, rfl, hplain⟩
  | cell _ hcaptured =>
    rw [husages] at hcaptured
    cases hcaptured
  | plain _ _ _ ih => exact ih (hplain.bind _ rfl)

/-- Parameters that no lambda uses stay where the caller put them. -/
theorem Enters.agrees {base f : Frame} {usages : Usages} {inner : Scope}
    (h : Enters usages index params scope s b inner t)
    (husages : ∀ x, usages.isCaptured x = false) {env : Env} (hlaid : Laid L s scope)
      (hagrees : Agrees L base scope env f)
    (hplaces : ∀ x ∈ scope.vars, ∃ j < index, L.place? x.2 = some (.arg j))
      (hargs : List.Forall₂ Param.Admits params args)
    (hread : ∀ i d, args[i]? = some d → f.read (.arg (index + i)) = some d.value) :
    Laid L s inner ∧ Agrees L base inner (paramEnv params args ++ env) f := by
  induction h generalizing env args with
  | nil =>
    cases hargs
    exact ⟨hlaid, hagrees⟩
  | cell _ hcaptured =>
    rw [husages] at hcaptured
    cases hcaptured
  | @plain index p params scope inner s b t hindex _ _ ih =>
    cases hargs with
    | @cons _ d _ args hd hargs =>
      have hplace : L.place? (.argument (.ofNat index) p.type) = some (.arg index) := by
        show some (Place.arg (UInt16.ofNat index).toNat) = _
        rw [UInt16.toNat_ofNat_of_lt' hindex]
      have hplaces' : ∀ x ∈ (scope.bind p.name (.argument (.ofNat index) p.type)).vars,
          ∃ j < index + 1, L.place? x.2 = some (.arg j) := by
        intro x hx
        rcases List.mem_cons.mp hx with rfl | hx
        · exact ⟨index, Nat.lt_succ_self _, hplace⟩
        · obtain ⟨j, hj, hxplace⟩ := hplaces x hx
          exact ⟨j, by omega, hxplace⟩
      have hlaid' : Laid L s (scope.bind p.name (.argument (.ofNat index) p.type)) := by
        refine ⟨hlaid.primitives, ?_, ?_, List.pairwise_cons.mpr ⟨fun y hy hsame => ?_, hlaid.apart⟩⟩
        · show (p.name, p.type) :: scope.types.vars = (p.name, p.type) :: _
          rw [hlaid.types]
        · intro x hx name type boxed hstorage
          rcases List.mem_cons.mp hx with rfl | hx
          · cases hstorage
          · exact hlaid.older x hx name type boxed hstorage
        · obtain ⟨j, hj, hy⟩ := hplaces y hy
          rw [hplace, hy] at hsame
          cases hsame
          omega
      have hagrees' : Agrees L base (scope.bind p.name (.argument (.ofNat index) p.type)) ((p.name, d) :: env) f :=
        ⟨hagrees.fixed, .cons ⟨rfl, hd.1, hd.2, _, hplace, hread 0 d rfl⟩ hagrees.vars⟩
      have hread' : ∀ i d, args[i]? = some d → f.read (.arg (index + 1 + i)) = some d.value := by
        intro i d hi
        rw [Nat.add_assoc, Nat.add_comm 1]
        exact hread (i + 1) d hi
      obtain ⟨hlaid'', hagrees''⟩ := ih hlaid' hagrees' hplaces' hargs hread'
      exact ⟨hlaid'', by simpa [paramEnv] using hagrees''⟩

/-! ## Calls -/

/-- What a call gives when the body of the method evaluates to an outcome. -/
def callResult (returnType : TypeRef) : Outcome → Option (Except Fault Value)
  | .ok (d, _) => some (.ok (if returnType.isVoid then .null else d.value))
  | .error .divideByZero => some (.error .divideByZero)
  | .error .stuck => none

/-- A static method that waits for the body of a method with the given parameters. -/
structure Machine.Program.Awaits (p : Program) (id : MethodId) (params : List Param) (returnType : TypeRef) : Prop where
  bound : id.index < p.methods.size
  isStatic : (p.method id).isStatic = true
  arity : (p.method id).params.length = params.length
  returns : ((p.method id).ret == .void) = returnType.isVoid
  bodiless : (p.method id).kind = .defined none

/-- A frame that is about to return. -/
def Answers (p : Program) (returnType : TypeRef) (base : Frame) (r : Datum × Env) (g : Frame) : Prop :=
  g.fixed = base.fixed ∧ (returnType.isVoid = false → r.1.Fits returnType) ∧ ∀ w,
    (step p g).exec w = (.ok (.return (if returnType.isVoid then .null else r.1.value)), w)

section Bodies

variable {L : Layout} {p : Program} {base : Frame} {options : BuildOptions} {scope : Scope} {s t : Supply} {b : Block}
  {e : Expr} {env : Env} {returnType type : TypeRef} {reach : Reach}

/-- A body in tail position returns its value, or nothing. -/
theorem answers_tail (hL : L.Carries base) (hreach : reach.Suits options.maxSwitchCases)
    (hreturns : base.returnsValue = !returnType.isVoid) (h : Lowers options (.expr e true) scope s b t)
      (hfirst : e.isPlain)
    (htype : e.typeOf scope.types = .ok type) {hierarchy : Hierarchy} (hknows : hierarchy.KnowsPrimitives)
    (hassign : hierarchy.isAssignable type returnType) (hosts : L.Hosts 0 b) (hlaid : Laid L s scope)
    (hagrees : Agrees L base scope env base) :
    Yields p (base.moved 0 []) (Answers p returnType base) (e.meaning reach env) := by
  refine ((h.preserves hL hreach) hfirst type htype 0 env base [] hosts hlaid hagrees).mono ?_
  rintro _ _ @⟨d, env', g, pc, hret, hfits, hagrees', -⟩
  refine ⟨hagrees'.fixed, fun _ => hfits.of_isAssignable hknows hassign, fun w => ?_⟩
  have hret : L.At pc (.op .ret) := hret
  have hcode := hagrees'.code hL.code
  have hvalue : g.returnsValue = !returnType.isVoid := by
    rw [← hreturns]
    exact congrArg (fun fixed => fixed.2.2.1) hagrees'.fixed
  cases hvoid : returnType.isVoid with
  | true => exact Layout.step_ret_void hcode hret (by rw [hvalue, hvoid]; rfl) w
  | false =>
    have hd : d ≠ .void := by
      intro e
      rw [(hfits.of_isAssignable hknows hassign).isVoid_iff.mpr e] at hvoid
      cases hvoid
    rw [Datum.push_eq hd]
    exact Layout.step_ret hcode hret (by rw [hvalue, hvoid]; rfl) w

/-- A body whose value nobody asked for drops it. -/
theorem answers_dropped (hL : L.Carries base) (hreach : reach.Suits options.maxSwitchCases)
    (hreturns : base.returnsValue = false) (hreturnType : returnType.isVoid)
      (h : Lowers options (.expr e false) scope s b t)
    (hfirst : e.isPlain) (htype : e.typeOf scope.types = .ok type) (hvoid : type.isVoid = false)
    (hosts : L.Hosts 0 (b ++ .ofCode [.op .pop, .op .ret])) (hlaid : Laid L s scope)
    (hagrees : Agrees L base scope env base) :
    Yields p (base.moved 0 []) (Answers p returnType base) (e.meaning reach env) := by
  obtain ⟨hb, hend⟩ := Layout.hosts_append.mp hosts
  obtain ⟨hpop, hret, -⟩ := hend.holds
  refine ((h.preserves hL hreach) hfirst type htype 0 env base [] hb hlaid hagrees).onward ?_
  rintro _ _ @⟨d, env', g, _, rfl, hfits, hagrees', -⟩
  have hcode := hagrees'.code hL.code
  have hd : d ≠ .void := by
    intro e
    rw [hfits.isVoid_iff.mpr e] at hvoid
    cases hvoid
  rw [Datum.push_eq hd]
  refine ⟨_, (Layout.next_pop hcode hpop).runs, hagrees'.fixed, by simp [hreturnType], fun w => ?_⟩
  rw [if_pos hreturnType]
  refine Layout.step_ret_void hcode hret ?_ w
  rw [← hreturns]
  exact congrArg (fun fixed => fixed.2.2.1) hagrees'.fixed

end Bodies

namespace Machine.Program

variable {p : Program} {id : MethodId} {params : List Param} {returnType : TypeRef}

theorem method_withBody (hid : id.index < p.methods.size) (code : Code) :
    (p.withBody id code).method id = { p.method id with kind := .defined (some code) } := by
  simp [method, withBody, Array.getD, hid, Array.getElem_modify_self]

theorem exec_setBody {draft : Draft} (hid : (p.method id).kind = .defined none) (hdraft : draft.finish = .ok code) :
    (setBody id draft).exec p = (.ok (), p.withBody id code) := by
  rw [setBody, Effect.exec_bind, hdraft]
  simp only [Effect.exec_lift]
  rw [Effect.exec_bind]
  simp only [Effect.exec_get, hid]
  rfl

end Machine.Program

theorem exec_writeBody {block : Block} {emitted : Emission machine} (hid : (ws.program.method id).kind = .defined none)
    (hblock : (Emission.block ws.slots block).exec ⟨ws.program, machine.emptyDraft, [], []⟩ = (.ok (), emitted))
    (hprogram : emitted.program = ws.program) (hfinish : emitted.draft.finish = .ok code) :
    (TypeDefinition.writeBody machine block (machine.methodBody id)).exec ws =
    (.ok (), { ws with program := ws.program.withBody id code }) := by
  simp [TypeDefinition.writeBody, Workspace.ofProgram, Effect.exec_bind, hblock, hprogram,
    Program.exec_setBody hid hfinish]

/-- What a call gives, read off the run of its frame. -/
theorem Yields.call_eq {args : List Value} {r : Outcome} (hkind : (p.method id).kind = .defined (some code))
    (hargs : args.length = (p.method id).arity) (hret : ((p.method id).ret == .void) = returnType.isVoid)
    (h : Yields p (entryFrame p id code args) (Answers p returnType (entryFrame p id code args)) r) :
    (∀ d env, r = .ok (d, env) → returnType.isVoid = false → d.Fits returnType) ∧
    ∃ result, callResult returnType r = some result ∧ ∀ natives, ∃ n, ∀ fuel ≥ n, ∀ w,
      Loaded.call ⟨p, natives⟩ fuel id args w = (some result, w) := by
  match r with
  | .ok (d, env) =>
    obtain ⟨g, hrun, hfixed, hfits, hstep⟩ := h
    refine ⟨fun _ _ hr => ?_, _, rfl, fun natives => ?_⟩
    · cases hr
      exact hfits
    have honReturn : g.onReturn = p.onReturnOf id := congrArg (fun fixed => fixed.2.2.2) hfixed
    have hcall := Runs.call_eq natives hkind hargs hrun hstep
    rw [honReturn, Program.onReturnOf, hret] at hcall
    cases hvoid : returnType.isVoid with
    | true | false =>
      simp only [hvoid] at hcall
      exact hcall
  | .error .divideByZero => exact ⟨by simp, _, rfl, fun natives => Faults.call_eq natives hkind hargs h⟩
  | .error .stuck => exact h.elim

namespace Body

variable {params : List Param} {e : Expr} {h : Hierarchy} {options : BuildOptions} {returnType : TypeRef} {s t : Supply}
  {block : Block} {reach : Reach}

/-- How a plain body is entered. -/
theorem enters_of_isPlain {start : Block} (hfirst : e.isPlain)
    (henter : (Body.enter { params, body := e } h e.usages).exec s = (.ok (start, scope), t)) :
    Enters e.usages 0 params { types := { hierarchy := h } } s start scope t ∧ start = {} ∧ t = s ∧ scope.IsPlain := by
  obtain ⟨outer, henters, hscope⟩ := of_enter henter
  obtain rfl : scope = outer := by
    rcases hscope with ⟨-, rfl⟩ | ⟨_, _, _, -, -, hcaptures⟩
    · rfl
    · cases hcaptures
      rfl
  exact ⟨henters, henters.eq_empty (Expr.usages_of_isPlain e · hfirst) (by simp [Scope.IsPlain])⟩

theorem compileMethod_simple (hfirst : e.isPlain = true)
    (hcompile : (Body.compileMethod { params, body := e } h options returnType).exec s = (.ok block, t)) :
    ∀ i ∈ block.code, i.isSimple := by
  obtain ⟨start, scope, s₁, type, code, henter, -, hcode⟩ := of_compileMethod hcompile
  obtain ⟨-, rfl, rfl, hplain⟩ := enters_of_isPlain hfirst henter
  rw [← List.all_eq_true]
  rcases hcode with ⟨-, -, hlower, rfl⟩ | ⟨-, -, hlower, rfl⟩
  · show isSimpleCode ([] ++ code.code ++ [.op .pop, .op .ret]) = true
    rw [isSimpleCode_append, isSimpleCode_append, hlower.simple hfirst hplain]
    rfl
  · exact hlower.simple hfirst hplain

/-- The frame of a call runs through the installed code to the result of the body. -/
theorem compileMethod_answers (hknows : h.KnowsPrimitives) (hfirst : e.isPlain)
    (hreach : reach.Suits options.maxSwitchCases)
    (hcompile : (Body.compileMethod { params, body := e } h options returnType).exec s = (.ok block, t))
    (hinstalls : L.Installs block) (hret : ((p.method id).ret == .void) = returnType.isVoid)
    (hargs : List.Forall₂ Param.Admits params args) :
    Yields p (entryFrame p id L.code (args.map Datum.value))
      (Answers p returnType (entryFrame p id L.code (args.map Datum.value)))
      (e.meaning reach (paramEnv params args)) := by
  obtain ⟨start, scope, s₁, type, code, henter, htype, hcode⟩ := of_compileMethod hcompile
  obtain ⟨henters, rfl, rfl, -⟩ := enters_of_isPlain hfirst henter
  generalize hbase : entryFrame p id L.code (args.map Datum.value) = base
  have hL : L.Carries base := by
    subst hbase
    exact ⟨rfl, by simp [entryFrame, newFrame], hinstalls.distinct⟩
  have hread : ∀ i d, args[i]? = some d → base.read (.arg (0 + i)) = some d.value := by
    subst hbase
    intro i d hi
    simp [Frame.read, entryFrame, newFrame, hi]
  have hreturns : base.returnsValue = !returnType.isVoid := by
    subst hbase
    rw [← hret]
    rfl
  have hmoved : base = base.moved 0 [] := by
    subst hbase
    rfl
  have hlaid₀ : Laid L s₁ { types := { hierarchy := h } } := ⟨hknows, rfl, by simp, .nil⟩
  have hagrees₀ : Agrees L base { types := { hierarchy := h } } [] base := ⟨rfl, .nil⟩
  obtain ⟨hlaid, hagrees⟩ := henters.agrees (Expr.usages_of_isPlain e · hfirst) hlaid₀ hagrees₀ (by simp) hargs hread
  rw [List.append_nil] at hagrees
  have hosts : L.Hosts 0 block := ⟨hinstalls.holds, hinstalls.slots⟩
  suffices hyields : Yields p (base.moved 0 []) (Answers p returnType base) (e.meaning reach (paramEnv params args)) by
    rwa [← hmoved] at hyields
  rcases hcode with ⟨hvoid, hnonvoid, hlower, rfl⟩ | ⟨-, hassign, hlower, rfl⟩
  · rw [hvoid] at hreturns
    exact answers_dropped hL hreach hreturns hvoid hlower hfirst htype hnonvoid hosts hlaid hagrees
  · exact answers_tail hL hreach hreturns hlower hfirst htype hknows hassign hosts hlaid hagrees

end Body

/-- A compiled plain body can be installed in any static method that waits for it, and a call of the method gives what
    the body means: its value, which fits the return type, or a division by zero. -/
theorem Body.compileMethod_calls {e : Expr} {h : Hierarchy} {options : BuildOptions} {block : Block} {reach : Reach}
    (hknows : h.KnowsPrimitives) (hplain : e.isPlain) (hreach : reach.Suits options.maxSwitchCases)
    (hcompile : (Body.compileMethod { params, body := e } h options returnType).exec s = (.ok block, t))
    (hmethod : ws.program.Awaits id params returnType) (hkeys : ∀ k ∈ block.keys, ws.slots.isWritten k) :
    ∃ ws', (TypeDefinition.writeBody machine block (machine.methodBody id)).exec ws = (.ok (), ws') ∧
      ∀ args, List.Forall₂ Param.Admits params args →
        (∀ d env, e.meaning reach (paramEnv params args) = .ok (d, env) → returnType.isVoid = false →
          d.Fits returnType) ∧
        ∃ result, callResult returnType (e.meaning reach (paramEnv params args)) = some result ∧
          ∀ natives, ∃ n, ∀ fuel ≥ n, ∀ w,
            Loaded.call ⟨ws'.program, natives⟩ fuel id (args.map Datum.value) w = (some result, w) := by
  obtain ⟨emitted, L, hblock, hprogram, hfinish, hinstalls⟩ :=
    Emission.installed ws.program (compileMethod_made hcompile) (compileMethod_simple hplain hcompile) hkeys
  refine ⟨_, exec_writeBody hmethod.bodiless hblock hprogram hfinish, fun args hargs => ?_⟩
  have hrecord := Program.method_withBody hmethod.bound L.code
  have hret : (((ws.program.withBody id L.code).method id).ret == .void) = returnType.isVoid := by
    rw [hrecord]
    exact hmethod.returns
  refine (compileMethod_answers hknows hplain hreach hcompile hinstalls hret hargs).call_eq (by rw [hrecord]) ?_ hret
  rw [hrecord, List.length_map, ← hargs.length_eq, ← hmethod.arity, MethodRecord.arity, hmethod.isStatic]
  rfl

/-- A compiled first-order body can be installed in any static method that waits for it, and a call
    of the method gives what the body evaluates to: its value, or a division by zero. -/
theorem Body.compileMethod_computes {params : List Param} {e : Expr} {h : Hierarchy} {options : BuildOptions}
    {returnType : TypeRef} {s t : Supply} {block : Block} (hknows : h.KnowsPrimitives)
    (hfirst : e.isFirstOrder = true) (hoptions : options.maxSwitchCases ≤ 2 ^ 31)
    (hcompile : (Body.compileMethod { params, body := e } h options returnType).exec s = (.ok block, t))
    {ws : Workspace machine} {id : MethodId} (hmethod : ws.program.Awaits id params returnType)
    (hkeys : ∀ k ∈ block.keys, ws.slots.isWritten k = true) :
    ∃ ws', (TypeDefinition.writeBody machine block (machine.methodBody id)).exec ws = (.ok (), ws') ∧
      ∀ args, List.Forall₂ Param.Admits params args →
        ∃ result, callResult returnType (e.eval (paramEnv params args)) = some result ∧
          ∀ natives, ∃ n, ∀ fuel ≥ n, ∀ w,
            Loaded.call ⟨ws'.program, natives⟩ fuel id (args.map Datum.value) w = (some result, w) := by
  obtain ⟨hplain, hmeaning⟩ := e.meaning_of_isFirstOrder hfirst
  have hreach : everywhere.Suits options.maxSwitchCases := by
    intro size hsize v
    refine ⟨fun _ => rfl, fun hbounded _ hv => ?_⟩
    rw [← Bool.not_eq_true, bounded_iff] at hbounded
    omega
  obtain ⟨ws', hws', hcalls⟩ := compileMethod_calls hknows hplain hreach hcompile hmethod hkeys
  refine ⟨ws', hws', fun args hargs => ?_⟩
  rw [← hmeaning]
  exact (hcalls args hargs).2

/-- Negates or increments its first argument, but divides it by zero when the second one is 0 or 3. -/
def trapOnThree : Body where
  params := [⟨.generated 0 none, .i32⟩, ⟨.generated 1 none, .primitive .u8⟩]
  body := .letIn [(.generated 2 none, .var (.generated 1 none))] <|
    .switch (.var (.generated 2 none))
      [(CaseValues.of [0, 3], .binary .div (.var (.generated 0 none)) (.literal (.i32 0)))] <|
      .ite (.binary .lt (.var (.generated 0 none)) (.literal (.i32 0)))
        (.unary .negate (.var (.generated 0 none)))
        (.binary .add (.var (.generated 0 none)) (.literal (.i32 1)))

/-- A program whose only method waits for a body. -/
def bodilessProgram : Program where
  methods := #[{ owner := .object, name := "f", params := [.primitive .i32, .primitive .u8], ret := .primitive .i32
                 isStatic := true, isVirtual := false, kind := .defined none }]

theorem Body.trapOnThree_traps : ∃ block t,
    (trapOnThree.compileMethod { table := ∅, catalog := ∅ } {} .i32).exec { next := 3 } = (.ok block, t) ∧
    ∃ ws', (TypeDefinition.writeBody machine block (machine.methodBody ⟨0, "f"⟩)).exec ⟨bodilessProgram, ∅⟩ =
      (.ok (), ws') ∧ (∀ natives, ∃ n, ∀ fuel ≥ n, ∀ w,
        Loaded.call ⟨ws'.program, natives⟩ fuel ⟨0, "f"⟩ [.i32 7, .i32 3] w = (some (.error .divideByZero), w)) ∧
      ∀ natives, ∃ n, ∀ fuel ≥ n, ∀ w,
        Loaded.call ⟨ws'.program, natives⟩ fuel ⟨0, "f"⟩ [.i32 2147483647, .i32 1] w =
          (some (.ok (.i32 (-2147483648))), w) := by
  obtain ⟨block, t, hcompile, hkeys⟩ : ∃ block t,
      (trapOnThree.compileMethod { table := ∅, catalog := ∅ } {} .i32).exec { next := 3 } = (.ok block, t) ∧
        block.keys.isEmpty = true := ⟨_, _, rfl, rfl⟩
  let ws : Workspace machine := ⟨bodilessProgram, ∅⟩
  have hmethod : ws.program.Awaits ⟨0, "f"⟩ trapOnThree.params .i32 := ⟨by decide, rfl, rfl, rfl, rfl⟩
  have hwritten : ∀ k ∈ block.keys, ws.slots.isWritten k = true :=
    fun k hk => absurd hk (Std.TreeSet.not_mem_of_isEmpty hkeys)
  have hfirst : trapOnThree.body.isFirstOrder = true := rfl
  obtain ⟨ws', hws', hcalls⟩ := compileMethod_computes (fun _ => rfl) hfirst (by decide) hcompile hmethod hwritten
  refine ⟨block, t, hcompile, ws', hws', ?_, ?_⟩
  · obtain ⟨result, hresult, hcall⟩ := hcalls [.int .i32 7, .int .u8 3]
      (.cons ⟨nofun, rfl, rfl, by decide, by decide⟩ (.cons ⟨nofun, rfl, rfl, by decide, by decide⟩ .nil))
    cases hresult
    exact hcall
  · obtain ⟨result, hresult, hcall⟩ := hcalls [.int .i32 2147483647, .int .u8 1]
      (.cons ⟨nofun, rfl, rfl, by decide, by decide⟩ (.cons ⟨nofun, rfl, rfl, by decide, by decide⟩ .nil))
    cases hresult
    exact hcall

end Stackwright
