import Stackwright.Proofs.Proper

/-
  Stackwright.Proofs.TailCalls — which calls are tail calls.

  A call is flagged when it is lowered in tail position, and `ret` follows it there. A `ret` can
  also follow a call outside of tail position, when nothing that is left to do needs code: the
  void call is followed by empty sequences only, or the value is converted to the type that it
  has. `Expr.sites` lists the calls of an expression, in the order of the code, with the
  position of each.

  - `Lowers.opens`: what the code of an expression begins with.
  - `Lowers.marked`: the flags of the calls in lowered code and what follows them.
-/

namespace Stackwright

variable {w : Work}
variable {code : List Instr} {b : Block} {options : BuildOptions} {scope : Scope} {s t : Supply}

/-! ## Calls in code -/

/-- The tail flag of a call. -/
def Instr.tailFlag? : Instr → Option Bool
  | .call _ tail | .callVirtual _ tail | .invokeDelegate _ tail => some tail
  | _ => none

def Instr.isRet : Instr → Bool
  | .op .ret => true
  | _ => false

/-- The first instruction is `ret`. -/
def returnsAtOnce (code : List Instr) : Bool := code.head?.any Instr.isRet

theorem returnsAtOnce_iff : returnsAtOnce code ↔ code.head? = some (.op .ret) := by
  cases code with
  | nil => simp [returnsAtOnce]
  | cons i code =>
    show i.isRet = true ↔ some i = some (.op .ret)
    unfold Instr.isRet
    split <;> simp_all

/-- What can be seen of a call in code: its flag, and whether the very next instruction is `ret`. -/
structure CallMark where
  flagged : Bool
  returns : Bool
  deriving DecidableEq

/-- The calls in some code, in order. -/
def callMarks : List Instr → List CallMark
  | [] => []
  | i :: code => (i.tailFlag?.map (⟨·, returnsAtOnce code⟩)).toList ++ callMarks code

/-- No call is made, except that objects may be constructed. -/
def callsNone (code : List Instr) : Bool := code.all (·.tailFlag?.isNone)

theorem callsNone_of_isQuietCode (h : isQuietCode code) : callsNone code := by
  have hi : ∀ i : Instr, i.isQuiet → i.tailFlag?.isNone := by
    intro i hi
    cases i <;> first | rfl | cases hi
  exact List.all_eq_true.mpr fun i hmem => hi i (List.all_eq_true.mp h i hmem)

theorem callMarks_append_none (h : callsNone code) (K : List Instr) : callMarks (code ++ K) = callMarks K := by
  induction code with
  | nil => rfl
  | cons i code ih =>
    rw [callsNone, List.all_cons, Bool.and_eq_true] at h
    rw [List.cons_append, callMarks, Option.isNone_iff_eq_none.mp h.1, ih h.2]
    rfl

def Instr.isCall (i : Instr) : Bool := i.tailFlag?.isSome

theorem length_callMarks (code : List Instr) : (callMarks code).length = code.countP Instr.isCall := by
  induction code with
  | nil => rfl
  | cons i code ih =>
    rw [callMarks, List.length_append, ih, List.countP_cons, Instr.isCall]
    cases i.tailFlag? <;> simp [Nat.add_comm]

/-- A call has the number of the calls before it. -/
theorem getElem?_callMarks (before after : List Instr) {i : Instr} {flag : Bool} (hi : i.tailFlag? = some flag) :
    (callMarks (before ++ i :: after))[before.countP Instr.isCall]? = some ⟨flag, returnsAtOnce after⟩ := by
  induction before with
  | nil =>
    rw [List.nil_append, callMarks, hi]
    rfl
  | cons first before ih =>
    rw [List.cons_append, callMarks, List.countP_cons, Instr.isCall]
    cases first.tailFlag? with
    | none | some _ => simpa using ih

/-! ## Positions -/

/-- How a part of a body stands to the end of the body. -/
inductive Position where
  /-- Its value is that of the body. -/
  | tail
  /-- Its value is not that of the body, but no code is left to run after it. -/
  | passed
  | inner
  deriving DecidableEq

namespace Position

def isTail : Position → Bool
  | .tail => true
  | _ => false

def returns : Position → Bool
  | .inner => false
  | _ => true

/-- The position of a part, when the rest of the whole needs no code. -/
def pass : Position → Position
  | .inner => .inner
  | _ => .passed

/-- The position of a part that is left with a jump. -/
def branch : Position → Position
  | .tail => .tail
  | _ => .inner

def mark (options : BuildOptions) (pos : Position) : CallMark := ⟨pos.isTail && options.tailCalls, pos.returns⟩

end Position

/-- The operation changes nothing: it converts to the type of its operand. -/
def UnaryOp.keeps (op : UnaryOp) (operand : TypeRef) : Bool :=
  match op with
  | .convert target => operand == .primitive target
  | _ => false

namespace Expr

mutual
/-- The expression does nothing, and no code is made for it. -/
def isIdle : Expr → Bool
  | .seq items => allIdle items
  | .letIn [] body => isIdle body
  | _ => false

def allIdle : List Expr → Bool
  | [] => true
  | e :: es => isIdle e && allIdle es
end

/-- The expression has no value. -/
def isVoid (e : Expr) (env : TypeEnv) : Bool := (e.typeOf env).toOption.any TypeRef.isVoid

/-- The operation converts the operand to the type that it has. -/
def isConverted (op : UnaryOp) (operand : Expr) (env : TypeEnv) : Bool := (operand.typeOf env).toOption.any op.keeps

mutual
/-- The positions of the calls in an expression, in the order of the code. The bodies of lambdas are not part of it. -/
def sites : Expr → TypeEnv → Position → List Position
  | .literal _, _, _ | .var _, _, _ | .getStatic _, _, _ | .lambda _ _ _, _, _ => []
  | .assign _ value, env, _ => sites value env .inner
  | .seq items, env, pos => sitesSeq items env pos
  | .and items, env, pos => sitesOperands items env (if items.length = 1 then pos else pos.branch)
  | .or items, env, pos => sitesOperands items env (if items.length = 1 then pos else pos.branch)
  | .ite c t f, env, pos => sites c env .inner ++ sites t env pos.branch ++ sites f env pos.branch
  | .switch value cases fallback, env, pos =>
    sites value env .inner ++ sites fallback env pos.branch ++ sitesCases cases env pos.branch
  | e@(.letIn bindings body), env, pos => sitesBindings bindings env ++
    match typeBindings e [] bindings env env with
    | .ok inner => sites body inner pos
    | .error _ => []
  | .invoke function args, env, pos => sites function env .inner ++ sitesAll args env ++ [pos]
  | .binary _ left right, env, _ => sites left env .inner ++ sites right env .inner
  | .unary op operand, env, pos => sites operand env (if isConverted op operand env then pos.pass else .inner)
  | .getField target _, env, _ => sites target env .inner
  | .setField target _ value, env, _ => sites target env .inner ++ sites value env .inner
  | .setStatic _ value, env, _ => sites value env .inner
  | .new _ args, env, _ => sitesAll args env
  | .call target _ args, env, pos => sites target env .inner ++ sitesAll args env ++ [pos]
  | .callStatic _ args, env, pos => sitesAll args env ++ [pos]
termination_by structural e => e

def sitesAll : List Expr → TypeEnv → List Position
  | [], _ => []
  | e :: es, env => sites e env .inner ++ sitesAll es env
termination_by structural es => es

/-- A void item passes its position on when the items after it do nothing. -/
def sitesSeq : List Expr → TypeEnv → Position → List Position
  | [], _, _ => []
  | [e], env, pos => sites e env pos
  | e :: es, env, pos => sites e env (if e.isVoid env && allIdle es then pos.pass else .inner) ++ sitesSeq es env pos
termination_by structural es => es

/-- The position is that of the last operand. -/
def sitesOperands : List Expr → TypeEnv → Position → List Position
  | [], _, _ => []
  | [e], env, pos => sites e env pos
  | e :: es, env, pos => sites e env .inner ++ sitesOperands es env pos
termination_by structural es => es

def sitesCases : List (CaseValues × Expr) → TypeEnv → Position → List Position
  | [], _, _ => []
  | (values, e) :: cases, env, pos =>
    if values.isEmpty then sitesCases cases env pos else sites e env pos ++ sitesCases cases env pos
termination_by structural cases => cases

def sitesBindings : List (Symbol × Expr) → TypeEnv → List Position
  | [], _ => []
  | (_, value) :: bindings, env => sites value env .inner ++ sitesBindings bindings env
termination_by structural bindings => bindings
end

end Expr

/-! ## What code begins with -/

/-- The code has a first instruction, and it is not `ret`. -/
def Begins (code : List Instr) : Prop := ∃ i rest, code = i :: rest ∧ i.isRet = false

namespace Begins

variable {a b : List Instr} {i : Instr}

theorem cons (hi : i.isRet = false) : Begins (i :: a) := ⟨i, a, rfl, hi⟩

theorem append (h : Begins a) : Begins (a ++ b) := by
  obtain ⟨i, rest, rfl, hi⟩ := h
  exact ⟨i, rest ++ b, rfl, hi⟩

theorem after (ha : returnsAtOnce a = false) (hb : Begins b) : Begins (a ++ b) := by
  cases a with
  | nil => exact hb
  | cons i a => exact ⟨i, a ++ b, rfl, ha⟩

theorem runsOn (h : Begins a) : returnsAtOnce a = false := by
  obtain ⟨i, rest, rfl, hi⟩ := h
  exact hi

end Begins

theorem returnsAtOnce_append {a b : List Instr} (ha : returnsAtOnce a = false) (hb : returnsAtOnce b = false) :
    returnsAtOnce (a ++ b) = false := by
  cases a with
  | nil => exact hb
  | cons i a => exact ha

theorem Literal.begins_code (v : Literal) : Begins v.code := by
  cases v <;> exact .cons rfl

theorem begins_dispatchCode (size : Nat) (wide : Bool) (table : List Symbol) (fallback : Symbol) (s : Supply) :
    Begins (dispatchCode size wide table fallback s) := by
  unfold dispatchCode
  split
  · exact .cons rfl
  · cases wide <;> exact .cons rfl

theorem BinaryOp.begins_code (op : BinaryOp) (type : Option Primitive) : Begins (op.code type) := by
  refine .append ?_
  cases op <;> (simp only [binaryCode, negated]; repeat' split) <;> exact .cons rfl

namespace UnaryOp

variable {op : UnaryOp} {operand result : TypeRef}

theorem code_of_keeps (h : op.keeps operand) : op.code operand.primitive? = [] := by
  cases op with
  | not | negate => cases h
  | convert target =>
    obtain rfl : operand = .primitive target := by simpa [keeps] using h
    simp [code, TypeRef.primitive?]

/-- An operation that is well typed and changes something needs code. -/
theorem begins_code (hop : Expr.unaryType? op operand = some result) (h : op.keeps operand = false) :
    Begins (op.code operand.primitive?) := by
  cases op with
  | not =>
    unfold code
    simp only
    split <;> exact .cons rfl
  | negate => exact .cons rfl
  | convert target =>
    have hnumeric : target.isNumeric := by
      simp only [Expr.unaryType?] at hop
      split at hop
      · rename_i hboth
        exact (Bool.and_eq_true_iff.mp hboth).1
      · cases hop
    have hother : (operand.primitive? == some target) = false := by
      cases operand <;> simp_all [keeps, TypeRef.primitive?]
    simp only [code, hother]
    cases target <;> first | exact .cons rfl | cases hnumeric

end UnaryOp

namespace Storage

theorem begins_loadSlot : ∀ s : Storage, Begins s.loadSlot
  | .argument _ _ | .slot _ _ _ => .cons rfl
  | .field target _ _ _ => target.begins_loadSlot.append.append

theorem isRet_afterStore (s : Storage) : s.afterStore.isRet = false := by
  unfold afterStore
  split
  · rfl
  · cases s <;> rfl

theorem begins_store (s : Storage) {value : List Instr} (hvalue : returnsAtOnce value = false) :
    Begins (s.store value) := by
  have hbefore : returnsAtOnce s.beforeStore = false := by
    unfold beforeStore
    split
    · exact s.begins_loadSlot.runsOn
    · cases s with
      | field target => exact target.begins_loadSlot.append.runsOn
      | argument | slot => rfl
  rw [store, List.append_assoc]
  exact .after hbefore (.after hvalue (.cons s.isRet_afterStore))

end Storage

/-! ## What lowered code begins with -/

namespace Expr

mutual
theorem type_of_isIdle : ∀ (e : Expr) {env : TypeEnv} {type : TypeRef}, Typed env (.expr e type) → e.isIdle →
    type = .void
  | .seq es, env, type, h, hidle => by
    cases h with
    | seq h => exact type_of_allIdle es h hidle
  | .letIn [] body, env, type, h, hidle => by
    cases h with
    | letIn _ hbody => exact type_of_isIdle body hbody hidle
  | .letIn (_ :: _) _, _, _, _, h => by simp [isIdle] at h
  | .literal _, _, _, _, h | .var _, _, _, _, h | .assign _ _, _, _, _, h | .and _, _, _, _, h | .or _, _, _, _, h
  | .ite _ _ _, _, _, _, h | .switch _ _ _, _, _, _, h | .lambda _ _ _, _, _, _, h
  | .invoke _ _, _, _, _, h | .binary _ _ _, _, _, _, h | .unary _ _, _, _, _, h | .getField _ _, _, _, _, h
  | .getStatic _, _, _, _, h | .setField _ _ _, _, _, _, h | .setStatic _ _, _, _, _, h | .new _ _, _, _, _, h
  | .call _ _ _, _, _, _, h | .callStatic _ _, _, _, _, h => by simp [isIdle] at h

theorem type_of_allIdle : ∀ (es : List Expr) {env : TypeEnv} {type : TypeRef}, Typed env (.seq es .void type) →
    allIdle es → type = .void
  | [], env, type, h, _ => by
    cases h
    rfl
  | e :: es, env, type, h, hidle => by
    rw [allIdle, Bool.and_eq_true] at hidle
    cases h with
    | seqCons he hes =>
      cases type_of_isIdle e he hidle.1
      exact type_of_allIdle es hes hidle.2
end

/-- What has a value is not idle. -/
theorem isIdle_of_ne_void {e : Expr} {env : TypeEnv} {type : TypeRef} (h : Typed env (.expr e type))
    (htype : type ≠ .void) :
    e.isIdle = false := by
  rw [Bool.eq_false_iff]
  exact fun hidle => htype (type_of_isIdle e h hidle)

end Expr

/-- The code of what is idle is a `ret` where one is due; other code begins with something else. -/
def Opens (idle tail : Bool) (code : List Instr) : Prop := if idle then code = retIf tail else Begins code

theorem Opens.runsOn {idle : Bool} (h : Opens idle false code) : returnsAtOnce code = false := by
  cases idle with
  | true =>
    rw [Opens, if_pos rfl] at h
    rw [h]
    rfl
  | false => exact Begins.runsOn h

def Work.Opens (env : TypeEnv) (code : List Instr) : Work → Prop
  | .expr e tail => ∀ t, Typed env (.expr e t) → Stackwright.Opens e.isIdle tail code
  | .all es => ∀ params, Typed env (.args es params) → returnsAtOnce code = false
  | .seq es tail => ∀ last t, Typed env (.seq es last t) → Stackwright.Opens (Expr.allIdle es) tail code
  | .shortCircuit _ es _ => Typed env (.bools es) → Begins code
  | .bindings _ bs inner _ => ∀ seen types, Typed env (.bindings seen bs inner.types types) →
      Stackwright.Opens bs.isEmpty false code
  | .operands _ _ _ _ | .cases _ _ _ _ => True

theorem Lowers.opens (h : Lowers options w scope s b t) : w.Opens scope.types b.code := by
  induction h with
  | @literal v tail scope s => exact fun _ _ => v.begins_code.append
  | @var x tail scope s storage hx => exact fun _ _ => storage.begins_loadSlot.append.append
  | @assign x e tail scope s storage v s₁ hx _ ih =>
    intro t ht
    cases ht with
    | assign _ he _ => exact (storage.begins_store (ih _ he).runsOn).append
  | seq _ ih =>
    intro t ht
    cases ht with
    | seq hes =>
      rw [Expr.isIdle]
      exact ih _ _ hes
  | and _ ih =>
    intro t ht
    cases ht with
    | and hes => exact ih hes
  | or _ ih =>
    intro t ht
    cases ht with
    | or hes => exact ih hes
  | ite _ _ _ ihc iht ihf =>
    intro t ht
    cases ht with
    | ite hc _ _ => exact (Begins.after (ihc _ hc).runsOn (.cons rfl)).append.append.append.append
  | @switch value cases fallback tail scope s type v s₁ fb s₅ cb s₆ claims size n s₂ s₃ dispatch _ _ _ _ _ _ _
    _ hdispatch _ _
      ihvalue ihfallback ihcases =>
    intro t ht
    cases ht with
    | switch hvalue _ _ _ =>
      subst hdispatch
      exact (Begins.after (ihvalue _ hvalue).runsOn (begins_dispatchCode ..).append).append.append.append.append
  | @letIn bs body tail scope inner s vb s₁ b s₂ hbindings _ ihbs ihbody =>
    intro t ht
    cases ht with
    | letIn hbs hbody =>
      cases bs with
      | nil =>
        cases hbindings
        cases hbs
        rw [Expr.isIdle]
        exact ihbody _ hbody
      | cons b bs => exact Begins.append (ihbs _ _ hbs)
  | @lambda x ps body tail scope s delegate cells types htype hcells =>
    intro t ht
    obtain ⟨storages, -, rfl, -⟩ := forall₂_of_captureCells hcells
    refine (Begins.after ?_ (.cons rfl)).append
    cases storages with
    | nil => rfl
    | cons storage storages => exact storage.begins_loadSlot.append.runsOn
  | invoke _ _ _ ihf ihargs =>
    intro t ht
    cases ht with
    | invoke hf hargs => exact .after (returnsAtOnce_append (ihf _ hf).runsOn (ihargs _ hargs)) (.cons rfl)
  | @binary op _ _ tail _ _ type _ _ _ _ _ _ _ ihl ihr =>
    intro t ht
    cases ht with
    | binary hl hr _ =>
      exact .after (returnsAtOnce_append (ihl _ hl).runsOn (ihr _ hr).runsOn) (op.begins_code type.primitive?).append
  | @unary op operand tail _ _ type _ _ _ _ ih =>
    intro t ht
    cases ht with
    | unary hoperand hop =>
      have hbegins := ih _ hoperand
      rw [Expr.isIdle_of_ne_void hoperand (Expr.ne_void_of_unaryType hop).1] at hbegins
      exact Begins.append hbegins
  | getField _ ih =>
    intro t ht
    cases ht with
    | getField _ _ htarget _ => exact .after (ih _ htarget).runsOn (.cons rfl)
  | getStatic => exact fun _ _ => .cons rfl
  | setField _ _ iht ihv =>
    intro t ht
    cases ht with
    | setField _ _ htarget _ hvalue _ =>
      exact .after (returnsAtOnce_append (iht _ htarget).runsOn (ihv _ hvalue).runsOn) (.cons rfl)
  | setStatic _ ih =>
    intro t ht
    cases ht with
    | setStatic _ _ hvalue _ => exact .after (ih _ hvalue).runsOn (.cons rfl)
  | new _ ih =>
    intro t ht
    cases ht with
    | new _ _ hargs => exact .after (ih _ hargs) (.cons rfl)
  | call _ _ iht ihargs =>
    intro t ht
    cases ht with
    | call _ _ htarget _ hargs =>
      exact .after (returnsAtOnce_append (iht _ htarget).runsOn (ihargs _ hargs)) (.cons rfl)
  | callStatic _ ih =>
    intro t ht
    cases ht with
    | callStatic _ _ hargs => exact .after (ih _ hargs) (.cons rfl)
  | allNil => exact fun _ _ => rfl
  | allCons _ _ ihe ihes =>
    intro params ht
    cases ht with
    | argsCons he _ hes => exact returnsAtOnce_append (ihe _ he).runsOn (ihes _ hes)
  | seqNil | bindingsNil => exact fun _ _ _ => rfl
  | seqLast _ ih =>
    intro last t ht
    cases ht with
    | seqCons he _ =>
      rw [Expr.allIdle, Expr.allIdle, Bool.and_true]
      exact ih _ he
  | @seqCons e next es tail scope s type b s₁ rest s₂ htype _ _ ihe ihrest =>
    intro last t ht
    cases ht with
    | seqCons he hes =>
      cases Except.ok.inj ((Typed.iff_typeOf.mpr he).symm.trans htype)
      have hfirst := ihe _ he
      have hothers := ihrest _ _ hes
      rw [Expr.allIdle]
      cases hidle : e.isIdle with
      | true =>
        rw [hidle] at hfirst
        cases Expr.type_of_isIdle e he hidle
        have hnone : b.code = [] := hfirst
        show Opens _ tail (b.code ++ [] ++ rest.code)
        rw [hnone]
        exact hothers
      | false =>
        rw [hidle] at hfirst
        exact (Begins.append hfirst).append
  | shortNil => exact fun _ => .cons rfl
  | @shortLast isOr e _ _ _ _ _ _ ih =>
    intro ht
    cases ht with
    | boolsCons he _ =>
      have hbegins := ih _ he
      rw [Expr.isIdle_of_ne_void he nofun] at hbegins
      exact hbegins
  | @shortCons isOr e next es tail scope s b s₁ rest s₂ _ _ ihe ihrest =>
    intro ht
    cases ht with
    | boolsCons he _ => exact (Begins.after (ihe _ he).runsOn (.cons rfl)).append.append
  | operandsNil | operandsLast | operandsCons | casesNil | casesUnlabelled | casesDropped | casesCons => trivial
  | @bindingsCons usages x value bs scope inner result s type v s₁ b s₂ boxed _ _ _ _ ihv ihbs =>
    intro seen types ht
    cases ht with
    | bindingsCons _ hvalue _ _ =>
      refine (Begins.after (ihv _ hvalue).runsOn ?_).append
      cases boxed <;> exact .cons rfl

/-! ## Calls in lowered code -/

/-- The position fits code that is lowered with the flag `tail` and followed by `K`. -/
structure Position.Fits (pos : Position) (tail : Bool) (K : List Instr) : Prop where
  flag : pos.isTail = tail
  next : returnsAtOnce (retIf tail ++ K) = pos.returns

namespace Position.Fits

variable {pos : Position} {tail : Bool} {K after : List Instr}

theorem inner (h : returnsAtOnce K = false) : Position.inner.Fits false K := ⟨rfl, h⟩

/-- A part that is not in tail position, when no other code comes before the end of the whole. -/
theorem pass (h : pos.Fits tail K) : pos.pass.Fits false (retIf tail ++ K) where
  flag := by cases pos <;> rfl
  next := by
    refine h.next.trans ?_
    cases pos <;> rfl

/-- A part with the flag of the whole, when it is left with a jump outside of tail position. -/
theorem branch (hflag : pos.isTail = tail) (hafter : tail = false → returnsAtOnce after = false) :
    pos.branch.Fits tail after := by
  cases pos with
  | tail =>
    cases hflag
    exact ⟨rfl, rfl⟩
  | passed | inner =>
    cases hflag
    exact ⟨rfl, hafter rfl⟩

end Position.Fits

/-- Before `K`, the calls in the code stand at the given positions. -/
def Lists (options : BuildOptions) (code : List Instr) (sites : List Position) (K : List Instr) : Prop :=
  callMarks (code ++ K) = sites.map (·.mark options) ++ callMarks K

namespace Lists

variable {options : BuildOptions} {a b K : List Instr} {ps qs : List Position} {pos : Position} {tail : Bool}

theorem none (h : callsNone a) : Lists options a [] K := callMarks_append_none h K

theorem append (ha : Lists options a ps (b ++ K)) (hb : Lists options b qs K) :
    Lists options (a ++ b) (ps ++ qs) K := by
  unfold Lists at *
  rw [List.append_assoc, ha, hb, List.map_append, List.append_assoc]

/-- Code without calls comes before. -/
theorem before (ha : callsNone a) (hb : Lists options b ps K) : Lists options (a ++ b) ps K := (none ha).append hb

/-- Code without calls comes after. -/
theorem followed (ha : Lists options a ps (b ++ K)) (hb : callsNone b) : Lists options (a ++ b) ps K := by
  have h := ha.append (none hb)
  rwa [List.append_nil] at h

theorem whole (h : Lists options a ps []) : callMarks a = ps.map (·.mark options) := by
  rw [Lists, List.append_nil] at h
  exact h.trans (List.append_nil _)

/-- A call that is lowered with the flag `tail` and its `ret`. -/
theorem call {i : Instr} (hi : i.tailFlag? = some (tail && options.tailCalls)) (h : pos.Fits tail K) :
    Lists options (i :: retIf tail) [pos] K := by
  have hret : callsNone (retIf tail) := callsNone_of_isQuietCode (isQuietCode_retIf tail)
  rw [Lists, List.cons_append, callMarks, hi, callMarks_append_none hret, h.next, ← h.flag]
  rfl

end Lists

/-- The scope that bindings lead to has the types that they were checked with. -/
theorem Lowers.types_of_bindings {options : BuildOptions} {usages : Usages} {scope outcome : Scope} {types : TypeEnv} :
    ∀ {bs : List (Symbol × Expr)} {seen : List Symbol} {inner : Scope} {s t : Supply} {b : Block},
      Lowers options (.bindings usages bs inner outcome) scope s b t →
      Typed scope.types (.bindings seen bs inner.types types) → outcome.types = types
  | [], _, _, _, _, _, h, ht => by
    cases h
    cases ht
    rfl
  | _ :: _, _, _, _, _, _, h, ht => by
    cases h with
    | bindingsCons htype _ _ hrest =>
      cases ht with
      | bindingsCons _ hvalue _ hbs =>
        cases Except.ok.inj ((Typed.iff_typeOf.mpr hvalue).symm.trans htype)
        exact types_of_bindings hrest hbs

/-- The calls in the code of a piece of work stand where its expressions have them. -/
def Work.Marked (options : BuildOptions) (env : TypeEnv) (code : List Instr) : Work → Prop
  | .expr e tail =>
    ∀ t, Typed env (.expr e t) → ∀ (pos : Position) K, pos.Fits tail K → Lists options code (e.sites env pos) K
  | .all es => ∀ params, Typed env (.args es params) → ∀ K, returnsAtOnce K = false →
      Lists options code (Expr.sitesAll es env) K
  | .seq es tail => ∀ last t, Typed env (.seq es last t) → ∀ (pos : Position) K, pos.Fits tail K →
      Lists options code (Expr.sitesSeq es env pos) K
  | .shortCircuit _ es tail => Typed env (.bools es) → ∀ (pos : Position) K, pos.Fits tail K →
      Lists options code (Expr.sitesOperands es env (if es.length = 1 then pos else pos.branch)) K
  | .operands _ _ es tail => Typed env (.bools es) → ∀ (pos : Position) K, pos.Fits tail K →
      Lists options code (Expr.sitesOperands es env pos) K
  | .cases cs labels leave tail =>
    ∀ t, Typed env (.cases cs t) → cs.length = labels.length → ∀ s, leave = leaveTo tail s →
      ∀ pos : Position, pos.isTail = tail → ∀ K, Lists options code (Expr.sitesCases cs env pos.branch) K
  | .bindings _ bs inner _ => ∀ seen types, Typed env (.bindings seen bs inner.types types) → ∀ K,
      Lists options code (Expr.sitesBindings bs env) K

theorem Lowers.marked (h : Lowers options w scope s b t) : w.Marked options scope.types b.code := by
  have hret (tail : Bool) : callsNone (retIf tail) = true := callsNone_of_isQuietCode (isQuietCode_retIf tail)
  have hthen {i : Instr} (hi : i.tailFlag? = none) (tail : Bool) : callsNone (i :: retIf tail) = true := by
    rw [callsNone, List.all_cons, hi]
    exact hret tail
  have hsimple {code : List Instr} (h : isSimpleCode code = true) : callsNone code = true :=
    callsNone_of_isQuietCode (isQuietCode_of_isSimpleCode h)
  induction h with
  | @literal v tail scope s =>
    intro t ht pos K hpos
    exact .none (callsNone_of_isQuietCode (by simp [isQuietCode_of_isSimpleCode v.isSimpleCode_code]))
  | @var x tail scope s storage hx =>
    intro t ht pos K hpos
    exact .none (callsNone_of_isQuietCode (by simp [storage.isQuietCode_fetch]))
  | @assign x e tail scope s storage v s₁ hx _ ih =>
    intro t ht pos K hpos
    cases ht with
    | assign _ he _ =>
      rw [Expr.sites]
      have hstore : callsNone [storage.afterStore] = true := callsNone_of_isQuietCode
        (by simp [storage.isQuiet_afterStore])
      refine .followed (.followed (.before (callsNone_of_isQuietCode storage.isQuietCode_beforeStore) ?_) hstore)
        (hret tail)
      exact ih _ he .inner _ (.inner storage.isRet_afterStore)
  | seq _ ih =>
    intro t ht pos K hpos
    cases ht with
    | seq hes =>
      rw [Expr.sites]
      exact ih _ _ hes pos K hpos
  | and _ ih =>
    intro t ht pos K hpos
    cases ht with
    | and hes =>
      rw [Expr.sites]
      exact ih hes pos K hpos
  | or _ ih =>
    intro t ht pos K hpos
    cases ht with
    | or hes =>
      rw [Expr.sites]
      exact ih hes pos K hpos
  | @ite c t f tail scope s cb s₁ tb s₂ fb s₃ _ _ _ ihc iht ihf =>
    intro type ht pos K hpos
    cases ht with
    | ite hc ht hf =>
      rw [Expr.sites]
      refine .followed (.append (.followed (.append (.followed ?_ rfl) ?_) (hsimple (by simp [Instr.isSimple]))) ?_)
        (hsimple (by simp))
      · exact ihc _ hc .inner _ (.inner rfl)
      · exact iht _ ht _ _ (.branch hpos.flag fun hinner => by cases hinner; rfl)
      · exact ihf _ hf _ _ (.branch hpos.flag fun hinner => by cases hinner; rfl)
  | @switch value cases fallback tail scope s type v s₁ fb s₅ cb s₆ claims size n s₂ s₃ dispatch _ _ hlength _ _ _ _
    _ hdispatch _ _
      ihvalue ihfallback ihcases =>
    intro t ht pos K hpos
    cases ht with
    | switch hvalue _ hfallback hcases =>
      rw [Expr.sites]
      subst hdispatch
      refine .followed (.append (.followed (.append (.followed ?_ ?_) ?_) (hsimple (by simp))) ?_) (hsimple (by simp))
      · exact ihvalue _ hvalue .inner _ (.inner (begins_dispatchCode ..).append.append.runsOn)
      · exact hsimple (by simp [isSimpleCode_dispatchCode, Instr.isSimple])
      · exact ihfallback _ hfallback _ _ (.branch hpos.flag fun hinner => by cases hinner; rfl)
      · exact ihcases _ hcases (by simp [hlength]) s₃ rfl pos hpos.flag _
  | @letIn bs body tail scope inner s vb s₁ b s₂ hbindings _ ihbs ihbody =>
    intro t ht pos K hpos
    cases ht with
    | letIn hbs hbody =>
      have htypes := hbindings.types_of_bindings hbs
      subst htypes
      rw [Expr.sites, hbs.accepted (.letIn bs body)]
      exact (ihbs _ _ hbs _).append (ihbody _ hbody pos K hpos)
  | @lambda x ps body tail scope s delegate cells types htype hcells =>
    intro t ht pos K hpos
    obtain ⟨storages, -, rfl, -⟩ := forall₂_of_captureCells hcells
    have hcode := callsNone_of_isQuietCode (Storage.isQuietCode_cells storages)
    exact ((Lists.none hcode).followed rfl).followed (hret tail)
  | @invoke function args tail scope s delegate f s₁ as s₂ _ _ hlargs ihf ihargs =>
    intro t ht pos K hpos
    cases ht with
    | invoke hf hargs =>
      rw [Expr.sites]
      refine .append (.append ?_ (ihargs _ hargs _ rfl)) (.call rfl hpos)
      exact ihf _ hf .inner _ (.inner (returnsAtOnce_append (hlargs.opens _ hargs) rfl))
  | @binary op left right tail scope s type l s₁ r s₂ _ _ hr ihl ihr =>
    intro t ht pos K hpos
    cases ht with
    | binary hleft hright _ =>
      rw [Expr.sites]
      have hop : Begins (op.code type.primitive? ++ retIf tail) := (op.begins_code type.primitive?).append
      refine .followed (.append ?_ ?_) (hsimple (by simp [op.isSimpleCode_code]))
      · exact ihl _ hleft .inner _ (.inner (returnsAtOnce_append (hr.opens _ hright).runsOn hop.append.runsOn))
      · exact ihr _ hright .inner _ (.inner hop.append.runsOn)
  | @unary op operand tail scope s type v s₁ htype _ ih =>
    intro t ht pos K hpos
    cases ht with
    | unary hoperand hop =>
      cases Except.ok.inj ((Typed.iff_typeOf.mpr hoperand).symm.trans htype)
      refine .followed ?_ (hsimple (by simp [op.isSimpleCode_code]))
      have hconverted : Expr.isConverted op operand scope.types = op.keeps type := by
        rw [Expr.isConverted, htype]
        rfl
      rw [Expr.sites, hconverted]
      refine ih _ hoperand _ _ ?_
      cases hkeeps : op.keeps type with
      | true => exact (op.code_of_keeps hkeeps).symm ▸ hpos.pass
      | false => exact .inner (UnaryOp.begins_code hop hkeeps).append.append.runsOn
  | getField _ ih =>
    intro t ht pos K hpos
    cases ht with
    | getField _ _ htarget _ =>
      rw [Expr.sites]
      exact .followed (ih _ htarget .inner _ (.inner rfl)) (hthen rfl _)
  | getStatic => exact fun _ _ _ _ _ => .none (hthen rfl _)
  | setField _ hvalue iht ihv =>
    intro t ht pos K hpos
    cases ht with
    | setField _ _ htarget _ hstored _ =>
      rw [Expr.sites]
      refine .followed (.append ?_ ?_) (hthen rfl _)
      · exact iht _ htarget .inner _ (.inner (returnsAtOnce_append (hvalue.opens _ hstored).runsOn rfl))
      · exact ihv _ hstored .inner _ (.inner rfl)
  | setStatic _ ih =>
    intro t ht pos K hpos
    cases ht with
    | setStatic _ _ hvalue _ =>
      rw [Expr.sites]
      exact .followed (ih _ hvalue .inner _ (.inner rfl)) (hthen rfl _)
  | new _ ih =>
    intro t ht pos K hpos
    cases ht with
    | new _ _ hargs =>
      rw [Expr.sites]
      exact .followed (ih _ hargs _ rfl) (hthen rfl _)
  | call _ hlargs iht ihargs =>
    intro t ht pos K hpos
    cases ht with
    | call _ _ htarget _ hargs =>
      rw [Expr.sites]
      refine .append (.append ?_ (ihargs _ hargs _ rfl)) (.call rfl hpos)
      exact iht _ htarget .inner _ (.inner (returnsAtOnce_append (hlargs.opens _ hargs) rfl))
  | callStatic _ ih =>
    intro t ht pos K hpos
    cases ht with
    | callStatic _ _ hargs =>
      rw [Expr.sites]
      exact .append (ih _ hargs _ rfl) (.call rfl hpos)
  | allNil | operandsNil | bindingsNil => exact fun _ _ _ _ => .none rfl
  | allCons _ hes ihe ihes =>
    intro params ht K hK
    cases ht with
    | argsCons he _ hargs =>
      rw [Expr.sitesAll]
      exact .append (ihe _ he .inner _ (.inner (returnsAtOnce_append (hes.opens _ hargs) hK))) (ihes _ hargs K hK)
  | seqNil => exact fun _ _ _ _ _ _ => .none (hret _)
  | seqLast _ ih =>
    intro last t ht pos K hpos
    cases ht with
    | seqCons he _ =>
      rw [Expr.sitesSeq]
      exact ih _ he pos K hpos
  | @seqCons e next es tail scope s type b s₁ rest s₂ htype _ hrest ihe ihrest =>
    intro last t ht pos K hpos
    cases ht with
    | seqCons he hes =>
      cases Except.ok.inj ((Typed.iff_typeOf.mpr he).symm.trans htype)
      have hvoid : e.isVoid scope.types = type.isVoid := by
        rw [Expr.isVoid, htype]
        rfl
      rw [Expr.sitesSeq, hvoid]
      · refine .append (.followed (ihe _ he _ _ ?_) (by cases type.isVoid <;> rfl)) (ihrest _ _ hes pos K hpos)
        have hopens := hrest.opens _ _ hes
        cases type.isVoid with
        | false => exact .inner rfl
        | true =>
          cases hidle : Expr.allIdle (next :: es) with
          | true =>
            rw [hidle] at hopens
            have hcode : rest.code = retIf tail := hopens
            show pos.pass.Fits false (rest.code ++ K)
            rw [hcode]
            exact hpos.pass
          | false =>
            rw [hidle] at hopens
            exact .inner (Begins.append hopens).runsOn
      · simp
  | shortNil => exact fun _ _ _ _ => .none (hthen rfl _)
  | @shortLast isOr e _ _ _ _ _ _ ih | operandsLast _ ih =>
    intro ht pos K hpos
    cases ht with
    | boolsCons he _ =>
      rw [Expr.sitesOperands]
      exact ih _ he pos K hpos
  | @shortCons isOr e next es tail scope s b s₁ rest s₂ _ _ ihe ihrest =>
    intro ht pos K hpos
    cases ht with
    | boolsCons he hes =>
      have hmany : (e :: next :: es).length ≠ 1 := by simp
      rw [if_neg hmany, Expr.sitesOperands]
      · refine .followed (.append (.followed (ihe _ he .inner _ (.inner rfl)) rfl) ?_)
          (hsimple (by simp [Instr.isSimple]))
        exact ihrest hes pos.branch _ (.branch hpos.flag fun hinner => by cases hinner; rfl)
      · simp
  | operandsCons _ _ ihe ihrest =>
    intro ht pos K hpos
    cases ht with
    | boolsCons he hes =>
      rw [Expr.sitesOperands]
      · exact .append (.followed (ihe _ he .inner _ (.inner rfl)) rfl) (ihrest hes pos K hpos)
      · simp
  | casesNil => exact fun _ _ _ _ _ _ _ _ => .none rfl
  | casesUnlabelled => exact fun _ _ hlength => by cases hlength
  | casesDropped hempty _ ih =>
    intro t ht hlength s hleave pos hflag K
    cases ht with
    | casesCons _ hcs =>
      rw [Expr.sitesCases, if_pos hempty]
      exact ih _ hcs (Nat.succ.inj hlength) s hleave pos hflag K
  | @casesCons values e cs label labels leave tail scope s b s₁ rest s₂ hempty _ _ ihe ihrest =>
    intro t ht hlength s hleave pos hflag K
    cases ht with
    | casesCons he hcs =>
      rw [Expr.sitesCases, if_neg (by simp [hempty])]
      subst hleave
      have hrest := ihrest _ hcs (Nat.succ.inj hlength) s rfl pos hflag K
      refine .append (.followed (.before rfl ?_) (hsimple (by simp))) hrest
      exact ihe _ he _ _ (.branch hflag fun hinner => by cases hinner; rfl)
  | @bindingsCons usages x value bs scope inner result s type v s₁ b s₂ boxed htype _ _ _ ihv ihbs =>
    intro seen types ht K
    cases ht with
    | bindingsCons _ hvalue _ hbs =>
      cases Except.ok.inj ((Typed.iff_typeOf.mpr hvalue).symm.trans htype)
      rw [Expr.sitesBindings]
      refine .append (.followed (.before rfl ?_) (by cases boxed <;> rfl)) (ihbs _ _ hbs K)
      exact ihv _ hvalue .inner _ (.inner (by cases boxed <;> rfl))

/-! ## Bodies -/

/-- No call is flagged. -/
def Unflagged (code : List Instr) : Prop := ∀ i ∈ code, i.tailFlag? ≠ some true

namespace Unflagged

variable {a b : List Instr}

theorem append (ha : Unflagged a) (hb : Unflagged b) : Unflagged (a ++ b) := List.forall_mem_append.mpr ⟨ha, hb⟩

theorem none (h : callsNone a) : Unflagged a := by
  intro i hi hflag
  have hnone := List.all_eq_true.mp h i hi
  rw [hflag] at hnone
  cases hnone

theorem quiet (h : isQuietCode a) : Unflagged a := none (callsNone_of_isQuietCode h)

theorem simple (h : isSimpleCode a = true) : Unflagged a := quiet (isQuietCode_of_isSimpleCode h)

theorem single {i : Instr} (hi : i.tailFlag? ≠ some true) : Unflagged [i] := List.forall_mem_singleton.mpr hi

end Unflagged

/-- A piece of work outside of tail position. -/
def Work.IsInner : Work → Prop
  | .expr _ tail | .seq _ tail | .shortCircuit _ _ tail | .operands _ _ _ tail => tail = false
  | .cases _ _ leave tail => tail = false ∧ Unflagged leave
  | .all _ | .bindings .. => True

/-- Outside of tail position no call is flagged. -/
theorem Lowers.unflagged (h : Lowers options w scope s b t) (hw : w.IsInner) : Unflagged b.code := by
  have hret : Unflagged (retIf false) := .quiet rfl
  have hone {i : Instr} (hi : i.tailFlag? ≠ some true) : Unflagged (i :: retIf false) := .single hi
  have hleave (s : Supply) : Unflagged (leaveTo false s) := .simple rfl
  induction h with
  | @literal v =>
    cases hw
    exact .append (.simple v.isSimpleCode_code) hret
  | @var x tail scope s storage =>
    cases hw
    exact .append (.quiet storage.isQuietCode_fetch) hret
  | @assign x e tail scope s storage v s₁ _ _ ih =>
    cases hw
    have hafter : Unflagged [storage.afterStore] := .quiet (by simp [storage.isQuiet_afterStore])
    exact (((Unflagged.quiet storage.isQuietCode_beforeStore).append (ih rfl)).append hafter).append hret
  | seq _ ih | and _ ih | or _ ih | seqLast _ ih | shortLast _ ih | operandsLast _ ih | casesDropped _ _ ih =>
    exact ih hw
  | ite _ _ _ hc ht hf =>
    cases hw
    exact (((((hc rfl).append (.simple rfl)).append (ht rfl)).append ((hleave _).append (.simple rfl))).append
      (hf rfl)).append
      (.simple rfl)
  | switch _ _ _ _ _ _ _ _ hdispatch _ _ hv hf hc =>
    cases hw
    subst hdispatch
    exact (((((hv rfl).append ((Unflagged.simple (isSimpleCode_dispatchCode ..)).append (.simple rfl))).append
      (hf rfl)).append
      (hleave _)).append (hc ⟨rfl, hleave _⟩)).append (.simple rfl)
  | letIn _ _ hb hbody => exact (hb trivial).append (hbody hw)
  | lambda _ hcells =>
    cases hw
    obtain ⟨storages, -, rfl, -⟩ := forall₂_of_captureCells hcells
    exact ((Unflagged.quiet (Storage.isQuietCode_cells storages)).append (.none rfl)).append hret
  | invoke _ _ _ hf hs | call _ _ hf hs =>
    cases hw
    exact ((hf rfl).append (hs trivial)).append (hone (by simp [Instr.tailFlag?]))
  | @binary op _ _ _ _ _ type _ _ _ _ _ _ _ hl hr =>
    cases hw
    exact ((hl rfl).append (hr rfl)).append (.append (.simple (op.isSimpleCode_code _)) hret)
  | @unary op _ _ _ _ type _ _ _ _ ih =>
    cases hw
    exact (ih rfl).append (.append (.simple (op.isSimpleCode_code _)) hret)
  | getStatic | seqNil | shortNil =>
    cases hw
    exact .quiet rfl
  | getField _ ih | setStatic _ ih =>
    cases hw
    exact (ih rfl).append (.quiet rfl)
  | setField _ _ ht hv =>
    cases hw
    exact ((ht rfl).append (hv rfl)).append (.quiet rfl)
  | new _ ih =>
    cases hw
    exact (ih trivial).append (.none rfl)
  | callStatic _ ih =>
    cases hw
    exact (ih trivial).append (hone (by simp [Instr.tailFlag?]))
  | allNil | operandsNil | casesNil | casesUnlabelled | bindingsNil => exact .quiet rfl
  | allCons _ _ he hes => exact (he rfl).append (hes trivial)
  | seqCons _ _ _ he hes => exact ((he rfl).append (.quiet (by split <;> rfl))).append (hes hw)
  | shortCons _ _ he hes =>
    cases hw
    exact (((he rfl).append (.simple rfl)).append (hes rfl)).append (.simple (by simp [Instr.isSimple]))
  | operandsCons _ _ he hes => exact ((he rfl).append (.simple rfl)).append (hes hw)
  | casesCons _ _ _ he hcs => exact ((Unflagged.append (.simple rfl) (he hw.1)).append hw.2).append (hcs hw)
  | bindingsCons _ _ _ _ hv hbs =>
    refine ((hv rfl).append (.quiet ?_)).append (hbs trivial)
    rw [Block.ofCode_code]
    split <;> rfl

namespace Body

variable {body : Body} {h : Hierarchy} {options : BuildOptions} {s t : Supply} {b : Block}

/-- The positions of the calls in the code of a method. A void method drops the value of its body, which is then not in
    tail position. -/
def callSites (body : Body) (h : Hierarchy) (returnType : TypeRef) : List Position :=
  let env := body.typeEnv h
  body.body.sites env (if returnType.isVoid && !body.body.isVoid env then .inner else .tail)

theorem callMarks_compileMethod {returnType : TypeRef} (hc : (body.compileMethod h options returnType).exec s =
      (.ok b, t)) :
    callMarks b.code = (body.callSites h returnType).map (·.mark options) := by
  obtain ⟨start, scope, s₁, type, code, henter, htype, hcode⟩ := of_compileMethod hc
  obtain ⟨outer, hparams, -⟩ := of_enter henter
  have hstart := callsNone_of_isQuietCode hparams.isQuietCode
  have htyped := Typed.iff_typeOf.mp htype
  have hvoid : body.body.isVoid scope.types = type.isVoid := by
    rw [Expr.isVoid, htype]
    rfl
  rw [callSites, ← (enter_types henter).1, hvoid]
  rcases hcode with ⟨hreturn, hvalue, hlowers, rfl⟩ | ⟨hreturn, -, hlowers, rfl⟩
  · rw [hreturn, hvalue]
    refine Lists.whole (.followed (.before hstart ?_) rfl)
    exact hlowers.marked _ htyped .inner _ (.inner rfl)
  · have hkept : (returnType.isVoid && !type.isVoid) = false := by
      cases hr : returnType.isVoid with
      | false => rfl
      | true => simp [hreturn hr]
    rw [hkept]
    exact Lists.whole (.before hstart (hlowers.marked _ htyped .tail [] ⟨rfl, rfl⟩))

theorem unflagged_compileConstructor {base : BaseCall} (hc : (body.compileConstructor h options base).exec s =
      (.ok b, t)) :
    Unflagged b.code := by
  obtain ⟨this, params, start, scope, s₁, type, storage, args, s₂, code, -, henter, -, -, -, -, -, hargs, hcode, rfl⟩ :=
    of_compileConstructor hc
  obtain ⟨outer, hparams, -⟩ := of_enter henter
  have hstart := Unflagged.quiet hparams.isQuietCode
  have hend : Unflagged (if type.isVoid then [.op .ret] else [.op .pop, .op .ret]) := .quiet (by split <;> rfl)
  exact ((((hstart.append (.quiet storage.isQuietCode_fetch)).append (hargs.unflagged trivial)).append
    (.none rfl)).append
    (hcode.unflagged rfl)).append hend

/-- In the code of a method a call is flagged as tail call exactly when tail calls are wanted, the very next
    instruction is `ret`, and its position was not only passed on to it; and `ret` comes next exactly after the calls
    in tail position and those that it was passed on to. In the code of a constructor no call is flagged. -/
theorem tail_flags_are_exact (body : Body) (h : Hierarchy) (options : BuildOptions) :
    (∀ returnType s b t, (body.compileMethod h options returnType).exec s = (.ok b, t) →
      (body.callSites h returnType).length = b.code.countP Instr.isCall ∧
      ∀ before i after flag, b.code = before ++ i :: after → i.tailFlag? = some flag →
        ∃ pos, (body.callSites h returnType)[before.countP Instr.isCall]? = some pos ∧
          (flag = true ↔ options.tailCalls = true ∧ after.head? = some (.op .ret) ∧ pos ≠ .passed) ∧
          (after.head? = some (.op .ret) ↔ pos ≠ .inner)) ∧
    ∀ base s b t, (body.compileConstructor h options base).exec s = (.ok b, t) →
      ∀ i ∈ b.code, i.tailFlag? ≠ some true := by
  constructor
  · intro returnType s b t hc
    have hmarks := callMarks_compileMethod hc
    constructor
    · rw [← length_callMarks, hmarks, List.length_map]
    · intro before i after flag hcode hi
      have hmark := getElem?_callMarks before after hi
      rw [← hcode, hmarks, List.getElem?_map] at hmark
      obtain ⟨pos, hpos, hsame⟩ := Option.map_eq_some_iff.mp hmark
      obtain ⟨hflag, hnext⟩ := CallMark.mk.inj hsame
      refine ⟨pos, hpos, ?_⟩
      rw [← returnsAtOnce_iff, ← hnext, ← hflag]
      cases pos <;> simp [Position.isTail, Position.returns]
  · exact fun _ _ _ _ hc => unflagged_compileConstructor hc

/-- A line is written. -/
def writeLine : MethodRef :=
  .existing { owner := .named "Console", name := "WriteLine", params := [.primitive
    .string], returnType := .void, isInstance := false }

def greets (text : String) : Expr := .callStatic writeLine [.literal (.string text)]

/-- One of two greetings, the second with an empty sequence after it. -/
def greeting : Body where
  params := [⟨.named "this", .object⟩]
  body := .ite (.literal (.bool true)) (greets "a") (.seq [greets "b", .seq []])

theorem greeting_flags :
    ∃ b t, (greeting.compileMethod { table := ∅, catalog := ∅ } {} .void).exec {} = (.ok b, t) ∧
      b.code.countP Instr.isCall = 2 ∧ greeting.callSites { table := ∅, catalog := ∅ } .void = [.tail, .passed] ∧
      (∀ before i after flag, b.code = before ++ i :: after → i.tailFlag? = some flag →
        ∃ pos ∈ greeting.callSites { table := ∅, catalog := ∅ } .void, (flag = true ↔ pos ≠ .passed)) ∧
    ∃ b t, (greeting.compileConstructor { table := ∅, catalog := ∅ } {} ⟨.existing ⟨.object, []⟩, []⟩).exec
      {} = (.ok b, t) ∧ ∀ i ∈ b.code, i.tailFlag? ≠ some true := by
  obtain ⟨hmethod, hconstructor⟩ := tail_flags_are_exact greeting { table := ∅, catalog := ∅ } {}
  have hsites : greeting.callSites { table := ∅, catalog := ∅ } .void = [.tail, .passed] := rfl
  have hbuilt : ∃ b t, (greeting.compileConstructor { table := ∅, catalog := ∅ } {} ⟨.existing ⟨.object, []⟩, []⟩).exec
    {} =
    (.ok b, t) := ⟨_, _, rfl⟩
  obtain ⟨b, t, hb⟩ := hbuilt
  refine ⟨_, _, rfl, rfl, hsites, fun before i after flag hcode hi => ?_, b, t, hb, hconstructor _ _ _ _ hb⟩
  obtain ⟨pos, hpos, hflag, hnext⟩ := (hmethod .void {} _ _ rfl).2 before i after flag hcode hi
  have hmem := List.mem_of_getElem? hpos
  refine ⟨pos, hmem, hflag.trans ⟨fun hall => hall.2.2, fun hother => ⟨rfl, hnext.mpr ?_, hother⟩⟩⟩
  rintro rfl
  rw [hsites] at hmem
  simp at hmem

/-- A call that is not flagged, although `ret` comes next and tail calls are wanted: the empty sequence after it needs
    no code. -/
theorem empty_sequence_hides_tail_call :
    (({ params := [], body := .seq [greets "a", .seq []] } : Body).compileMethod { table := ∅, catalog := ∅ }
      { tailCalls := true } .void).exec {} =
        (.ok { code := [.loadString "a"] ++ .call writeLine false :: [.op .ret] }, {}) := rfl

end Body

end Stackwright
