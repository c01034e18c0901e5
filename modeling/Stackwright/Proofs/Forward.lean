import Stackwright.Proofs.Rounds
import Stackwright.Proofs.Flows
import Stackwright.Proofs.Paths

/-
  Stackwright.Proofs.Forward — lowered code only goes forward.

  Every jump leads to a label that is still to come, and the code ends by returning. So each
  operation of the finished body leads to a later one, and a run that calls nothing is over when
  it has done as many operations as there are instructions.
-/

namespace Stackwright

open Machine (LabelId handles)

variable {x : Symbol} {i : Instr}
variable {code : List Instr} {use : Nat} {p : Machine.Program}

/-! ## Code that goes forward -/

@[simp] theorem labelNames_append (a b : List Instr) : labelNames (a ++ b) = labelNames a ++ labelNames b :=
    List.filterMap_append

@[simp] theorem labelNames_mark (x : Symbol) (code : List Instr) :
    labelNames (.label x :: code) = x :: labelNames code := rfl

@[simp] theorem labelNames_endMark (tail : Bool) (s : Supply) :
    labelNames (endMark tail s) = (endLabel? tail s).toList := by
  cases tail <;> rfl

/-- Every label that the code goes to stands further on, or is among those behind the code. -/
def Forward : List Instr → List Symbol → Prop
  | [], _ => True
  | i :: rest, behind => (∀ x ∈ i.usedLabels, x ∈ labelNames rest ∨ x ∈ behind) ∧ Forward rest behind

namespace Forward

variable {a b code : List Instr} {behind others : List Symbol}

theorem mono (h : Forward code behind) (hsub : ∀ x ∈ behind, x ∈ others) : Forward code others := by
  induction code with
  | nil => trivial
  | cons i rest ih => exact ⟨fun x hx => (h.1 x hx).imp id (hsub x), ih h.2⟩

/-- An instruction that goes nowhere. -/
theorem cons {i : Instr} (hi : i.usedLabels = []) (h : Forward code behind) :
    Forward (i :: code) behind := ⟨by simp [hi], h⟩

theorem weaken (h : Forward code []) : Forward code behind := h.mono (by simp)

theorem append (ha : Forward a (labelNames b ++ behind)) (hb : Forward b behind) : Forward (a ++ b) behind := by
  induction a with
  | nil => exact hb
  | cons i rest ih =>
    refine ⟨fun x hx => ?_, ih ha.2⟩
    show x ∈ labelNames (rest ++ b) ∨ x ∈ behind
    rw [labelNames_append, List.mem_append, or_assoc]
    exact (ha.1 x hx).imp id List.mem_append.mp

/-- Code that keeps to its own labels goes before any other. -/
theorem before (ha : Forward a []) (hb : Forward b behind) : Forward (a ++ b) behind := ha.weaken.append hb

theorem ofReads {slots : List Symbol} (h : Reads slots code) : Forward code behind := by
  induction code with
  | nil => trivial
  | cons i rest ih =>
    refine ⟨fun x hx => ?_, ih fun j hj => h j (List.mem_cons_of_mem _ hj)⟩
    rw [(h i List.mem_cons_self).2.1] at hx
    cases hx

theorem mark (x : Symbol) : Forward [.label x] behind := cons rfl trivial

theorem branch {kind : BranchKind} (hx : x ∈ behind) : Forward [.branch kind x] behind :=
  ⟨fun _ hy => .inr (List.mem_singleton.mp hy ▸ hx), trivial⟩

theorem leaveTo {tail : Bool} {s : Supply} (h : ∀ x ∈ (endLabel? tail s).toList, x ∈ behind) :
    Forward (leaveTo tail s) behind := by
  cases tail with
  | true => trivial
  | false => exact branch (h s.label List.mem_cons_self)

theorem endMark (tail : Bool) (s : Supply) : Forward (endMark tail s) behind := by
  cases tail with
  | true => trivial
  | false => exact mark s.label

/-- Choosing a case goes to the table's labels. -/
theorem dispatch {size : Nat} {wide : Bool} {table : List Symbol} {fallback : Symbol} {s : Supply}
    (htable : ∀ x ∈ table, x ∈ behind) (hfallback : fallback ∈ behind) :
    Forward (dispatchCode size wide table fallback s) behind := by
  have hswitch : Forward [.switch table] behind := ⟨fun x hx => .inr (htable x hx), trivial⟩
  unfold dispatchCode
  split
  · exact cons rfl trivial
  · refine append ?_ hswitch
    split
    · simp [wideGuard, Forward, Instr.usedLabels, labelNames, Instr.definedLabel?, hfallback]
    · trivial

end Forward

/-- In tail position code ends by returning. -/
def Closes (tail : Bool) (code : List Instr) : Prop := tail = true → ∃ before, code = before ++ [.op .ret]

namespace Closes

variable {tail : Bool} {code : List Instr}

theorem inner : Closes false code := by rintro ⟨⟩

theorem append (before : List Instr) (h : Closes tail code) : Closes tail (before ++ code) := by
  intro htail
  obtain ⟨start, rfl⟩ := h htail
  exact ⟨before ++ start, (List.append_assoc ..).symm⟩

theorem retIf (before : List Instr) : Closes tail (before ++ retIf tail) := by
  rintro rfl
  exact ⟨before, rfl⟩

end Closes

/-! ## Lowered code -/

/-- What holds of the code that a piece of work is lowered to. The label that operands go to and
    the one that cases leave to stand behind it, and the labels of the cases stand in it. -/
def Advancing : Work → List Instr → Prop
  | .expr _ tail, code | .seq _ tail, code | .shortCircuit _ _ tail, code => Forward code [] ∧ Closes tail code
  | .operands _ decided _ _, code => Forward code [decided]
  | .cases cs labels leave tail, code =>
    (∀ behind, Forward leave behind → Forward code behind) ∧ (leave = [] → code = [] ∨ Closes tail code) ∧
      ∀ c ∈ cs.zip labels, c.1.1.isEmpty = false → c.2 ∈ labelNames code
  | .all _, code | .bindings .., code => Forward code []

variable {options : BuildOptions} {w : Work} {scope : Scope} {s t : Supply} {b : Block}

theorem Lowers.advancing (h : Lowers options w scope s b t) : Advancing w b.code := by
  have hret (tail : Bool) : Forward (retIf tail) [] := .ofReads (reads_retIf [] tail)
  have hone {i : Instr} (tail : Bool) (hi : i.usedLabels = []) : Forward (i :: retIf tail) [] := .cons hi (hret tail)
  induction h with
  | literal => exact ⟨.ofReads ((Literal.reads_code [] _).append (reads_retIf _ _)), .retIf _⟩
  | @var x tail scope s storage hx => exact ⟨.ofReads (storage.reads_fetch.append (reads_retIf _ _)), .retIf _⟩
  | @assign x e tail scope s storage v s₁ hx _ ih =>
    have hafter : Forward [storage.afterStore] [] := .ofReads (.cons storage.reads_afterStore .nil)
    exact ⟨(((Forward.ofReads storage.reads_beforeStore).before ih.1).before hafter).before (hret _), .retIf _⟩
  | seq _ ih | and _ ih | or _ ih | seqLast _ ih | shortLast _ ih => exact ih
  | @ite c t f tail scope s cb s₁ tb s₂ fb s₃ _ _ _ hc ht hf =>
    simp only [Block.append_code, Block.ofCode_code, List.append_assoc]
    have hmark : Forward ([.label s.label] ++ (fb.code ++ endMark tail s₂)) [] :=
      (Forward.mark _).before (hf.1.before (.endMark ..))
    refine ⟨hc.1.before (.append (.branch (by simp)) (ht.1.before (.append (.leaveTo ?_) hmark))), ?_⟩
    · intro x hx
      simp [hx]
    · cases tail with
      | false => exact .inner
      | true =>
        have : Closes true (fb.code ++ endMark true s₂) := by simpa [endMark, endLabel?] using hf.2
        exact ((((this.append _).append _).append _).append _).append _
  | @switch value cases fallback tail scope s type v s₁ fb s₅ cb s₆ claims size n s₂ s₃ dispatch hclaims _ _ _ _ _
      _ _ hdispatch _ _ hv hf hc =>
    obtain ⟨hcases, hclose, hlabels⟩ := hc
    simp only [Block.append_code, Block.ofCode_code, List.append_assoc]
    have hlast : Forward (cb.code ++ endMark tail s₃) [] := .append (hcases _ (.leaveTo (by simp))) (.endMark ..)
    have hrest : Forward (fb.code ++ (leaveTo tail s₃ ++ (cb.code ++ endMark tail s₃))) [] := by
      refine hf.1.before (.append (.leaveTo fun x hx => ?_) hlast)
      simp [hx]
    refine ⟨hv.1.before (.append ?_ ((Forward.mark _).before hrest)), ?_⟩
    · rw [hdispatch, hclaims]
      refine .dispatch (fun x hx => ?_) (by simp)
      rcases mem_dispatchTable hx with rfl | ⟨c, hmem, hvalues, rfl⟩
      · simp
      · simp [hlabels c hmem hvalues]
    · cases tail with
      | false => exact .inner
      | true =>
        have : Closes true (fb.code ++ (leaveTo true s₃ ++ (cb.code ++ endMark true s₃))) := by
          simp only [leaveTo, endMark, endLabel?, if_true, Option.toList_none, List.map_nil, List.nil_append,
            List.append_nil]
          rcases hclose rfl with hnone | hclose
          · rw [hnone, List.append_nil]
            exact hf.2
          · exact hclose.append _
        exact ((this.append _).append _).append _
  | letIn _ _ hb hbody => exact ⟨Forward.before hb hbody.1, hbody.2.append _⟩
  | lambda _ hcells =>
    refine ⟨.before (.before (.ofReads (reads_captureCells hcells)) (.cons rfl (.cons rfl trivial))) (hret _), .retIf _⟩
  | binary _ _ _ hl hr =>
    exact ⟨(hl.1.before hr.1).before ((Forward.ofReads (BinaryOp.reads_code [] _ _)).before (hret _)),
      (Closes.retIf _).append _⟩
  | unary _ _ ih =>
    exact ⟨ih.1.before ((Forward.ofReads (UnaryOp.reads_code [] _ _)).before (hret _)), (Closes.retIf _).append _⟩
  | getStatic | shortNil => exact ⟨hone _ rfl, .retIf [_]⟩
  | getField _ ih | setStatic _ ih => exact ⟨ih.1.before (hone _ rfl), (Closes.retIf [_]).append _⟩
  | new _ ih | callStatic _ ih => exact ⟨Forward.before ih (hone _ rfl), (Closes.retIf [_]).append _⟩
  | invoke _ _ _ hf hs | call _ _ hf hs =>
    exact ⟨(hf.1.before hs).before (hone _ rfl), (Closes.retIf [_]).append _⟩
  | setField _ _ hf hs => exact ⟨(hf.1.before hs.1).before (hone _ rfl), (Closes.retIf [_]).append _⟩
  | allNil | bindingsNil | operandsNil => exact trivial
  | allCons _ _ hb hrest => exact hb.1.before hrest
  | seqNil => exact ⟨hret _, .retIf []⟩
  | seqCons _ _ _ hb hrest =>
    refine ⟨(hb.1.before ?_).before hrest.1, hrest.2.append _⟩
    rw [Block.ofCode_code]
    split
    · trivial
    · exact .cons rfl trivial
  | @shortCons isOr e next es tail scope s b s₁ rest s₂ _ _ hb hrest =>
    simp only [Block.append_code, Block.ofCode_code, List.append_assoc, List.cons_append, List.nil_append]
    have hoperands : Forward rest.code [s.label] := hrest
    have hlast : Forward (.loadI32 (if isOr then 1 else 0) :: (retIf tail ++ endMark tail s₂)) [] :=
      (hone _ rfl).before (.endMark ..)
    have hleave : Forward (leaveTo tail s₂ ++
        .label s.label :: .loadI32 (if isOr then 1 else 0) :: (retIf tail ++ endMark tail s₂)) [] := by
      refine .append (.leaveTo fun x hx => ?_) (.cons rfl hlast)
      cases tail <;> simp_all [labelNames, endMark, endLabel?, Instr.definedLabel?, retIf]
    refine ⟨hb.1.before (.append (.branch ?_) (.append (hoperands.mono ?_) hleave)), ?_⟩
    · simp
    · simp
    · cases tail with
      | false => exact .inner
      | true =>
        have : Closes true ([.loadI32 (if isOr then 1 else 0)] ++ retIf true) := .retIf _
        exact (((this.append [.label s.label]).append _).append [_]).append _
  | operandsLast _ ih => exact ih.1.weaken
  | operandsCons _ _ hb hrest =>
    exact .append (hb.1.before (.branch (List.mem_append_right _ (List.mem_singleton_self _)))) hrest
  | casesNil | casesUnlabelled => exact ⟨fun _ _ => trivial, fun _ => .inl rfl, by simp⟩
  | casesDropped hempty _ ih =>
    refine ⟨ih.1, ih.2.1, fun c hc hvalues => ?_⟩
    rcases List.mem_cons.mp hc with rfl | hc
    · simp [hempty] at hvalues
    · exact ih.2.2 c hc hvalues
  | @casesCons values e cs label labels leave tail scope s b s₁ rest s₂ hempty _ _ hb hrest =>
    obtain ⟨hforward, hclose, hlabels⟩ := hrest
    refine ⟨fun behind hleave => ?_, ?_, fun c hc hvalues => ?_⟩
    · have hcase : Forward (.label label :: b.code) [] := .cons rfl hb.1
      exact .append (hcase.before (hleave.mono fun x => List.mem_append_right _)) (hforward behind hleave)
    · rintro rfl
      rcases hclose rfl with hnone | hclose
      · refine .inr ?_
        simp only [Block.append_code, Block.ofCode_code, hnone, List.append_nil]
        exact hb.2.append [_]
      · exact .inr (hclose.append _)
    · rcases List.mem_cons.mp hc with rfl | hc
      · simp
      · simp [hlabels c hc hvalues]
  | @bindingsCons usages x value bs scope inner result s type v s₁ b s₂ boxed _ _ _ _ hv hb =>
    have hstore : Forward ((if boxed then [Instr.typeOp .newCell type] else []) ++ [.storeLocal (s.slot x)]) [] := by
      cases boxed with
      | true => exact .cons rfl (.cons rfl trivial)
      | false => exact .cons rfl trivial
    exact (hv.1.before hstore).before hb

/-! ## Bodies -/

theorem Enters.forward {usages : Usages} {index : Nat} {params : List Param} {inner : Scope}
    (h : Enters usages index params scope s b inner t) : Forward b.code [] := by
  induction h with
  | nil => trivial
  | cell _ _ _ ih => exact .cons rfl (.cons rfl (.cons rfl ih))
  | plain _ _ _ ih => exact ih

/-- Code that goes forward only, up to its last instruction, which returns. -/
structure GoesForward (code : List Instr) : Prop where
  forward : Forward code []
  returns : Closes true code

namespace Body

variable {body : Body} {h : Hierarchy}

theorem forward_enter {usages : Usages} (he : (body.enter h usages).exec s = (.ok (b, scope), t)) :
    Forward b.code [] := by
  obtain ⟨outer, henters, -⟩ := of_enter he
  exact henters.forward

theorem compileMethod_forward {returnType : TypeRef} (hc : (body.compileMethod h options returnType).exec s =
      (.ok b, t)) :
    GoesForward b.code := by
  obtain ⟨start, scope, s₁, type, code, henter, -, hcode⟩ := of_compileMethod hc
  have hstart := forward_enter henter
  rcases hcode with ⟨-, -, hcode, rfl⟩ | ⟨-, -, hcode, rfl⟩
  · exact ⟨(hstart.before hcode.advancing.1).before (.cons rfl (.cons rfl trivial)), (Closes.retIf [_]).append _⟩
  · exact ⟨hstart.before hcode.advancing.1, hcode.advancing.2.append _⟩

theorem compileConstructor_forward {base : BaseCall} (hc : (body.compileConstructor h options base).exec s =
      (.ok b, t)) :
    GoesForward b.code := by
  obtain ⟨this, params, start, scope, s₁, type, storage, args, s₂, code, -, henter, -, -, -, -, -, hargs, hcode, rfl⟩ :=
    of_compileConstructor hc
  have hend : GoesForward (if type.isVoid then [.op .ret] else [.op .pop, .op .ret]) := by
    split
    · exact ⟨(.cons rfl trivial), .retIf []⟩
    · exact ⟨(.cons rfl (.cons rfl trivial)), .retIf [_]⟩
  have hthis : Forward storage.fetch [] := .ofReads storage.reads_fetch
  have hbase : Forward [.callConstructor base.ctor] [] := .cons rfl trivial
  exact ⟨(((((forward_enter henter).before hthis).before hargs.advancing).before hbase).before hcode.advancing.1).before
    hend.forward, hend.returns.append _⟩

end Body

theorem Forward.exists_mark {behind : List Symbol} (h : Forward code behind)
    (huse : code[use]? = some i) (hx : x ∈ i.usedLabels) :
    x ∈ behind ∨ ∃ mark j, use < mark ∧ code[mark]? = some j ∧ j.marks x := by
  induction code generalizing use with
  | nil => cases huse
  | cons first rest ih =>
    cases use with
    | zero =>
      obtain rfl : first = i := Option.some.inj huse
      refine (h.1 x hx).symm.imp id fun hlater => ?_
      obtain ⟨j, hj, hmark⟩ := List.mem_filterMap.mp hlater
      obtain ⟨n, hn⟩ := List.getElem?_of_mem hj
      exact ⟨n + 1, j, Nat.succ_pos n, hn, by simp [Instr.marks, hmark]⟩
    | succ use =>
      refine (ih h.2 huse).imp id fun ⟨mark, j, hlt, hj, hmarks⟩ => ?_
      exact ⟨mark + 1, j, Nat.succ_lt_succ hlt, hj, hmarks⟩

/-- Where every label is defined once, its uses stand before it. -/
theorem GoesForward.use_lt_mark (h : GoesForward code) (honce : ∀ x, Symbol.times (labelNames code) x ≤ 1) {mark : Nat}
    {j : Instr} (huse : code[use]? = some i) (hx : x ∈ i.usedLabels) (hmark : code[mark]? = some j) (hj : j.marks x)
    : use < mark := by
  obtain ⟨other, k, hlt, hk, hmarks⟩ := (h.forward.exists_mark huse hx).resolve_left List.not_mem_nil
  rwa [Levels.mark_unique honce hmark hk hj hmarks]

/-! ## Written code -/

theorem extent_cons (hi : ∀ x, i ≠ .label x) (code : List Instr) : extent (i :: code) = extent code + 1 := by
  cases i <;> first | rfl | exact (hi _ rfl).elim

theorem extent_le_length (code : List Instr) : extent code ≤ code.length := by
  induction code using extent.induct with
  | case1 => exact Nat.le_refl 0
  | case2 x code ih => exact Nat.le_succ_of_le ih
  | case3 i code hi ih =>
    rw [extent_cons fun x hx => hi x hx]
    exact Nat.succ_le_succ ih

/-- What an instruction turns into, as far as it says where the code goes on. -/
structure Instr.Shape (label : Symbol → Option LabelId) (i : Instr) (op : Op handles) : Prop where
  targets : i.usedLabels.mapM label = some (Machine.Draft.targets op)
  ret : i = .op .ret → op = .op .ret

/-- Where the operations that code is written as go on. -/
abbrev Shapes (label : Symbol → Option LabelId) : List Instr → List (Op handles) → Prop :=
  fun code ops => ∃ p q, Emission.Written (fun _ i op _ => i.Shape label op) p code ops q

namespace Emission

open Effect

variable {slots : Slots handles} {e e' : OnMachine}

theorem of_instr_shape (hflat : i.isFlat) (hlabel : ∀ x, i ≠ .label x)
    (h : (instr slots i).exec e = (.ok (), e')) : ∃ op q, e' = e.after op q ∧ i.Shape (find? e.labels) op := by
  have hput {op : Op handles} (hop : i.Shape (find? e.labels) op) (hput : (put op).exec e = (.ok (), e')) :
      ∃ op q, e' = e.after op q ∧ i.Shape (find? e.labels) op :=
    ⟨op, e.program, of_put hput, hop⟩
  -- Following a reference may note methods in the program, and touches nothing else.
  have hfollow {α : Type} {x : Effect Machine.Program α} {make : α → Op handles} {p : Machine.Program}
      (hmake : ∀ a, i.Shape (find? e.labels) (make a))
      (hx : (ofProgram x >>= fun a => put (make a)).exec { e with program := p } = (.ok (), e')) :
      ∃ op q, e' = e.after op q ∧ i.Shape (find? e.labels) op := by
    obtain ⟨a, e₁, ha, hput⟩ := exec_bind_ok.mp hx
    have he' := of_put hput
    rw [(of_ofProgram ha).2] at he'
    exact ⟨make a, e₁.program, he', hmake a⟩
  cases i
  case label x => exact (hlabel x rfl).elim
  case leave | beginTry | beginCatch | beginFinally | endTry => cases hflat
  case loadLocal x | storeLocal x =>
    obtain ⟨l, e₁, hl, hop⟩ := exec_bind_ok.mp h
    obtain ⟨rfl, -⟩ := of_localOf hl
    exact hput ⟨rfl, by rintro ⟨⟩⟩ hop
  case branch kind x =>
    obtain ⟨l, e₁, hl, hop⟩ := exec_bind_ok.mp h
    obtain ⟨rfl, hl⟩ := of_label hl
    exact hput ⟨by simp [Instr.usedLabels, hl, Machine.Draft.targets], by rintro ⟨⟩⟩ hop
  case switch xs =>
    obtain ⟨ls, e₁, hls, hop⟩ := exec_bind_ok.mp h
    obtain ⟨rfl, hls⟩ := of_labelsOf hls
    have hshape : (Instr.switch xs).Shape (find? e₁.labels) (.switch ls) := ⟨hls, by rintro ⟨⟩⟩
    exact hput hshape hop
  case newDelegate t ref =>
    obtain ⟨ty, e₁, hty, hrest⟩ := exec_bind_ok.mp h
    rw [(of_ofProgram hty).2] at hrest
    exact hfollow (fun _ => ⟨rfl, by rintro ⟨⟩⟩) hrest
  case op opcode => exact hput ⟨rfl, by rintro ⟨⟩; rfl⟩ h
  case loadI32 | loadI64 | loadF64 | loadString | loadNull | loadArg | storeArg => exact hput ⟨rfl, by rintro ⟨⟩⟩ h
  all_goals exact hfollow (fun _ => ⟨rfl, by rintro ⟨⟩⟩) h

/-- The code of a block that stands on its own and was written without a fault. -/
theorem of_block_shape {b : Block} {s t : Supply} (hb : Made s [] [] b t)
    (h : (block slots b).exec ⟨p, machine.emptyDraft, [], []⟩ = (.ok (), e)) :
    ∃ code ops, e.draft.finish = .ok code ∧ Shapes (find? (numbered LabelId.mk 0 (labelNames b.code))) b.code ops ∧
      code.ops = (ops.map Machine.Op.plain).toArray ∧ code.labels = (marks 0 b.code).toArray ∧ code.regions = [] := by
  let R (_ : Machine.Program) (i : Instr) (op : Op handles) (_ : Machine.Program) : Prop :=
    i.Shape (find? (numbered LabelId.mk 0 (labelNames b.code))) op
  have hblock : (block slots b).Does False ⟨p, machine.emptyDraft, [], []⟩ _ :=
    does_block (P := fun _ => True) (R := R) (D := fun _ _ => True) hb trivial
      (fun l _ e => (does_type l.type e).mono fun _ _ h => ⟨h.1, trivial⟩)
      fun hlayout _ _ i hi hlabel => .of_elim fun _ e' hi' => by
        obtain ⟨op, q, he', hop⟩ := of_instr_shape (hb.clean.flat i hi) hlabel hi'
        rw [show find? _ = (b.layout {}).label from congrArg (fun layout => (layout {}).label) hlayout] at hop
        exact ⟨op, q, he', trivial, hop⟩
  obtain ⟨types, ops, -, -, hwritten, hfinish⟩ := hblock.elim h
  exact ⟨_, ops, hfinish, ⟨_, _, hwritten⟩, rfl, rfl, rfl⟩

namespace Written

variable {R : Machine.Program → Instr → Op handles → Machine.Program → Prop} {p q : Machine.Program}
  {a b code : List Instr}
  {ops : List (Op handles)}

theorem length_eq (h : Written R p code ops q) : ops.length = extent code := by
  induction h with
  | nil => rfl
  | label _ ih => exact ih
  | @cons _ i _ _ _ _ _ hlabel _ _ ih => rw [List.length_cons, ih, extent_cons hlabel]

theorem of_append (h : Written R p (a ++ b) ops q) : ∃ first last r, ops = first ++ last ∧ Written R r b last q := by
  induction a generalizing p ops with
  | nil => exact ⟨[], ops, p, rfl, h⟩
  | cons i a ih =>
    cases h with
    | label h => exact ih h
    | cons _ _ h =>
      obtain ⟨first, last, r, rfl, hlast⟩ := ih h
      exact ⟨_ :: first, last, r, rfl, hlast⟩

end Written

end Emission

/-! ## Finished bodies -/

theorem marks_append (pc : Nat) (a b : List Instr) : marks pc (a ++ b) = marks pc a ++ marks (pc + extent a) b := by
  induction a using extent.induct generalizing pc with
  | case1 => rfl
  | case2 x a ih => exact congrArg (pc :: ·) (ih pc)
  | case3 i a hi ih =>
    have hlabel : ∀ x, i ≠ .label x := fun x hx => hi x hx
    rw [List.cons_append, Setting.marks_cons hlabel, Setting.marks_cons hlabel, extent_cons hlabel, ih, Nat.add_assoc,
      Nat.add_comm 1]

theorem mem_marks {pc t : Nat} (h : t ∈ marks pc code) : pc ≤ t ∧ t ≤ pc + extent code := by
  induction code using extent.induct generalizing pc with
  | case1 => cases h
  | case2 x code ih =>
    rcases List.mem_cons.mp h with rfl | h
    · exact ⟨Nat.le_refl _, Nat.le_add_right ..⟩
    · exact ih h
  | case3 i code hi ih =>
    rw [Setting.marks_cons fun x hx => hi x hx] at h
    rw [extent_cons fun x hx => hi x hx]
    have := ih h
    omega

/-- The labels of code that goes forward stand behind the operations that go to them. -/
theorem Emission.Written.later {label : Symbol → Option LabelId} {ops : List (Op handles)} {q : Machine.Program}
    (h : Written (fun _ i op _ => i.Shape label op) p code ops q) (hflat : ∀ i ∈ code, i.isFlat)
      (hforward : Forward code [])
    : ∀ (pc : Nat) (before : List Nat),
    (∀ j x, (labelNames code)[j]? = some x → label x = some ⟨before.length + j⟩) → ∀ (k op l t), ops[k]? = some op →
      l ∈ Machine.Draft.targets op → (before ++ marks pc code)[l.index]? = some t → pc + k < t := by
  induction h with
  | nil => exact fun _ _ _ _ _ _ _ hop => by cases hop
  | @label p x code ops q _ ih =>
    intro pc before hnames k op l t hop hl ht
    have hflat' : ∀ i ∈ code, i.isFlat := fun i hi => hflat i (List.mem_cons_of_mem _ hi)
    refine ih hflat' hforward.2 pc (before ++ [pc]) (fun j y hy => ?_) k op l t hop hl (by simpa [marks] using ht)
    rw [hnames (j + 1) y hy, List.length_append, List.length_singleton, Nat.add_assoc, Nat.add_comm 1]
  | @cons p i first p' code ops q hlabel hshape _ ih =>
    intro pc before hnames k op l t hop hl ht
    have hflat' : ∀ i ∈ code, i.isFlat := fun i hi => hflat i (List.mem_cons_of_mem _ hi)
    rw [Setting.labelNames_cons (hflat i List.mem_cons_self) hlabel] at hnames
    rw [Setting.marks_cons hlabel] at ht
    cases k with
    | succ k =>
      have := ih hflat' hforward.2 (pc + 1) before hnames k op l t hop hl ht
      omega
    | zero =>
      obtain rfl : first = op := Option.some.inj hop
      -- The label comes from a symbol that is still to come, so its place is among the later marks.
      obtain ⟨n, hn⟩ := List.getElem?_of_mem hl
      obtain ⟨x, hx, hxl⟩ := Option.bind_eq_some_iff.mp ((Layout.getElem?_mapM hshape.targets n).symm.trans hn)
      obtain ⟨j, hj⟩ := List.getElem?_of_mem ((hforward.1 x (List.mem_of_getElem? hx)).resolve_right List.not_mem_nil)
      obtain rfl : l = ⟨before.length + j⟩ := Option.some.inj (hxl.symm.trans (hnames j x hj))
      rw [List.getElem?_append_right (Nat.le_add_right ..), Nat.add_sub_cancel_left] at ht
      have := (mem_marks (List.mem_of_getElem? ht)).1
      omega

namespace Machine.Code

/-- A body that goes forward: every operation leads to a later one, or returns. -/
structure Onward (c : Code) : Prop where
  plain {pc : Nat} {op : Machine.Op} : c.ops[pc]? = some op → ∃ o, op = .plain o
  later {pc : Nat} {op : Stackwright.Op handles} {l : LabelId} {t : Nat} : c.ops[pc]? = some (.plain op) →
    l ∈ Draft.targets op → c.labels[l.index]? = some t → pc < t ∧ t < c.ops.size
  next {pc : Nat} {op : Stackwright.Op handles} : c.ops[pc]? = some (.plain op) → op ≠ .op .ret → pc + 1 < c.ops.size
  regions : c.regions = []

end Machine.Code

open Machine (Program Code Frame World Natives)

/-- A block that stands on its own and goes forward is written as a body that does. -/
theorem GoesForward.onward {b : Block} {s t : Supply} {slots : Slots handles} {p : Program} {e : Emission.OnMachine}
    (h : GoesForward b.code) (hb : Made s [] [] b t)
    (hblock : (Emission.block slots b).exec ⟨p, machine.emptyDraft, [], []⟩ = (.ok (), e)) :
    ∃ code, e.draft.finish = .ok code ∧ code.Onward ∧ 0 < code.ops.size ∧ code.ops.size ≤ b.code.length := by
  obtain ⟨code, ops, hfinish, ⟨_, _, hwritten⟩, hops, hlabels, hregions⟩ := Emission.of_block_shape hb hblock
  have hnames : ∀ j x, (labelNames b.code)[j]? = some x →
      Emission.find? (numbered LabelId.mk 0 (labelNames b.code)) x = some ⟨([] : List Nat).length + j⟩ := by
    intro j x hx
    rw [List.length_nil]
    exact find?_numbered hb.labels_once hx
  have hlater := hwritten.later hb.clean.flat h.forward 0 [] hnames
  have hat {pc : Nat} {op : Op handles} (hop : code.ops[pc]? = some (.plain op)) : ops[pc]? = some op := by
    simpa [hops] using hop
  have hsize : code.ops.size = ops.length := by simp [hops]
  -- The code ends with an operation that returns, and no label stands behind it.
  obtain ⟨before, hcode⟩ := h.returns rfl
  have hextent : ops.length = extent before + 1 := by
    rw [hwritten.length_eq, hcode, extent_append]
    rfl
  have hmarks : ∀ t ∈ marks 0 b.code, t ≤ extent before := by
    intro t ht
    have hend : marks (0 + extent before) [.op .ret] = [] := rfl
    rw [hcode, marks_append, hend, List.append_nil] at ht
    simpa using (mem_marks ht).2
  have hlast : ops[extent before]? = some (.op .ret) := by
    rw [hcode] at hwritten
    obtain ⟨first, last, r, rfl, hret⟩ := hwritten.of_append
    cases hret with
    | cons _ hshape hrest =>
      cases hrest
      rw [List.length_append, List.length_singleton, Nat.add_right_cancel_iff] at hextent
      rw [← hextent, hshape.ret rfl, List.getElem?_append_right (Nat.le_refl _), Nat.sub_self]
      rfl
  refine ⟨code, hfinish, ⟨fun {pc op} hop => ?_, fun {pc op l t} hop hl ht => ?_, fun {pc op} hop hret => ?_,
    hregions⟩, by omega, ?_⟩
  · have hop : (ops.map Machine.Op.plain)[pc]? = some op := by simpa [hops] using hop
    obtain ⟨o, -, rfl⟩ := Option.map_eq_some_iff.mp (List.getElem?_map ▸ hop)
    exact ⟨o, rfl⟩
  · have ht : (marks 0 b.code)[l.index]? = some t := by simpa [hlabels] using ht
    have := hlater pc op l t (hat hop) hl ht
    have := hmarks t (List.mem_of_getElem? ht)
    omega
  · have hlt := (List.getElem?_eq_some_iff.mp (hat hop)).1
    have hne : pc ≠ extent before := by
      rintro rfl
      exact hret (Option.some.inj ((hat hop).symm.trans hlast))
    omega
  · rw [hsize, hwritten.length_eq]
    exact extent_le_length _

/-! ## Runs -/

namespace Machine

variable {p : Program} {natives : Natives} {f : Frame} {w w' : World}

/-- What an operation of a body that goes forward can do. -/
theorem Code.Onward.flow (h : f.code.Onward) (hpc : f.pc < f.code.ops.size) {flow : Flow}
    (hstep : (step p f).exec w = (.ok flow, w')) :
    (∃ g, flow = .next g ∧ g.code = f.code ∧ f.pc < g.pc ∧ g.pc < f.code.ops.size) ∨ (∃ v, flow = .return v) ∨
      (∃ g c, flow = .call g c ∧ ∃ op, f.code.ops[f.pc]? = some (.plain op) ∧ handsOver op) ∨ ∃ g e, flow = .throw g e ∧
      g.code = f.code := by
  obtain ⟨op, hop⟩ : ∃ op, f.code.ops[f.pc]? = some op := ⟨_, Array.getElem?_eq_getElem hpc⟩
  obtain ⟨op, rfl⟩ := h.plain hop
  simp only [step, hop] at hstep
  cases opStep_follows p _ _ op w flow w' hstep with
  | next hop' hg => exact .inl ⟨_, rfl, hg.code, by simp [hg.pc], by rw [hg.pc]; exact h.next hop hop'⟩
  | jump hg hl ht => exact .inl ⟨_, rfl, hg.code, h.later hop hl ht⟩
  | leave hl ht =>
    have hexit : ∀ a b, Frame.exitedFinally? f.code.regions a b = none := by simp [Frame.exitedFinally?, h.regions]
    refine .inl ⟨_, rfl, ?_⟩
    simp only [Frame.leave, hexit]
    exact ⟨trivial, h.later hop hl ht⟩
  | «return» => exact .inr (.inl ⟨_, rfl⟩)
  | call hcalls => exact .inr (.inr (.inl ⟨_, _, rfl, op, hop, hcalls⟩))
  | throw hg => exact .inr (.inr (.inr ⟨_, _, rfl, hg.code⟩))

variable (p natives f w) in
/-- The run of a single frame makes no call. -/
def CallFree : Prop := ∀ g rest w', Leads p natives ([f], w) (g :: rest, w') → ∀ caller c w'',
  (step p g).exec w' ≠ (.ok (.call caller c), w'')

theorem unwind_of_regions_nil {g : Frame} (h : g.code.regions = []) (heap : Heap) (e : Value) :
    unwind p heap e [g] = .error (.uncaught (describeException heap e)) := by
  rw [unwind, h]
  rfl

/-- One round of a body that goes forward. -/
theorem Code.Onward.round (h : f.code.Onward) (hpc : f.pc < f.code.ops.size) :
    (∃ g w', (advance p natives [f]).exec w = (.ok (.running [g]), w') ∧ g.code = f.code ∧ f.pc < g.pc ∧
      g.pc < f.code.ops.size) ∨ (∃ v w', (advance p natives [f]).exec w = (.ok (.done v), w')) ∨
        (∃ e w', (advance p natives [f]).exec w = (.error e, w')) ∨
      ∃ g c w' op, (step p f).exec w = (.ok (.call g c), w') ∧ f.code.ops[f.pc]? = some (.plain op) ∧ handsOver op := by
  rcases hstep : (step p f).exec w with ⟨e | flow, w'⟩
  · refine .inr (.inr (.inl ⟨e, w', ?_⟩))
    rw [advance, Act.exec_bind, hstep]
  rcases h.flow hpc hstep with ⟨g, rfl, hg⟩ | ⟨v, rfl⟩ | ⟨g, c, rfl, op, hop⟩ | ⟨g, e, rfl, hcode⟩
  · exact .inl ⟨g, w', Advances.of_next hstep, hg⟩
  · refine .inr (.inl ⟨(f.onReturn.result v).getD .null, w', ?_⟩)
    rw [advance, Act.exec_bind, hstep]
    rfl
  · exact .inr (.inr (.inr ⟨g, c, w', op, rfl, hop⟩))
  · refine .inr (.inr (.inl ⟨.uncaught (describeException w'.heap e), w', ?_⟩))
    rw [advance, Act.exec_bind, hstep]
    show Act.exec (Progress.running <$> (liftM (unwind p w'.heap e [g]) : Act (List Frame))) w' = _
    rw [unwind_of_regions_nil (hcode ▸ h.regions)]
    rfl

/-- A run of a body that goes forward is over when it has gone through the body. -/
theorem Code.Onward.ends (n : Nat) (h : f.code.Onward) (hpc : f.pc < f.code.ops.size) (hn : f.code.ops.size ≤ f.pc + n)
    (hcalls : CallFree p natives f w) : (runFrames p natives n [f] w).1.isSome := by
  induction n generalizing f w with
  | zero => omega
  | succ n ih =>
    rcases h.round hpc with ⟨g, w', hround, hcode, hlater, hinside⟩ | ⟨v, w', hround⟩ | ⟨e, w', hround⟩ | ⟨g, c,
      w', op, hcall, -⟩
    · rw [runFrames, hround]
      refine ih (hcode ▸ h) (hcode ▸ hinside) (by rw [hcode]; omega) fun k rest u hleads => ?_
      exact hcalls k rest u (.head (show Advances p natives ([f], w) ([g], w') from hround) hleads)
    · rw [runFrames, hround]
      rfl
    · rw [runFrames, hround]
      rfl
    · exact (hcalls f [] w .refl g c w' hcall).elim

/-- A body without operations that call makes no call. -/
theorem Code.Onward.callFree (h : f.code.Onward) (hpc : f.pc < f.code.ops.size)
    (hops : ∀ (pc : Nat) op, f.code.ops[pc]? = some (.plain op) → handsOver op = false) : CallFree p natives f w := by
  -- On the way there is one frame, inside the same code.
  have hinside : ∀ state, Leads p natives ([f], w) state → ∃ g, state.1 = [g] ∧ g.code = f.code ∧
      g.pc < f.code.ops.size := by
    intro state hleads
    induction hleads with
    | refl => exact ⟨f, rfl, rfl, hpc⟩
    | @tail middle next _ hround ih =>
      obtain ⟨k, hk, hcode, hin⟩ := ih
      rw [Advances, hk] at hround
      rw [← hcode] at h hin hops ⊢
      rcases h.round hin with ⟨g, w', hnext, hg⟩ | ⟨v, w', hdone⟩ | ⟨e, w', herror⟩ | ⟨g, c, w', op, -, hop, hcalls⟩
      · have hframes := Progress.running.inj (Except.ok.inj (Prod.mk.inj (hround.symm.trans hnext)).1)
        exact ⟨g, hframes, hg.1, hg.2.2⟩
      · cases hround.symm.trans hdone
      · cases hround.symm.trans herror
      · rw [hops _ op hop] at hcalls
        cases hcalls
  intro g rest w' hleads caller c w'' hcall
  obtain ⟨k, hk, hcode, hin⟩ := hinside _ hleads
  obtain ⟨rfl, rfl⟩ := List.cons.inj hk
  rw [← hcode] at h hin hops
  rcases h.flow hin hcall with ⟨_, hflow, -⟩ | ⟨_, hflow⟩ | ⟨_, _, -, op, hop, hcalls⟩ | ⟨_, _, hflow, -⟩
  · cases hflow
  · cases hflow
  · rw [hops _ op hop] at hcalls
    cases hcalls
  · cases hflow

end Machine

/-! ## Compiled bodies -/

/-- A valid block in which every jump leads forward, and whose runs are over in time unless they call. -/
structure Block.LoopFree (b : Block) : Prop where
  valid : b.validate = .ok ()
  labels : ∀ x ∈ b.definedLabels ++ b.usedLabels, Symbol.times b.definedLabels x = 1
  locals : ∀ x ∈ b.usedLocals, Symbol.times b.localNames x = 1
  forward {use mark : Nat} {i j : Instr} {x : Symbol} : b.code[use]? = some i → x ∈ i.usedLabels →
    b.code[mark]? = some j → j.marks x → use < mark
  ends {slots : Slots handles} {p : Program} {e : Emission.OnMachine} :
    (Emission.block slots b).exec ⟨p, machine.emptyDraft, [], []⟩ = (.ok (), e) → ∃ code, e.draft.finish = .ok code ∧
      ∀ (q : Program) (natives : Natives) (f : Frame) (w : World), f.code = code → f.pc = 0 →
        Machine.CallFree q natives f w → (Machine.runFrames q natives b.code.length [f] w).1.isSome = true

theorem Symbol.times_eq_one {xs : List Symbol} (honce : times xs x ≤ 1) (h : x ∈ xs) : times xs x = 1 := by
  have := Block.times_pos_of_contains (contains_of_mem h)
  omega

theorem GoesForward.loopFree {b : Block} {s t : Supply} (h : GoesForward b.code) (hb : Made s [] [] b t) :
    b.LoopFree where
  valid := Block.validate_of_made hb
  labels x hx := by
    refine Symbol.times_eq_one (hb.labels_once x) ?_
    exact (List.mem_append.mp hx).elim id fun hused => (hb.clean.goes x hused).resolve_right List.not_mem_nil
  locals x hx := Symbol.times_eq_one (hb.locals_once x) ((hb.clean.reads x hx).resolve_right List.not_mem_nil)
  forward := h.use_lt_mark hb.labels_once
  ends hblock := by
    obtain ⟨code, hfinish, honward, hstart, hsize⟩ := h.onward hb hblock
    refine ⟨code, hfinish, fun q natives f w hcode hpc hcalls => ?_⟩
    subst hcode
    exact honward.ends _ (by omega) (by omega) hcalls

namespace Body

/-- The bodies of methods and constructors are valid and free of loops. -/
theorem compiled_code_is_loop_free (body : Body) (h : Hierarchy) (options : BuildOptions) (s : Supply) :
    (∀ returnType b t, (body.compileMethod h options returnType).exec s = (.ok b, t) → b.LoopFree) ∧
      ∀ base b t, (body.compileConstructor h options base).exec s = (.ok b, t) → b.LoopFree :=
  ⟨fun _ _ _ hc => (compileMethod_forward hc).loopFree (compileMethod_made hc),
    fun _ _ _ hc => (compileConstructor_forward hc).loopFree (compileConstructor_made hc)⟩

/-- A grade for a number of points: a case without values is dropped, and another one asks again. -/
def grade : Body where
  params := [⟨.named "this", .object⟩, ⟨.named "points", .primitive .u64⟩]
  body := .switch (.var (.named "points"))
    [(CaseValues.of [1], .literal (.i32 10)), (CaseValues.of [], .literal (.i32 20)),
      (CaseValues.of [0, 3], .ite (.or [.binary .eq (.var (.named "points")) (.literal (.u64 0)),
        .literal (.bool true)])
        (.literal (.i32 30)) (.literal (.i32 40)))] <|
    .literal (.i32 0)

/-- The block can be written for the machine, and none of its operations calls. -/
def callsNothing (b : Block) : Bool :=
  match (Emission.block ∅ b).exec ⟨({} : Program), machine.emptyDraft, [], []⟩ with
  | (.ok (), e) =>
    match e.draft.finish with
    | .ok code => code.ops.toList.all fun op => match op with
      | .plain op => !Machine.handsOver op
      | .endFinally => true
    | .error _ => false
  | (.error _, _) => false

/-- A call of `grade` that is about to run. -/
def gradeFrame (code : Code) (this points : Machine.Value) : Frame where
  method := ⟨0, "grade"⟩
  code := code
  args := #[this, points]
  locals := #[]
  returnsValue := true
  onReturn := .push

theorem grade_ends :
    (∃ b t, (grade.compileMethod { table := ∅, catalog := ∅ } {} .i32).exec {} = (.ok b, t) ∧ b.usedLabels.length = 9 ∧
      b.validate = .ok () ∧ ∃ (e : Emission.OnMachine) (code : Code),
        (Emission.block ∅ b).exec ⟨({} : Program), machine.emptyDraft, [], []⟩ = (.ok (), e) ∧
        e.draft.finish = .ok code ∧ ∀ q natives this points w,
          (Machine.runFrames q natives b.code.length [gradeFrame code this points] w).1.isSome = true) ∧
    ∃ b t, (grade.compileConstructor { table := ∅, catalog := ∅ } {} ⟨.existing ⟨.object, []⟩, []⟩).exec
      {} = (.ok b, t) ∧ b.usedLabels.length = 13 ∧ b.validate = .ok () := by
  obtain ⟨hmethod, hconstructor⟩ := compiled_code_is_loop_free grade { table := ∅, catalog := ∅ } {} {}
  constructor
  · obtain ⟨b, t, hb, hused, hwritten⟩ : ∃ b t, (grade.compileMethod { table := ∅, catalog := ∅ } {} .i32).exec
      {} = (.ok b, t) ∧
        b.usedLabels.length = 9 ∧ callsNothing b = true := ⟨_, _, rfl, rfl, by decide +kernel⟩
    unfold callsNothing at hwritten
    split at hwritten
    · rename_i e hblock
      split at hwritten
      · rename_i code hfinish
        obtain ⟨_, hfinish', honward, hstart, -⟩ := (compileMethod_forward hb).onward (compileMethod_made hb) hblock
        cases hfinish.symm.trans hfinish'
        obtain ⟨_, hfinish', hends⟩ := (hmethod _ _ _ hb).ends hblock
        cases hfinish.symm.trans hfinish'
        refine ⟨b, t, hb, hused, (hmethod _ _ _ hb).valid, e, code, hblock, hfinish, fun q natives this points w => ?_⟩
        refine hends q natives (gradeFrame code this points) w rfl rfl
          (Machine.Code.Onward.callFree honward hstart fun pc op hop => ?_)
        have hop : .plain op ∈ code.ops.toList := List.mem_of_getElem? (by simpa [gradeFrame] using hop)
        simpa using List.all_eq_true.mp hwritten _ hop
      · cases hwritten
    · cases hwritten
  · obtain ⟨b, t, hb, hused⟩ : ∃ b t, (grade.compileConstructor { table := ∅, catalog := ∅ } {}
      ⟨.existing ⟨.object, []⟩, []⟩).exec {} = (.ok b, t) ∧ b.usedLabels.length = 13 := ⟨_, _, rfl, rfl⟩
    exact ⟨b, t, hb, hused, (hconstructor _ _ _ hb).valid⟩

end Body

end Stackwright
