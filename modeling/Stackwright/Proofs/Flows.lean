import Stackwright.Proofs.Execution

/-
  Stackwright.Proofs.Flows — what one operation does to the frame that it is carried out in.

  An operation changes the values in its frame. Where the frame goes on is up to the operation
  alone: to the next one, or to one of its labels.
-/

namespace Stackwright.Machine

variable {α β : Type}

/-! ## What comes out of an action -/

/-- Whatever the computation answers, if it does, is of this kind. -/
def Answers (P : α → Prop) (x : Except Fault α) : Prop := ∀ a, x = .ok a → P a

namespace Answers

variable {P : α → Prop} {Q : β → Prop}

theorem ok {a : α} (h : P a) : Answers P (.ok a) := by
  rintro _ ⟨⟩
  exact h

theorem error {e : Fault} : Answers P (.error e) := nofun

theorem any {x : Except Fault α} : Answers (fun _ => True) x := fun _ _ => trivial

theorem bind {x : Except Fault β} {k : β → Except Fault α} (hx : Answers Q x) (hk : ∀ b, Q b → Answers P (k b)) :
    Answers P (x >>= k) := by
  cases x with
  | error e => exact error
  | ok b => exact hk b (hx b rfl)

end Answers

namespace Act

/-- Whatever the action answers, if it does, is of this kind. -/
def Gives (P : α → Prop) (x : Act α) : Prop := ∀ w a w', x.exec w = (.ok a, w') → P a

namespace Gives

variable {P : α → Prop} {Q : β → Prop}

theorem pure {a : α} (h : P a) : Gives P (pure a) := by
  rintro w _ _ ⟨⟩
  exact h

theorem throw {e : Fault} : Gives P (throw e) := nofun

theorem all {x : Act α} (h : ∀ a, P a) : Gives P x := fun _ a _ _ => h a

theorem any {x : Act α} : Gives (fun _ => True) x := all fun _ => trivial

theorem lift {x : Except Fault α} (h : Answers P x) : Gives P (liftM x) := by
  intro w a w' hrun
  exact h a (congrArg Prod.fst hrun)

theorem bind {x : Act β} {k : β → Act α} (hx : Gives Q x) (hk : ∀ b, Q b → Gives P (k b)) : Gives P (x >>= k) := by
  intro w a w' hrun
  rw [exec_bind] at hrun
  rcases hx' : x.exec w with ⟨_ | b, w₁⟩
  · rw [hx'] at hrun
    cases hrun
  · rw [hx'] at hrun
    exact hk b (hx w b w₁ hx') w₁ a w' hrun

theorem map {x : Act β} {g : β → α} (hx : Gives (fun b => P (g b)) x) : Gives P (g <$> x) := by
  rw [map_eq_pure_bind]
  exact hx.bind fun _ hb => .pure hb

end Gives

end Act

/-! ## Frames -/

namespace Frame

/-- The frame has other values, and nothing else has changed. -/
def Keeps (f g : Frame) : Prop := g = { f with args := g.args, locals := g.locals, stack := g.stack }

variable {f g k : Frame}

theorem Keeps.trans (h : f.Keeps g) (h' : g.Keeps k) : f.Keeps k := by
  unfold Keeps at *
  rw [h', h]

theorem Keeps.code (h : f.Keeps g) : g.code = f.code := by rw [h]

theorem Keeps.pc (h : f.Keeps g) : g.pc = f.pc := by rw [h]

theorem Keeps.pushed (h : f.Keeps g) (v : Value) : f.Keeps (g.push v) := h.trans rfl

theorem pop_keeps (f : Frame) : Answers (fun r => f.Keeps r.2) f.pop := by
  unfold pop
  split
  · exact .error
  · exact .ok rfl

theorem pop2_keeps (f : Frame) : Answers (fun r => f.Keeps r.2.2) f.pop2 :=
  f.pop_keeps.bind fun r hr => r.2.pop_keeps.bind fun _ hr' => .ok (hr.trans hr')

theorem popN_keeps (f : Frame) (n : Nat) : Answers (fun r => f.Keeps r.2) (f.popN n) := by
  unfold popN
  split
  · exact .error
  · exact .ok rfl

theorem popInt32_keeps (f : Frame) : Answers (fun r => f.Keeps r.2) f.popInt32 := by
  refine f.pop_keeps.bind fun r hr => ?_
  split
  · exact .ok hr
  · exact .error

theorem loadArg_keeps (f : Frame) (n : Nat) : Answers f.Keeps (f.loadArg n) := by
  unfold loadArg
  split
  · exact .ok rfl
  · exact .error

theorem storeArg_keeps (f : Frame) (n : Nat) : Answers f.Keeps (f.storeArg n) := by
  refine f.pop_keeps.bind fun r hr => ?_
  dsimp only
  split
  · exact .ok (hr.trans rfl)
  · exact .error

theorem loadLocal_keeps (f : Frame) (n : Nat) : Answers f.Keeps (f.loadLocal n) := by
  unfold loadLocal
  split
  · exact .ok rfl
  · exact .error

theorem storeLocal_keeps (f : Frame) (n : Nat) : Answers f.Keeps (f.storeLocal n) := by
  refine f.pop_keeps.bind fun r hr => ?_
  dsimp only
  split
  · exact .ok (hr.trans rfl)
  · exact .error

/-- The place of a label. -/
theorem target_place (f : Frame) (l : LabelId) : Answers (fun t => f.code.labels[l.index]? = some t) (f.target l) := by
  unfold target
  split
  · exact .ok ‹_›
  · exact .error

theorem branchTaken_keeps (f : Frame) (kind : BranchKind) : Answers (fun r => f.Keeps r.2) (branchTaken f kind) := by
  cases kind with
  | always => exact .ok rfl
  | «true» | «false» => exact f.pop_keeps.bind fun r hr => .ok hr
  | _ => exact f.pop2_keeps.bind fun r hr => Answers.any.bind fun _ _ => .ok hr

end Frame

/-! ## Operations -/

/-- Operations that hand over to a method. -/
def handsOver : Stackwright.Op handles → Bool
  | .newObject _ | .callConstructor _ | .call .. | .callVirtual .. | .invokeDelegate .. => true
  | _ => false

/-- What becomes of the frame `f`, which is past the operation `op` found at `pc`. -/
inductive Flow.Follows (f : Frame) (pc : Nat) (op : Stackwright.Op handles) : Flow → Prop
  | next {g} : op ≠ .op .ret → f.Keeps g → Follows f pc op (.next g)
  | jump {g l t} : f.Keeps g → l ∈ Draft.targets op → f.code.labels[l.index]? = some t →
    Follows f pc op (.next { g with pc := t })
  | leave {l t} : l ∈ Draft.targets op → f.code.labels[l.index]? = some t → Follows f pc op (.next (f.leave pc t))
  | return {v} : op = .op .ret → Follows f pc op (.return v)
  | call {g c} : handsOver op → f.Keeps g → Follows f pc op (.call g c)
  | throw {g e} : f.Keeps g → Follows f pc op (.throw g e)

variable {p : Program} {f : Frame} {pc : Nat}

theorem Frame.jump_follows {g : Frame} {l : LabelId} {op : Stackwright.Op handles} (hg : f.Keeps g)
    (hl : l ∈ Draft.targets op) :
    Answers (fun k => (Flow.next k).Follows f pc op) (g.jump l) :=
  (g.target_place l).bind fun _ ht => .ok (.jump hg hl (hg.code ▸ ht))

theorem opcodeStep_follows (f : Frame) (pc : Nat) (op : Opcode) :
    Answers (Flow.Follows f pc (.op op)) (opcodeStep f op) := by
  unfold opcodeStep
  cases op with
  | nop => exact .ok (.next nofun rfl)
  | dup =>
    dsimp only
    split
    · exact .error
    · exact .ok (.next nofun rfl)
  | pop => exact f.pop_keeps.bind fun r hr => .ok (.next nofun hr)
  | ret =>
    dsimp only
    split
    · exact Answers.any.bind fun _ _ => .ok (.return rfl)
    · exact .ok (.return rfl)
  | throw =>
    refine f.pop_keeps.bind fun r hr => ?_
    dsimp only
    split
    · exact .error
    · exact .ok (.throw hr)
  | neg | not | convI1 | convI2 | convI4 | convI8 | convU1 | convU2 | convU4 | convU8 | convR4 | convR8 =>
    exact f.pop_keeps.bind fun r hr => Answers.any.bind fun v _ => .ok (.next nofun (hr.pushed v))
  | _ => exact f.pop2_keeps.bind fun r hr => Answers.any.bind fun v _ => .ok (.next nofun (hr.pushed _))

theorem typeStep_keeps (p : Program) (f : Frame) (op : TypeOp) (type : Ty) :
    Act.Gives f.Keeps (typeStep p f op type) := by
  refine (Act.Gives.lift f.pop_keeps).bind fun r hr => Act.Gives.any.bind fun h _ => ?_
  cases op with
  | box =>
    dsimp only
    split
    · exact .map (.all fun v => hr.pushed v)
    · exact .pure (hr.pushed _)
  | unboxAny | castClass =>
    dsimp only
    split
    · exact Act.Gives.any.bind fun _ _ => .pure (hr.pushed _)
    · split
      · exact .pure (hr.pushed _)
      · exact .throw
  | isInst => exact .pure (hr.pushed _)
  | newCell => exact .map (.all fun v => hr.pushed v)
  | loadCell => exact Act.Gives.any.bind fun _ _ => .pure (hr.pushed _)
  | storeCell =>
    refine (Act.Gives.lift r.2.pop_keeps).bind fun r' hr' => Act.Gives.any.bind fun _ _ =>
      Act.Gives.any.bind fun _ _ => ?_
    exact .pure (hr.trans hr')

theorem loadField_keeps (p : Program) (f : Frame) (field : FieldId) : Act.Gives f.Keeps (loadField p f field) := by
  refine (Act.Gives.lift f.pop_keeps).bind fun r hr => Act.Gives.any.bind fun _ _ => Act.Gives.any.bind fun _ _ =>
    Act.Gives.any.bind fun _ _ => ?_
  dsimp only
  split
  · exact .pure (hr.pushed _)
  · exact .lift .error

theorem storeField_keeps (p : Program) (f : Frame) (field : FieldId) : Act.Gives f.Keeps (storeField p f field) := by
  refine (Act.Gives.lift f.pop2_keeps).bind fun r hr => Act.Gives.any.bind fun _ _ => Act.Gives.any.bind fun _ _ =>
    Act.Gives.any.bind fun _ _ => ?_
  dsimp only
  split
  · exact Act.Gives.any.bind fun _ _ => .pure hr
  · exact .lift .error

theorem callVirtual_follows (p : Program) (f : Frame) (pc : Nat) (m : MethodId) (tail : Bool) :
    Act.Gives (Flow.Follows f pc (.callVirtual m tail)) (callVirtual p f m tail) := by
  refine (Act.Gives.lift (f.popN_keeps _)).bind fun r hr => ?_
  dsimp only
  split
  · exact .throw
  · exact .throw
  · exact Act.Gives.any.bind fun _ _ => .pure (.call rfl hr)

theorem invokeDelegate_follows (p : Program) (f : Frame) (pc : Nat) (type : Ty) (tail : Bool) :
    Act.Gives (Flow.Follows f pc (.invokeDelegate type tail)) (invokeDelegate p f type tail) := by
  unfold invokeDelegate
  split
  · refine (Act.Gives.lift (f.popN_keeps _)).bind fun r hr => (Act.Gives.lift r.2.pop_keeps).bind fun r' hr' => ?_
    dsimp only
    split
    · exact .pure (.call rfl (hr.trans hr'))
    · exact .throw
    · exact .throw
  · exact .lift .error

/-- Every operation keeps to what can become of a frame. -/
theorem opStep_follows (p : Program) (f : Frame) (pc : Nat) (op : Stackwright.Op handles) :
    Act.Gives (Flow.Follows f pc op) (opStep p f pc op) := by
  have hnext {x : Act Frame} (hop : op ≠ .op .ret) (hx : Act.Gives f.Keeps x) :
      Act.Gives (Flow.Follows f pc op) (.next <$> x) :=
    .map fun w g w' hg => .next hop (hx w g w' hg)
  cases op with
  | op opcode => exact .lift (opcodeStep_follows f pc opcode)
  | loadI32 | loadI64 | loadF64 | loadString | loadNull => exact .pure (.next nofun rfl)
  | loadArg => exact hnext nofun (.lift (f.loadArg_keeps _))
  | storeArg => exact hnext nofun (.lift (f.storeArg_keeps _))
  | loadLocal => exact hnext nofun (.lift (f.loadLocal_keeps _))
  | storeLocal => exact hnext nofun (.lift (f.storeLocal_keeps _))
  | branch kind l =>
    refine (Act.Gives.lift (f.branchTaken_keeps kind)).bind fun r hr => ?_
    dsimp only
    split
    · exact .map (.lift (Frame.jump_follows hr List.mem_cons_self))
    · exact .pure (.next nofun hr)
  | switch labels =>
    refine (Act.Gives.lift f.popInt32_keeps).bind fun r hr => .map (.lift ?_)
    dsimp only
    generalize hlabel : (if r.1 < 0 then none else labels[r.1.toNatClampNeg]?) = chosen
    cases chosen with
    | none => exact .ok (.next nofun hr)
    | some l =>
      refine Frame.jump_follows hr ?_
      split at hlabel
      · cases hlabel
      · exact List.mem_of_getElem? hlabel
  | leave l => exact (Act.Gives.lift (f.target_place l)).bind fun t ht => .pure (.leave List.mem_cons_self ht)
  | loadField field => exact hnext nofun (loadField_keeps p f field)
  | storeField field => exact hnext nofun (storeField_keeps p f field)
  | loadStatic => exact hnext nofun (Act.Gives.any.bind fun _ _ => .pure rfl)
  | storeStatic =>
    exact hnext nofun ((Act.Gives.lift f.pop_keeps).bind fun r hr => Act.Gives.any.bind fun _ _ => .pure hr)
  | newObject => exact (Act.Gives.lift (f.popN_keeps _)).bind fun r hr => .map (.all fun _ => .call rfl hr)
  | callConstructor | call => exact (Act.Gives.lift (f.popN_keeps _)).bind fun r hr => .pure (.call rfl hr)
  | callVirtual m tail => exact callVirtual_follows p f pc m tail
  | typeOp kind type => exact hnext nofun (typeStep_keeps p f kind type)
  | newDelegate =>
    exact (Act.Gives.lift f.pop_keeps).bind fun r hr => Act.Gives.any.bind fun v _ => .pure (.next nofun (hr.pushed v))
  | invokeDelegate type tail => exact invokeDelegate_follows p f pc type tail

end Stackwright.Machine
