import Stackwright.Proofs.ObjectLayouts

/-
  Stackwright.Proofs.Lasting — what a run leaves on the heap.

  A run changes the heap step by step. A relation that holds after each of these changes holds after
  any number of rounds, if the methods that the machine provides keep it too.
-/

namespace Stackwright

open Machine

variable {natives : Natives}

/-! ## Work that keeps what is there -/

/-- A relation between a heap and a later one, whatever was done in between to anything but the cells. -/
class Machine.Heap.Steady (R : Heap → Heap → Prop) : Prop where
  refl : ∀ h, R h h
  trans : ∀ {a b c}, R a b → R b c → R a c
  change : ∀ {a b : Heap}, a.Change b → b.cells = a.cells → R a b

/-- A relation between a heap and a later one, whatever was done to it in between. -/
class Machine.Heap.Lasting (R : Heap → Heap → Prop) : Prop where
  refl : ∀ h, R h h
  trans : ∀ {a b c}, R a b → R b c → R a c
  change : ∀ {a b : Heap}, a.Change b → R a b

instance (R : Heap → Heap → Prop) [Heap.Lasting R] : Heap.Steady R :=
  ⟨Heap.Lasting.refl, Heap.Lasting.trans, fun h _ => Heap.Lasting.change h⟩

namespace Machine.Act

variable {α β : Type}

/-- Whatever the work does to the heap, the relation holds between the heap and what becomes of it. -/
def Keeps (R : Heap → Heap → Prop) (x : Act α) : Prop := ∀ w, R w.heap (x.exec w).2.heap

namespace Keeps

variable {R : Heap → Heap → Prop}

theorem allocate {make : Heap → Value × Heap} (h : ∀ heap : Heap, R heap (make heap).2) : Keeps R (Act.allocate make) :=
  fun w => h w.heap

theorem changeHeap {g : Heap → Heap} (h : ∀ heap : Heap, R heap (g heap)) :
    Keeps R (Act.changeHeap g) := fun w => h w.heap

variable [Heap.Steady R]

theorem pure (a : α) : Keeps R (pure a) := fun _ => Heap.Steady.refl _

theorem throw (e : Fault) : Keeps R (throw e : Act α) := fun _ => Heap.Steady.refl _

theorem lift (x : Except Fault α) : Keeps R (liftM x : Act α) := fun _ => Heap.Steady.refl _

theorem heap : Keeps R Act.heap := fun _ => Heap.Steady.refl _

theorem get : Keeps R (MonadState.get : Act World) := fun _ => Heap.Steady.refl _

theorem bind {x : Act α} {k : α → Act β} (hx : Keeps R x) (hk : ∀ a, Keeps R (k a)) : Keeps R (x >>= k) := by
  intro w
  have hx := hx w
  rw [exec_bind]
  rcases hrun : x.exec w with ⟨r, w'⟩
  rw [hrun] at hx
  cases r with
  | error e => exact hx
  | ok a => exact Heap.Steady.trans hx (hk a w')

theorem map {x : Act α} (g : α → β) (hx : Keeps R x) : Keeps R (g <$> x) := by
  rw [map_eq_pure_bind]
  exact hx.bind fun a => .pure (g a)

theorem modify {g : World → World} (h : ∀ w, (g w).heap = w.heap) : Keeps R (modify g) := fun w => by
  show R w.heap (g w).heap
  rw [h]
  exact Heap.Steady.refl _

end Keeps

end Machine.Act

/-- The operation gives a cell a value. -/
def TypeOp.puts : TypeOp → Bool
  | .newCell | .storeCell => true
  | _ => false

namespace Machine

variable {R : Heap → Heap → Prop} [Heap.Steady R]

theorem keeps_typeStep (p : Program) (f : Frame) (op : TypeOp) (type : Ty)
    (hputs : op.puts → ∀ {a b : Heap}, a.Change b → R a b) : Act.Keeps R (typeStep p f op type) := by
  refine .bind (.lift _) fun r => .bind .heap fun h => ?_
  cases op with
  | box =>
    dsimp only
    split
    · exact .map _ (.allocate fun heap => Heap.Steady.change (.newBox heap _ _) rfl)
    · exact .pure _
  | unboxAny | castClass =>
    dsimp only
    split
    · exact .bind (.lift _) fun _ => .pure _
    · split
      · exact .pure _
      · exact .throw _
  | isInst => exact .pure _
  | newCell => exact .map _ (.allocate fun heap => hputs rfl (.newCell heap _))
  | loadCell => exact .bind (.lift _) fun _ => .pure _
  | storeCell =>
    refine .bind (.lift _) fun _ => .bind (.lift _) fun _ => .bind (.changeHeap fun heap => ?_) fun _ => .pure _
    exact hputs rfl (.setCell heap _ _)

theorem keeps_loadField (p : Program) (f : Frame) (field : FieldId) : Act.Keeps R (loadField p f field) := by
  refine .bind (.lift _) fun r => .bind (.lift _) fun _ => .bind (.lift _) fun _ => .bind .heap fun _ => ?_
  dsimp only
  split
  · exact .pure _
  · exact .lift _

theorem keeps_storeField (p : Program) (f : Frame) (field : FieldId) : Act.Keeps R (storeField p f field) := by
  refine .bind (.lift _) fun r => .bind (.lift _) fun _ => .bind (.lift _) fun _ => .bind .heap fun _ => ?_
  dsimp only
  split
  · exact .bind (.changeHeap fun heap => Heap.Steady.change (.setField heap _ _ _) rfl) fun _ => .pure _
  · exact .lift _

theorem keeps_construction (p : Program) (ctor : MethodId) (args : List Value) :
    Act.Keeps R (p.construction ctor args) := by
  unfold Program.construction
  dsimp only
  split
  · exact .pure _
  · refine .bind ?_ fun _ => .pure _
    unfold Program.allocate
    dsimp only
    split
    · exact .throw _
    · exact .allocate fun heap => Heap.Steady.change (.newObject heap _) rfl

theorem keeps_callVirtual (p : Program) (f : Frame) (m : MethodId) (tail : Bool) :
    Act.Keeps R (callVirtual p f m tail) := by
  refine .bind (.lift _) fun ⟨args, f⟩ => ?_
  dsimp only
  split
  · exact .throw _
  · exact .throw _
  · exact .bind .heap fun _ => .pure _

theorem keeps_invokeDelegate (p : Program) (f : Frame) (type : Ty) (tail : Bool) :
    Act.Keeps R (invokeDelegate p f type tail) := by
  unfold invokeDelegate
  split
  · refine .bind (.lift _) fun _ => .bind (.lift _) fun ⟨callee, f⟩ => ?_
    dsimp only
    split
    · exact .pure _
    · exact .throw _
    · exact .throw _
  · exact .lift _

theorem keeps_opStep (p : Program) (f : Frame) (pc : Nat) (op : Stackwright.Op handles)
    (hputs : ∀ o type, op = .typeOp o type → o.puts → ∀ {a b : Heap}, a.Change b → R a b) :
    Act.Keeps R (opStep p f pc op) := by
  cases op with
  | op | loadI32 | loadI64 | loadF64 | loadString | loadNull => exact .lift _
  | loadArg | storeArg | loadLocal | storeLocal => exact .map _ (.lift _)
  | branch =>
    refine .bind (.lift _) fun ⟨taken, f⟩ => ?_
    dsimp only
    split
    · exact .map _ (.lift _)
    · exact .pure _
  | switch => exact .bind (.lift _) fun _ => .map _ (.lift _)
  | leave | callConstructor | call => exact .bind (.lift _) fun _ => .pure _
  | loadField => exact .map _ (keeps_loadField _ _ _)
  | storeField => exact .map _ (keeps_storeField _ _ _)
  | loadStatic => exact .map _ (.bind .get fun _ => .pure _)
  | storeStatic => exact .map _ (.bind (.lift _) fun _ => .bind (.modify fun _ => rfl) fun _ => .pure _)
  | newObject => exact .bind (.lift _) fun _ => .map _ (keeps_construction _ _ _)
  | callVirtual => exact keeps_callVirtual _ _ _ _
  | typeOp o type => exact .map _ (keeps_typeStep _ _ _ _ (hputs o type rfl))
  | newDelegate =>
    exact .bind (.lift _) fun _ => .bind (.allocate fun heap => Heap.Steady.change (.newDelegate heap _ _) rfl) fun _ =>
      .pure _
  | invokeDelegate => exact keeps_invokeDelegate _ _ _ _

/-- The frame is about to give a cell a value. -/
def Frame.IsPutting (f : Frame) : Prop := ∃ o type, f.code.ops[f.pc]? = some (.plain (.typeOp o type)) ∧ o.puts

theorem keeps_step (p : Program) (f : Frame) (hputs : f.IsPutting → ∀ {a b : Heap}, a.Change b → R a b) :
    Act.Keeps R (step p f) := by
  unfold step
  split
  · exact .lift _
  · rename_i hop
    refine keeps_opStep _ _ _ _ fun o type heq ho => hputs ⟨o, type, ?_, ho⟩
    rw [hop, heq]
  · exact .pure _

/-- All of the methods keep what is there. -/
def Natives.Keep (R : Heap → Heap → Prop) (natives : Natives) : Prop :=
  ∀ native ∈ natives, ∀ receiver args, Act.Keeps R (native.run receiver args)

theorem keeps_textArg (v : Value) : Act.Keeps R (Native.textArg v) := by
  cases v <;> first | exact .pure _ | exact .throw _

theorem Natives.standard_keep : Natives.standard.Keep R := by
  simp only [Keep, standard, List.forall_mem_cons]
  refine ⟨fun _ _ => .pure _, fun receiver _ => ?_, fun _ _ => ?_, fun _ _ => ?_, fun _ args => ?_,
    fun receiver _ => ?_, fun receiver args => ?_, fun receiver _ => ?_, by simp⟩
  · show Act.Keeps R (if receiver.isNull then _ else _)
    split
    · exact .throw _
    · exact .bind .heap fun _ => .pure _
  · exact .bind .heap fun _ => .bind (.modify fun _ => rfl) fun _ => .pure _
  · exact .bind .heap fun _ => .bind (.modify fun _ => rfl) fun _ => .pure _
  · exact .bind (keeps_textArg _) fun _ => .bind (keeps_textArg _) fun _ => .pure _
  · show Act.Keeps R (if receiver.isNull then _ else _)
    split
    · exact .throw _
    · exact .bind (keeps_textArg _) fun _ => .pure _
  · refine .bind (keeps_textArg _) fun message => ?_
    split
    · exact .allocate fun heap => Heap.Steady.change (.newObject heap _) rfl
    · exact .pure _
  · cases receiver with
    | object address =>
      refine .bind .heap fun _ => ?_
      dsimp only
      split
      · exact .pure _
      · exact .throw _
    | _ => exact .throw _

theorem Natives.Keep.call {natives : Natives} (h : natives.Keep R) (name : String) (args : List Value) :
    Act.Keeps R (natives.call name args) := by
  unfold Natives.call
  split
  · exact .throw _
  · rename_i native hfind
    split
    · exact .throw _
    · split
      · exact h native (List.mem_of_find?_eq_some hfind) _ _
      · exact .throw _

theorem keeps_invoke (h : natives.Keep R) (p : Program) (frames : List Frame) (call : Call) :
    Act.Keeps R (invoke p natives frames call) := by
  unfold invoke
  dsimp only
  split
  · refine .bind (h.call _ _) fun _ => ?_
    dsimp only
    split
    · exact .pure _
    · split <;> exact .pure _
  · exact .lift _
  · exact .throw _
  · exact .throw _

theorem keeps_advance (h : natives.Keep R) (p : Program) (frames : List Frame)
    (hputs : ∀ f ∈ frames.head?, f.IsPutting → ∀ {a b : Heap}, a.Change b → R a b) :
    Act.Keeps R (advance p natives frames) := by
  unfold advance
  split
  · exact .pure _
  · refine .bind (keeps_step _ _ (hputs _ rfl)) fun flow => ?_
    split
    · exact .pure _
    · exact .pure _
    · exact keeps_invoke h _ _ _
    · exact .bind .heap fun _ => .map _ (.lift _)

end Machine

/-- Any number of rounds. -/
theorem Leads.keeps {R : Heap → Heap → Prop} [Heap.Lasting R] {p : Program} (h : natives.Keep R)
    {a b : List Frame × World} (hleads : Leads p natives a b) : R a.2.heap b.2.heap := by
  induction hleads with
  | refl => exact Heap.Lasting.refl _
  | tail _ hlast ih =>
    rename_i b c _
    have hkeeps := keeps_advance h p b.1 (fun _ _ _ => Heap.Lasting.change) b.2
    rw [hlast] at hkeeps
    exact Heap.Lasting.trans ih hkeeps

end Stackwright
