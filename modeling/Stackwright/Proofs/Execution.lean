import Stackwright.Proofs.Installed
import Stackwright.Proofs.Operations
import Stackwright.Machine.Run

/-
  Stackwright.Proofs.Execution — running code in place.

  A frame goes on quietly from one operation to the next: the world stays as it is and no other
  frame takes part. Each instruction has a lemma that says where the frame goes when the
  instruction stands at its position; straight-line code follows by induction.

  - `Layout.runs_calc`, `Layout.faults_calc`: code that only computes runs to its end, or faults.
  - `Runs.call_eq`, `Faults.call_eq`: what a call of a static method gives, read off the run of its
    frame.
-/

namespace Stackwright

open Machine

variable {r : Except Fault (List Value)} {x : Symbol} {table : List Symbol} {z : Int32}
variable {e : Fault} {old v : Value} {place : Place}

/-! ## Runs of one frame -/

/-- The next operation leads to `g` and touches nothing else. -/
def Next (p : Program) (f g : Frame) : Prop := ∀ w, (step p f).exec w = (.ok (.next g), w)

inductive Runs (p : Program) : Frame → Frame → Prop
  | refl {f} : Runs p f f
  | step {f g h} : Next p f g → Runs p g h → Runs p f h

/-- The run reaches an operation that faults. -/
def Faults (p : Program) (f : Frame) (e : Fault) : Prop :=
  ∃ g, Runs p f g ∧ ∀ w, (step p g).exec w = (.error e, w)

variable {p : Program} {f g h : Frame}

theorem Next.runs (hfg : Next p f g) : Runs p f g := .step hfg .refl

theorem Runs.trans (hfg : Runs p f g) (hgh : Runs p g h) : Runs p f h := by
  induction hfg with
  | refl => exact hgh
  | step hnext _ ih => exact .step hnext (ih hgh)

theorem Runs.faults (hfg : Runs p f g) (hg : Faults p g e) : Faults p f e := by
  obtain ⟨last, hlast, hstop⟩ := hg
  exact ⟨last, hfg.trans hlast, hstop⟩

/-! ## Places -/

/-- Where a variable of a body lives. -/
inductive Place where
  | arg (index : Nat)
  | slot (index : Nat)
  deriving DecidableEq

namespace Machine.Frame

variable (f : Frame)

/-- The frame at another position with another stack. -/
def moved (pc : Nat) (stack : List Value) : Frame := { f with pc, stack }

def read : Place → Option Value
  | .arg index => f.args[index]?
  | .slot index => f.locals[index]?

def write (v : Value) : Place → Frame
  | .arg index => { f with args := f.args.setIfInBounds index v }
  | .slot index => { f with locals := f.locals.setIfInBounds index v }

/-- What no operation of the body changes. -/
def fixed : Code × Nat × Bool × OnReturn := (f.code, f.locals.size, f.returnsValue, f.onReturn)

@[simp] theorem moved_pc (pc : Nat) (stack : List Value) : (f.moved pc stack).pc = pc := rfl

@[simp] theorem moved_stack (pc : Nat) (stack : List Value) : (f.moved pc stack).stack = stack := rfl

@[simp] theorem moved_fixed (pc : Nat) (stack : List Value) : (f.moved pc stack).fixed = f.fixed := rfl

@[simp] theorem write_fixed (v : Value) (place : Place) : (f.write v place).fixed = f.fixed := by
  cases place <;> simp [write, fixed]

theorem read_write_self (h : f.read place = some old) :
    (f.write v place).read place = some v := by
  cases place with
  | arg i | slot i => simp only [read, write] at h ⊢; grind

theorem read_write_of_ne {other : Place} (h : other ≠ place) :
    (f.write v place).read other = f.read other := by
  cases place <;> cases other <;> simp only [read, write]
  case arg.arg i j => exact Array.getElem?_setIfInBounds_ne (fun e => h (congrArg _ e.symm))
  case slot.slot i j => exact Array.getElem?_setIfInBounds_ne (fun e => h (congrArg _ e.symm))

end Machine.Frame

/-! ## Single instructions -/

namespace Machine

variable {op : Opcode} {pc : Nat} {v a b : Value} {stack : List Value}

theorem opcodeStep_unary (hop : op.isUnary) : opcodeStep (f.moved pc (v :: stack)) op =
    (unary op v).map fun r => .next (f.moved pc (r :: stack)) := by
  cases op <;> first | contradiction | rfl

theorem opcodeStep_arithmetic (hop : op.isArithmetic) : opcodeStep (f.moved pc (b :: a :: stack)) op =
    (arithmetic op a b).map fun r => .next (f.moved pc (r :: stack)) := by
  cases op <;> first | contradiction | rfl

theorem opcodeStep_comparison (hop : op.isComparison) : opcodeStep (f.moved pc (b :: a :: stack)) op =
    (compare op a b).map fun r => .next (f.moved pc (.ofBool r :: stack)) := by
  cases op <;> first | contradiction | rfl

theorem opcodeStep_conversion (hop : op.isConversion) : opcodeStep (f.moved pc (v :: stack)) op =
    (convert op v).map fun r => .next (f.moved pc (r :: stack)) := by
  cases op <;> first | contradiction | rfl

end Machine

namespace Layout

variable {L : Layout} {i : Instr} {pc : Nat} {v : Value} {stack : List Value} {code : List Instr}

/-- The step of a frame at an instruction. -/
theorem step_at (p : Program) (stack : List Value) (hcode : f.code = L.code) (hat : L.At pc i) :
    ∃ op, L.op? i = some op ∧ step p (f.moved pc stack) = opStep p (f.moved (pc + 1) stack) pc op := by
  obtain ⟨op, hop, hops⟩ := hat
  refine ⟨op, hop, ?_⟩
  have hget : (f.moved pc stack).code.ops[(f.moved pc stack).pc]? = some (.plain op) := by
    rw [← hops, ← hcode]
    rfl
  rw [step, hget]
  rfl

theorem exec_calc (hcode : f.code = L.code) (hat : L.At pc i) (hi : Calculates i stack r) (w : World) :
    (step p (f.moved pc stack)).exec w = (r.map fun next => .next (f.moved (pc + 1) next), w) := by
  obtain ⟨op, hop, hstep⟩ := step_at p stack hcode hat
  rw [hstep]
  cases hi with
  | i32 | i64 | string | null => cases hop; rfl
  | unary ho hv =>
    cases hop
    show (opcodeStep _ _, w) = _
    rw [opcodeStep_unary ho, hv]
    cases ‹Except Fault Value› <;> rfl
  | arithmetic ho hv =>
    cases hop
    show (opcodeStep _ _, w) = _
    rw [opcodeStep_arithmetic ho, hv]
    cases ‹Except Fault Value› <;> rfl
  | compare ho hv =>
    cases hop
    show (opcodeStep _ _, w) = _
    rw [opcodeStep_comparison ho, hv]
    cases ‹Except Fault Bool› <;> rfl
  | convert ho hv =>
    cases hop
    show (opcodeStep _ _, w) = _
    rw [opcodeStep_conversion ho, hv]
    cases ‹Except Fault Value› <;> rfl

/-- Instructions that compute are no labels. -/
theorem holds_calc (L : Layout) (pc : Nat) (hi : Calculates i stack r) :
    (L.Holds pc (i :: code) ↔ L.At pc i ∧ L.Holds (pc + 1) code) ∧ extent (i :: code) = extent code + 1 := by
  cases hi <;> exact ⟨Iff.rfl, rfl⟩

/-- Code that only computes runs to its end. -/
theorem runs_calc {next : List Value} (hcode : f.code = L.code) (hholds : L.Holds pc code)
    (hcalc : Calc code stack (.ok next)) : Runs p (f.moved pc stack) (f.moved (pc + extent code) next) := by
  generalize hr : Except.ok next = r at hcalc
  induction hcalc generalizing pc with
  | nil =>
    cases hr
    exact .refl
  | step hi _ ih =>
    obtain ⟨hiff, hextent⟩ := holds_calc L pc hi
    obtain ⟨hat, hrest⟩ := hiff.mp hholds
    rw [hextent, ← Nat.add_assoc, Nat.add_right_comm]
    exact .step (exec_calc hcode hat hi) (ih hrest hr)
  | fault => cases hr

theorem faults_calc (hcode : f.code = L.code) (hholds : L.Holds pc code) (hcalc : Calc code stack (.error e))
    : Faults p (f.moved pc stack) e := by
  generalize hr : Except.error e = r at hcalc
  induction hcalc generalizing pc with
  | nil => cases hr
  | step hi _ ih =>
    obtain ⟨hat, hrest⟩ := (holds_calc L pc hi).1.mp hholds
    have hnext : Next p (f.moved pc _) (f.moved (pc + 1) _) := exec_calc hcode hat hi
    exact hnext.runs.faults (ih hrest hr)
  | fault hi =>
    cases hr
    obtain ⟨hat, -⟩ := (holds_calc L pc hi).1.mp hholds
    exact ⟨_, .refl, exec_calc hcode hat hi⟩

/-! ### Places, jumps and the end -/

theorem next_pop (hcode : f.code = L.code) (hat : L.At pc (.op .pop)) :
    Next p (f.moved pc (v :: stack)) (f.moved (pc + 1) stack) := by
  intro w
  obtain ⟨op, hop, hstep⟩ := step_at p (v :: stack) hcode hat
  cases hop
  rw [hstep]
  rfl

theorem next_dup (hcode : f.code = L.code) (hat : L.At pc (.op .dup)) :
    Next p (f.moved pc (v :: stack)) (f.moved (pc + 1) (v :: v :: stack)) := by
  intro w
  obtain ⟨op, hop, hstep⟩ := step_at p (v :: stack) hcode hat
  cases hop
  rw [hstep]
  rfl

/-- The label stands for a position to jump to. -/
theorem jump_placed {target : Nat} {l : LabelId} (hcode : f.code = L.code) (hx : L.label x = some l)
    (hplaced : L.Placed x target) (pc : Nat) (stack : List Value) :
    (f.moved pc stack).jump l = .ok (f.moved target stack) := by
  obtain ⟨l', hl, htarget⟩ := hplaced
  cases hx.symm.trans hl
  have hget : (f.moved pc stack).code.labels[l.index]? = some target := by
    rw [← htarget, ← hcode]
    rfl
  rw [Frame.jump, Frame.target, hget]
  rfl

theorem next_branch {target : Nat} (hcode : f.code = L.code) (hat : L.At pc (.branch .always x))
    (hplaced : L.Placed x target) : Next p (f.moved pc stack) (f.moved target stack) := by
  intro w
  obtain ⟨op, hop, hstep⟩ := step_at p stack hcode hat
  obtain ⟨l, hl, rfl⟩ := Option.map_eq_some_iff.mp hop
  rw [hstep]
  show (Act.exec (Flow.next <$> ((f.moved (pc + 1) stack).jump l : Act Frame)) w) = _
  rw [jump_placed hcode hl hplaced]
  rfl

/-- A conditional branch goes to its label when the value on top is as asked for. -/
theorem next_branchIf {target : Nat} {isOr : Bool} (hcode : f.code = L.code)
    (hat : L.At pc (.branch (decidingBranch isOr) x)) (hplaced : L.Placed x target) (b : Bool) :
    Next p (f.moved pc (.ofBool b :: stack)) (f.moved (if b = isOr then target else pc + 1) stack) := by
  intro w
  obtain ⟨op, hop, hstep⟩ := step_at p (.ofBool b :: stack) hcode hat
  obtain ⟨l, hl, rfl⟩ := Option.map_eq_some_iff.mp hop
  have hjump := jump_placed hcode hl hplaced (pc + 1) stack
  rw [hstep]
  cases isOr <;> cases b
  case false.true | true.false => rfl
  case false.false | true.true =>
    show (Act.exec (Flow.next <$> ((f.moved (pc + 1) stack).jump l : Act Frame)) w) = _
    rw [hjump]
    rfl

/-- Where a switch goes, if it jumps. -/
def switchTarget? (table : List Symbol) (z : Int32) : Option Symbol :=
  if z < 0 then none else table[z.toNatClampNeg]?

theorem getElem?_mapM {α β : Type} {g : α → Option β} {xs : List α} {ys : List β} (h : xs.mapM g = some ys) (n : Nat) :
    ys[n]? = xs[n]?.bind g := by
  induction xs generalizing ys n with
  | nil =>
    cases h
    rfl
  | cons x xs ih =>
    simp only [List.mapM_cons, Option.pure_def, Option.bind_eq_bind, Option.bind_eq_some_iff, Option.some.injEq] at h
    obtain ⟨y, hy, zs, hzs, rfl⟩ := h
    cases n with
    | zero => simpa using hy.symm
    | succ n => simpa using ih hzs n

/-- A switch looks up the label for the number on top. -/
theorem switchTarget?_bind {labels : List LabelId} (h : table.mapM L.label = some labels)
    (z : Int32) : (if z < 0 then none else labels[z.toNatClampNeg]?) = (switchTarget? table z).bind L.label := by
  unfold switchTarget?
  split
  · rfl
  · exact getElem?_mapM h _

theorem next_switch {target : Nat} (hcode : f.code = L.code)
    (hat : L.At pc (.switch table)) (hz : switchTarget? table z = some x) (hplaced : L.Placed x target) :
    Next p (f.moved pc (.i32 z :: stack)) (f.moved target stack) := by
  intro w
  obtain ⟨op, hop, hstep⟩ := step_at p (.i32 z :: stack) hcode hat
  obtain ⟨labels, hlabels, rfl⟩ := Option.map_eq_some_iff.mp hop
  obtain ⟨l, hl, -⟩ := id hplaced
  rw [hstep]
  show Act.exec (Flow.next <$> ((f.moved (pc + 1) stack).jumpIfSome
    (if z < 0 then none else labels[z.toNatClampNeg]?) : Act Frame)) w = _
  rw [switchTarget?_bind hlabels, hz, Option.bind_some, hl, Frame.jumpIfSome, jump_placed hcode hl hplaced]
  rfl

theorem next_switch_past (hcode : f.code = L.code) (hat : L.At pc (.switch table))
    (hz : switchTarget? table z = none) : Next p (f.moved pc (.i32 z :: stack)) (f.moved (pc + 1) stack) := by
  intro w
  obtain ⟨op, hop, hstep⟩ := step_at p (.i32 z :: stack) hcode hat
  obtain ⟨labels, hlabels, rfl⟩ := Option.map_eq_some_iff.mp hop
  rw [hstep]
  show Act.exec (Flow.next <$> ((f.moved (pc + 1) stack).jumpIfSome
    (if z < 0 then none else labels[z.toNatClampNeg]?) : Act Frame)) w = _
  rw [switchTarget?_bind hlabels, hz]
  rfl

/-- Where the machine keeps a variable that is not in a cell. -/
def place? (L : Layout) : Storage → Option Place
  | .argument index _ => some (.arg index.toNat)
  | .slot name _ false => (L.slot name).map fun l => .slot l.index
  | _ => none

variable {storage : Storage} {place : Place}

theorem runs_fetch (hcode : f.code = L.code) (hplace : L.place? storage = some place) (hread : f.read place = some v)
    (hholds : L.Holds pc storage.fetch) : Runs p (f.moved pc stack)
    (f.moved (pc + extent storage.fetch) (v :: stack)) := by
  refine Next.runs fun w => ?_
  cases storage with
  | argument index type =>
    cases hplace
    obtain ⟨op, hop, hstep⟩ := step_at p stack hcode hholds.1
    cases hop
    rw [hstep]
    show Act.exec (Flow.next <$> ((f.moved (pc + 1) stack).loadArg index.toNat : Act Frame)) w = _
    have hget : (f.moved (pc + 1) stack).args[index.toNat]? = some v := hread
    rw [Frame.loadArg, hget]
    rfl
  | slot name type boxed =>
    cases boxed with
    | true => cases hplace
    | false =>
      obtain ⟨l, hl, rfl⟩ := Option.map_eq_some_iff.mp hplace
      obtain ⟨op, hop, hstep⟩ := step_at p stack hcode hholds.1
      obtain ⟨l', hl', rfl⟩ := Option.map_eq_some_iff.mp hop
      cases hl.symm.trans hl'
      rw [hstep]
      show Act.exec (Flow.next <$> ((f.moved (pc + 1) stack).loadLocal l.index : Act Frame)) w = _
      have hget : (f.moved (pc + 1) stack).locals[l.index]? = some v := hread
      rw [Frame.loadLocal, hget]
      rfl
  | field => cases hplace

theorem next_store (hcode : f.code = L.code) (hplace : L.place? storage = some place) (hread : f.read place = some old)
    (hat : L.At pc storage.afterStore) :
    Next p (f.moved pc (v :: stack)) ((f.write v place).moved (pc + 1) stack) := by
  intro w
  cases storage with
  | argument index type =>
    cases hplace
    obtain ⟨op, hop, hstep⟩ := step_at p (v :: stack) hcode hat
    cases hop
    rw [hstep]
    have hlt : index.toNat < f.args.size := (Array.getElem?_eq_some_iff.mp hread).1
    show Act.exec (Flow.next <$> ((f.moved (pc + 1) (v :: stack)).storeArg index.toNat : Act Frame)) w = _
    have hstore : (f.moved (pc + 1) (v :: stack)).storeArg index.toNat =
        .ok ((f.write v (.arg index.toNat)).moved (pc + 1) stack) := if_pos hlt
    rw [hstore]
    rfl
  | slot name type boxed =>
    cases boxed with
    | true => cases hplace
    | false =>
      obtain ⟨l, hl, rfl⟩ := Option.map_eq_some_iff.mp hplace
      obtain ⟨op, hop, hstep⟩ := step_at p (v :: stack) hcode hat
      obtain ⟨l', hl', rfl⟩ := Option.map_eq_some_iff.mp hop
      cases hl.symm.trans hl'
      rw [hstep]
      have hlt : l.index < f.locals.size := (Array.getElem?_eq_some_iff.mp hread).1
      show Act.exec (Flow.next <$> ((f.moved (pc + 1) (v :: stack)).storeLocal l.index : Act Frame)) w = _
      have hstore : (f.moved (pc + 1) (v :: stack)).storeLocal l.index =
          .ok ((f.write v (.slot l.index)).moved (pc + 1) stack) := if_pos hlt
      rw [hstore]
      rfl
  | field => cases hplace

theorem step_ret (hcode : f.code = L.code) (hat : L.At pc (.op .ret)) (hret : f.returnsValue) (w : World) :
    (step p (f.moved pc (v :: stack))).exec w = (.ok (.return v), w) := by
  obtain ⟨op, hop, hstep⟩ := step_at p (v :: stack) hcode hat
  cases hop
  rw [hstep]
  show (opcodeStep _ .ret, w) = _
  have h : opcodeStep (f.moved (pc + 1) (v :: stack)) .ret = .ok (.return v) := if_pos hret
  rw [h]

theorem step_ret_void (hcode : f.code = L.code) (hat : L.At pc (.op .ret)) (hret : f.returnsValue = false)
    (w : World) : (step p (f.moved pc stack)).exec w = (.ok (.return .null), w) := by
  obtain ⟨op, hop, hstep⟩ := step_at p stack hcode hat
  cases hop
  rw [hstep]
  show (opcodeStep _ .ret, w) = _
  have hret : ¬(f.moved (pc + 1) stack).returnsValue := by
    rw [show (f.moved (pc + 1) stack).returnsValue = f.returnsValue from rfl, hret]
    decide
  have h : opcodeStep (f.moved (pc + 1) stack) .ret = .ok (.return .null) := if_neg hret
  rw [h]

end Layout

/-! ## Calls -/

namespace Machine

variable {α β : Type} {natives : Natives} {w : World} {rest : List Frame} {e : Fault} {v : Value}

theorem Act.exec_bind (x : Act α) (k : α → Act β) (w : World) :
    (x >>= k).exec w =
      match x.exec w with
      | (.ok a, w) => (k a).exec w
      | (.error e, w) => (.error e, w) := by
  simp only [Act.exec, ExceptT.run_bind, StateT.run_bind]
  cases x.run.run w with
  | mk r w => cases r <;> rfl

theorem advance_next (h : Next p f g) : (advance p natives (f :: rest)).exec w = (.ok (.running (g :: rest)), w) := by
  rw [advance, Act.exec_bind, h w]
  rfl

theorem advance_return (h : (step p f).exec w = (.ok (.return v), w)) :
    (advance p natives (f :: rest)).exec w = (.ok (finishFrame v (f :: rest)), w) := by
  rw [advance, Act.exec_bind, h]
  rfl

theorem advance_fault (h : (step p f).exec w = (.error e, w)) :
    (advance p natives (f :: rest)).exec w = (.error e, w) := by
  rw [advance, Act.exec_bind, h]

end Machine

section Calls

variable {natives : Natives}

/-- A run is a number of rounds. -/
theorem Runs.runFrames_eq (natives : Natives) (hrun : Runs p f g) : ∃ n, ∀ fuel rest w,
    runFrames p natives (fuel + n) (f :: rest) w = runFrames p natives fuel (g :: rest) w := by
  induction hrun with
  | refl => exact ⟨0, fun _ _ _ => rfl⟩
  | step hnext _ ih =>
    obtain ⟨n, hn⟩ := ih
    refine ⟨n + 1, fun fuel rest w => ?_⟩
    rw [← hn fuel rest w, ← Nat.add_assoc, runFrames, advance_next hnext]

variable {id : MethodId} {args : List Value} {code : Code}

/-- The frame that a call from outside starts with. -/
def entryFrame (p : Program) (id : MethodId) (code : Code) (args : List Value) : Frame :=
  newFrame (p.method id) code { method := id, args, onReturn := p.onReturnOf id, tail := false }

theorem call_eq (hkind : (p.method id).kind = .defined (some code)) (hargs : args.length = (p.method id).arity)
    (fuel : Nat)
    (w : World) : Loaded.call ⟨p, natives⟩ fuel id args w = runFrames p natives fuel [entryFrame p id code args] w := by
  have hinvoke (w : World) : (invoke p natives [] { method := id, args, onReturn := p.onReturnOf id, tail := false }).exec w =
      (.ok (.running [entryFrame p id code args]), w) := by
    rw [invoke, hkind]
    show (invokeCode _ _ _ _, w) = _
    simp [invokeCode, hargs, maxFrames, entryFrame]
  simp only [Loaded.call, Loaded.start, pure_bind, hinvoke]

/-- A run that ends with a return gives the returned value. -/
theorem Runs.call_eq (natives : Natives) (hkind : (p.method id).kind = .defined (some code))
    (hargs : args.length = (p.method id).arity) (hrun : Runs p (entryFrame p id code args) g)
    (hret : ∀ w, (Machine.step p g).exec w = (.ok (.return v), w)) :
    ∃ n, ∀ fuel ≥ n, ∀ w, Loaded.call ⟨p, natives⟩ fuel id args w =
      (some (.ok ((g.onReturn.result v).getD .null)), w) := by
  obtain ⟨n, hn⟩ := hrun.runFrames_eq natives
  refine ⟨n + 1, fun fuel hfuel w => ?_⟩
  obtain ⟨k, rfl⟩ : ∃ k, fuel = k + 1 + n := ⟨fuel - (n + 1), by omega⟩
  rw [Stackwright.call_eq hkind hargs, hn, runFrames, advance_return (hret w)]
  rfl

theorem Faults.call_eq (natives : Natives) (hkind : (p.method id).kind = .defined (some code))
    (hargs : args.length = (p.method id).arity) (hfaults : Faults p (entryFrame p id code args) e) :
    ∃ n, ∀ fuel ≥ n, ∀ w, Loaded.call ⟨p, natives⟩ fuel id args w = (some (.error e), w) := by
  obtain ⟨g, hrun, hstop⟩ := hfaults
  obtain ⟨n, hn⟩ := hrun.runFrames_eq natives
  refine ⟨n + 1, fun fuel hfuel w => ?_⟩
  obtain ⟨k, rfl⟩ : ∃ k, fuel = k + 1 + n := ⟨fuel - (n + 1), by omega⟩
  rw [Stackwright.call_eq hkind hargs, hn, runFrames, advance_fault (hstop w)]

end Calls

end Stackwright
