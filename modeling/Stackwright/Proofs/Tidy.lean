import Stackwright.Proofs.Lowers

/-
  Stackwright.Proofs.Tidy — the labels and locals of lowered code.

  Every label and local of a lowered block is drawn from the supply while the block is made, so
  none comes up twice; a block goes to labels it defines and reads locals it declares, except
  for those it was given from outside.

  - `Lowers.tidy`: what holds of every derivation.
-/

namespace Stackwright

variable {others xs : List Symbol} {index : Nat} {x : Symbol}

/-! ## Symbols up to their hints -/

namespace Symbol

theorem beq_iff {a b : Symbol} : (a == b) ↔ a.order b = .eq := by
  show (a.order b == .eq) = true ↔ _
  cases a.order b <;> decide

instance : EquivBEq Symbol where
  rfl := beq_iff.mpr Std.ReflCmp.compare_self
  symm h := beq_iff.mpr (Std.OrientedCmp.eq_symm (beq_iff.mp h))
  trans hab hbc := beq_iff.mpr (Std.TransCmp.eq_trans (beq_iff.mp hab) (beq_iff.mp hbc))

@[simp] theorem generated_beq (i j : Nat) (h k : Option String) :
    (generated i h == generated j k) = decide (i = j) := by
  rw [Bool.eq_iff_iff, beq_iff, decide_eq_true_iff]
  exact Nat.compare_eq_eq

@[simp] theorem named_beq_generated (name : String) (i : Nat) (h : Option String) :
    (named name == generated i h) = false := rfl

@[simp] theorem generated_beq_named (name : String) (i : Nat) (h : Option String) :
    (generated i h == named name) = false := rfl

end Symbol

theorem Supply.le_skip (s : Supply) (n : Nat) : s.next ≤ (s.skip n).next := Nat.le_add_right ..

namespace Symbol

/-- Whether a symbol was drawn between two states of the supply, as a number. -/
def drawn (s t : Supply) : Symbol → Nat
  | .generated i _ => if s.next ≤ i ∧ i < t.next then 1 else 0
  | .named _ => 0

/-- How often a symbol comes up in a list. -/
def times (xs : List Symbol) (x : Symbol) : Nat := xs.countP (· == x)

@[simp] theorem times_nil (x : Symbol) : times [] x = 0 := rfl

@[simp] theorem times_append (xs ys : List Symbol) (x : Symbol) : times (xs ++ ys) x = times xs x + times ys x :=
  List.countP_append

theorem times_cons (y : Symbol) (xs : List Symbol) (x : Symbol) : times (y :: xs) x = times [y] x + times xs x :=
  times_append [y] xs x

@[simp] theorem times_label (s : Supply) (x : Symbol) : times [s.label] x = drawn s (s.skip 1) x := by
  cases x with
  | named name => rfl
  | generated i h => simp [times, drawn, Supply.label, List.countP_cons]; grind

@[simp] theorem times_slot (s : Supply) (name x : Symbol) : times [s.slot name] x = drawn s (s.skip 1) x := by
  cases x with
  | named name => rfl
  | generated i h => simp [times, drawn, Supply.slot, List.countP_cons]; grind

@[simp] theorem drawn_self (s : Supply) (x : Symbol) : drawn s s x = 0 := by
  cases x <;> simp [drawn]

theorem drawn_le_one (s t : Supply) (x : Symbol) : drawn s t x ≤ 1 := by
  cases x with
  | named => exact Nat.zero_le _
  | generated i hint => simp only [drawn]; split <;> omega

theorem drawn_add {s t u : Supply} (hst : s.next ≤ t.next) (htu : t.next ≤ u.next) (x : Symbol) :
    drawn s t x + drawn t u x = drawn s u x := by
  cases x with
  | named name => rfl
  | generated i h => simp only [drawn]; split <;> split <;> split <;> omega

theorem times_labels (s : Supply) (n : Nat) (x : Symbol) : times (s.labels n) x = drawn s (s.skip n) x := by
  induction n generalizing s with
  | zero => simp [Supply.labels]
  | succ n ih =>
    rw [Supply.labels, ← List.singleton_append, times_append, times_label, ih, Supply.skip_skip, Nat.add_comm n 1]
    exact drawn_add (by simp) (by simp) x

end Symbol

open Stackwright.Symbol (drawn times drawn_add)

/-! ## Code without labels -/

/-- Instructions outside protected regions. -/
def Instr.isFlat : Instr → Bool
  | .leave _ | .beginTry _ | .beginCatch _ | .beginFinally | .endTry _ => false
  | _ => true

/-- An instruction that names nothing but some locals. -/
def Instr.Reads (slots : List Symbol) (i : Instr) : Prop :=
  i.definedLabel? = none ∧ i.usedLabels = [] ∧ (∀ x, i.local? = some x → x ∈ slots) ∧ i.isFlat = true

/-- Code that names nothing but some locals. -/
def Reads (slots : List Symbol) (code : List Instr) : Prop := ∀ i ∈ code, i.Reads slots

namespace Reads

variable {slots : List Symbol} {code more : List Instr}

theorem labels (h : Reads slots code) : code.filterMap Instr.definedLabel? = [] :=
  List.filterMap_eq_nil_iff.mpr fun i hi => (h i hi).1

theorem usedLabels (h : Reads slots code) : code.flatMap Instr.usedLabels = [] :=
  List.flatMap_eq_nil_iff.mpr fun i hi => (h i hi).2.1

theorem locals (h : Reads slots code) : ∀ x ∈ code.filterMap Instr.local?, x ∈ slots := by
  intro x hx
  obtain ⟨i, hi, hix⟩ := List.mem_filterMap.mp hx
  exact (h i hi).2.2.1 x hix

theorem flat (h : Reads slots code) : ∀ i ∈ code, i.isFlat := fun i hi => (h i hi).2.2.2

theorem nil : Reads slots [] := by simp [Reads]

theorem cons {i : Instr} (hi : i.Reads slots) (h : Reads slots code) : Reads slots (i :: code) :=
  List.forall_mem_cons.mpr ⟨hi, h⟩

theorem append (h : Reads slots code) (hmore : Reads slots more) : Reads slots (code ++ more) :=
  List.forall_mem_append.mpr ⟨h, hmore⟩

theorem mono (h : Reads slots code) (hsub : ∀ x ∈ slots, x ∈ others) : Reads others code :=
  fun i hi => ⟨(h i hi).1, (h i hi).2.1, fun x hx => hsub x ((h i hi).2.2.1 x hx), (h i hi).2.2.2⟩

end Reads

section

variable (slots : List Symbol)

theorem Instr.reads_op (op : Opcode) : (Instr.op op).Reads slots := ⟨rfl, rfl, by simp [local?], rfl⟩

theorem Instr.reads_loadI32 (v : Int32) : (Instr.loadI32 v).Reads slots := ⟨rfl, rfl, by simp [local?], rfl⟩

/-- Instructions that work on the stack only. -/
def Instr.isOperation : Instr → Bool
  | .op _ | .loadI32 _ | .loadI64 _ | .loadF64 _ | .loadString _ | .loadNull => true
  | _ => false

def isOperationCode (code : List Instr) : Bool := code.all Instr.isOperation

@[simp] theorem isOperationCode_retIf (tail : Bool) : isOperationCode (retIf tail) = true := by cases tail <;> rfl

theorem Literal.isOperationCode_code (v : Literal) : isOperationCode v.code := by cases v <;> rfl

theorem isOperationCode_narrowCode (type : Option Primitive) : isOperationCode (narrowCode type) := by
  unfold narrowCode
  split <;> rfl

theorem BinaryOp.isOperationCode_code (op : BinaryOp) (type : Option Primitive) : isOperationCode (op.code type) := by
  rw [BinaryOp.code, isOperationCode, List.all_append, Bool.and_eq_true]
  constructor
  · cases op <;> rfl
  · split
    · rfl
    · exact isOperationCode_narrowCode type

theorem UnaryOp.isOperationCode_code (op : UnaryOp) (type : Option Primitive) : isOperationCode (op.code type) := by
  cases op with
  | not =>
    rw [UnaryOp.code]
    split
    · rfl
    · exact isOperationCode_narrowCode type
  | negate => exact isOperationCode_narrowCode type
  | convert target =>
    rw [UnaryOp.code]
    split
    · rfl
    · split <;> rfl

theorem reads_of_isOperationCode {code : List Instr} (h : isOperationCode code) : Reads slots code := by
  intro i hi
  have hop := List.all_eq_true.mp h i hi
  cases i <;> first | (cases hop; done) | exact ⟨rfl, rfl, by simp [Instr.local?], rfl⟩

theorem reads_retIf (tail : Bool) : Reads slots (retIf tail) := reads_of_isOperationCode slots
    (isOperationCode_retIf tail)

theorem Literal.reads_code (v : Literal) : Reads slots v.code := reads_of_isOperationCode slots v.isOperationCode_code

theorem BinaryOp.reads_code (op : BinaryOp) (type : Option Primitive) : Reads slots (op.code type) :=
  reads_of_isOperationCode slots (op.isOperationCode_code type)

theorem UnaryOp.reads_code (op : UnaryOp) (type : Option Primitive) : Reads slots (op.code type) :=
  reads_of_isOperationCode slots (op.isOperationCode_code type)

end

/-! ## Code that stands for itself -/

/-- Instructions that refer to nothing outside the body, outside regions. -/
def Instr.isSimple : Instr → Bool
  | .op _ | .loadI32 _ | .loadI64 _ | .loadF64 _ | .loadString _ | .loadNull | .loadArg _ | .storeArg _ | .loadLocal _
  | .storeLocal _ | .label _ | .branch _ _ | .switch _ => true
  | _ => false

/-- Code that refers to nothing outside the body. -/
def isSimpleCode (code : List Instr) : Bool := code.all Instr.isSimple

@[simp] theorem isSimpleCode_nil : isSimpleCode [] = true := rfl

@[simp] theorem isSimpleCode_cons (i : Instr) (code : List Instr) :
    isSimpleCode (i :: code) = (i.isSimple && isSimpleCode code) := rfl

@[simp] theorem isSimpleCode_append (a b : List Instr) :
    isSimpleCode (a ++ b) = (isSimpleCode a && isSimpleCode b) := List.all_append

@[simp] theorem isSimpleCode_retIf (tail : Bool) : isSimpleCode (retIf tail) = true := by
  cases tail <;> rfl

@[simp] theorem isSimpleCode_leaveTo (tail : Bool) (s : Supply) : isSimpleCode (leaveTo tail s) = true := by
  cases tail <;> rfl

@[simp] theorem isSimpleCode_endMark (tail : Bool) (s : Supply) : isSimpleCode (endMark tail s) = true := by
  cases tail <;> rfl

theorem isSimpleCode_dispatchCode (size : Nat) (wide : Bool) (table : List Symbol) (other : Symbol) (s : Supply) :
    isSimpleCode (dispatchCode size wide table other s) := by
  unfold dispatchCode
  split
  · rfl
  · cases wide <;> rfl

theorem isSimpleCode_of_isOperationCode {code : List Instr} (h : isOperationCode code) : isSimpleCode code := by
  refine List.all_eq_true.mpr fun i hi => ?_
  have hop := List.all_eq_true.mp h i hi
  cases i <;> first | rfl | cases hop

theorem Literal.isSimpleCode_code (v : Literal) : isSimpleCode v.code := isSimpleCode_of_isOperationCode
    v.isOperationCode_code

theorem BinaryOp.isSimpleCode_code (op : BinaryOp) (type : Option Primitive) : isSimpleCode (op.code type) :=
  isSimpleCode_of_isOperationCode (op.isOperationCode_code type)

theorem UnaryOp.isSimpleCode_code (op : UnaryOp) (type : Option Primitive) : isSimpleCode (op.code type) :=
  isSimpleCode_of_isOperationCode (op.isOperationCode_code type)

/-- Instructions that neither call a method nor make an object. -/
def Instr.isQuiet : Instr → Bool
  | .newObject _ | .callConstructor _ | .call _ _ | .callVirtual _ _ | .newDelegate _ _ | .invokeDelegate _ _ => false
  | _ => true

def isQuietCode (code : List Instr) : Bool := code.all Instr.isQuiet

@[simp] theorem isQuietCode_nil : isQuietCode [] = true := rfl

@[simp] theorem isQuietCode_cons (i : Instr) (code : List Instr) :
    isQuietCode (i :: code) = (i.isQuiet && isQuietCode code) :=
  rfl

@[simp] theorem isQuietCode_append (a b : List Instr) : isQuietCode (a ++ b) = (isQuietCode a && isQuietCode b) :=
    List.all_append

theorem isQuietCode_of_isSimpleCode {code : List Instr} (h : isSimpleCode code) : isQuietCode code := by
  have hi : ∀ i : Instr, i.isSimple → i.isQuiet := by
    intro i hi
    cases i <;> first | rfl | cases hi
  exact List.all_eq_true.mpr fun i hmem => hi i (List.all_eq_true.mp h i hmem)

@[simp] theorem isQuietCode_retIf (tail : Bool) : isQuietCode (retIf tail) = true := by
  cases tail <;> rfl

/-! ## Where variables live -/

/-- The locals that reaching a variable reads. -/
def Storage.slots : Storage → List Symbol
  | .argument _ _ => []
  | .slot name _ _ => [name]
  | .field target _ _ _ => target.slots

def Scope.slots (scope : Scope) : List Symbol := scope.vars.flatMap (·.2.slots)

namespace Storage

theorem reads_cellLoad (slots : List Symbol) (boxed : Bool) (type : TypeRef) : Reads slots (cellLoad boxed type) := by
  cases boxed with
  | false => exact .nil
  | true => exact .cons ⟨rfl, rfl, by simp [Instr.local?], rfl⟩ .nil

theorem reads_loadSlot : ∀ s : Storage, Reads s.slots s.loadSlot
  | .argument _ _ => .cons ⟨rfl, rfl, by simp [Instr.local?], rfl⟩ .nil
  | .slot name _ _ => .cons ⟨rfl, rfl, by simp [Instr.local?, slots], rfl⟩ .nil
  | .field target f _ _ =>
    ((reads_loadSlot target).append (reads_cellLoad _ _ _)).append (.cons ⟨rfl, rfl, by simp [Instr.local?], rfl⟩ .nil)

theorem reads_fetch (s : Storage) : Reads s.slots s.fetch := s.reads_loadSlot.append (reads_cellLoad _ _ _)

theorem reads_beforeStore (s : Storage) : Reads s.slots s.beforeStore := by
  unfold beforeStore
  split
  · exact s.reads_loadSlot
  · cases s with
    | field target => exact target.reads_fetch
    | argument | slot => exact .nil

theorem reads_afterStore (s : Storage) : s.afterStore.Reads s.slots := by
  unfold afterStore
  split
  · exact ⟨rfl, rfl, by simp [Instr.local?], rfl⟩
  · cases s <;> exact ⟨rfl, rfl, by simp [Instr.local?, slots], rfl⟩

theorem isQuietCode_loadSlot : ∀ s : Storage, isQuietCode s.loadSlot = true
  | .argument _ _ | .slot _ _ _ => rfl
  | .field target _ _ _ => by
    cases hboxed : target.isBoxed <;> simp [loadSlot, cellLoad, hboxed, isQuietCode_loadSlot target, Instr.isQuiet]

theorem isQuietCode_cells (storages : List Storage) : isQuietCode (storages.flatMap loadSlot) := by
  rw [isQuietCode, List.all_flatMap]
  exact List.all_eq_true.mpr fun storage _ => storage.isQuietCode_loadSlot

theorem isQuietCode_fetch (s : Storage) : isQuietCode s.fetch := by
  cases hboxed : s.isBoxed <;> simp [fetch, cellLoad, hboxed, s.isQuietCode_loadSlot, Instr.isQuiet]

theorem isQuietCode_beforeStore (s : Storage) : isQuietCode s.beforeStore := by
  unfold beforeStore
  split
  · exact s.isQuietCode_loadSlot
  · cases s with
    | field target => exact target.isQuietCode_fetch
    | argument | slot => rfl

theorem isQuiet_afterStore (s : Storage) : s.afterStore.isQuiet := by
  unfold afterStore
  split
  · rfl
  · cases s <;> rfl

end Storage

theorem Enters.isQuietCode {usages : Usages} {params : List Param} {scope inner : Scope} {s t : Supply} {b : Block}
    (h : Enters usages index params scope s b inner t) : Stackwright.isQuietCode b.code := by
  induction h with
  | nil => rfl
  | cell _ _ _ ih | plain _ _ _ ih => exact ih

theorem Scope.find?_of_storage {scope : Scope} {whole : Expr} {storage : Storage}
    (h : scope.storage x whole = .ok storage) :
    ∃ y, scope.vars.find? (fun entry => entry.1 == x) = some (y, storage) := by
  rw [Scope.storage] at h
  split at h
  · rename_i y _ hfind
    cases h
    exact ⟨y, hfind⟩
  · cases h

theorem Scope.slots_of_storage {scope : Scope} {whole : Expr} {storage : Storage}
    (h : scope.storage x whole = .ok storage) : ∀ y ∈ storage.slots, y ∈ scope.slots := by
  obtain ⟨name, hfind⟩ := Scope.find?_of_storage h
  intro y hy
  exact List.mem_flatMap.mpr ⟨_, List.mem_of_find?_eq_some hfind, hy⟩

theorem Storage.loadSlot_of_fetchBox {storage : Storage} {code : List Instr} (h : storage.fetchBox = .ok code) :
    code = storage.loadSlot := by
  unfold Storage.fetchBox at h
  split at h <;> cases h
  rfl

theorem reads_captureCells {scope : Scope} {whole : Expr} : ∀ {names : List Symbol} {cells : List Instr}
    {types : List TypeRef}, captureCells scope whole names = .ok (cells, types) → Reads scope.slots cells
  | [], _, _, h => by
    cases h
    exact .nil
  | name :: names, _, _, h => by
    obtain ⟨storage, hstorage, h⟩ := except_bind_ok.mp h
    obtain ⟨code, hcode, h⟩ := except_bind_ok.mp h
    obtain ⟨⟨rest, types⟩, hrest, h⟩ := except_bind_ok.mp h
    cases h
    rw [Storage.loadSlot_of_fetchBox hcode]
    exact (storage.reads_loadSlot.mono (Scope.slots_of_storage hstorage)).append (reads_captureCells hrest)

/-! ## Blocks -/

namespace Block

@[simp] theorem append_code (a b : Block) : (a ++ b).code = a.code ++ b.code := rfl

@[simp] theorem append_locals (a b : Block) : (a ++ b).locals = a.locals ++ b.locals := rfl

@[simp] theorem ofCode_code (code : List Instr) : (ofCode code).code = code := rfl

@[simp] theorem ofCode_locals (code : List Instr) : (ofCode code).locals = [] := rfl

theorem append_assoc (a b c : Block) : a ++ b ++ c = a ++ (b ++ c) := by
  show Block.mk _ _ = Block.mk _ _
  simp only [append_locals, append_code, List.append_assoc]

theorem ofCode_append_ofCode (before : List Instr) (b : Block) (after : List Instr) :
    ofCode before ++ b ++ ofCode after = { b with code := before ++ b.code ++ after } := by
  show Block.mk ([] ++ b.locals ++ []) _ = _
  rw [List.append_nil]
  rfl

/-- The locals that a block declares. -/
def localNames (b : Block) : List Symbol := b.locals.map (·.name)

def usedLocals (b : Block) : List Symbol := b.code.filterMap Instr.local?

@[simp] theorem definedLabels_append (a b : Block) : (a ++ b).definedLabels = a.definedLabels ++ b.definedLabels :=
  List.filterMap_append

@[simp] theorem usedLabels_append (a b : Block) : (a ++ b).usedLabels = a.usedLabels ++ b.usedLabels :=
  List.flatMap_append

@[simp] theorem localNames_append (a b : Block) : (a ++ b).localNames = a.localNames ++ b.localNames :=
  List.map_append

@[simp] theorem usedLocals_append (a b : Block) : (a ++ b).usedLocals = a.usedLocals ++ b.usedLocals :=
  List.filterMap_append

@[simp] theorem definedLabels_ofCode (code : List Instr) :
    (ofCode code).definedLabels = code.filterMap Instr.definedLabel? := rfl

@[simp] theorem localNames_ofCode (code : List Instr) : (ofCode code).localNames = [] := rfl

end Block

/-- A block that defines each label and declares each local at most as often as it may, and
    otherwise goes to the labels `outside` and reads the locals `slots` only. -/
structure Clean (labels locals : Symbol → Nat) (outside slots : List Symbol) (b : Block) : Prop where
  defines : ∀ x, times b.definedLabels x ≤ labels x
  declares : ∀ x, times b.localNames x ≤ locals x
  goes : ∀ x ∈ b.usedLabels, x ∈ b.definedLabels ∨ x ∈ outside
  reads : ∀ x ∈ b.usedLocals, x ∈ b.localNames ∨ x ∈ slots
  flat : ∀ i ∈ b.code, i.isFlat = true

namespace Clean

variable {labels labels' locals locals' : Symbol → Nat} {outside outside' slots slots' : List Symbol} {a b : Block}

theorem ofReads {code : List Instr} (h : Reads slots code) :
    Clean (fun _ => 0) (fun _ => 0) [] slots (.ofCode code) where
  defines x := by simp [h.labels]
  declares x := by simp
  goes := by simp [Block.usedLabels, h.usedLabels]
  reads x hx := Or.inr (h.locals x hx)
  flat := h.flat

theorem branch (kind : BranchKind) (x : Symbol) : Clean (fun _ => 0) (fun _ => 0) [x] []
    (.ofCode [.branch kind x]) where
  defines _ := Nat.le_refl _
  declares _ := Nat.le_refl _
  goes := by simp [Block.usedLabels, Instr.usedLabels]
  reads := by simp [Block.usedLocals, Instr.local?]
  flat := by simp [Instr.isFlat]

theorem switch (xs : List Symbol) : Clean (fun _ => 0) (fun _ => 0) xs [] (.ofCode [.switch xs]) where
  defines _ := Nat.le_refl _
  declares _ := Nat.le_refl _
  goes x hx := .inr (by simpa [Block.usedLabels, Instr.usedLabels] using hx)
  reads := by simp [Block.usedLocals, Instr.local?]
  flat := by simp [Instr.isFlat]

theorem mark (x : Symbol) : Clean (times [x]) (fun _ => 0) [] [] (.ofCode [.label x]) where
  defines _ := Nat.le_refl _
  declares _ := Nat.le_refl _
  goes := by simp [Block.usedLabels, Instr.usedLabels]
  reads := by simp [Block.usedLocals, Instr.local?]
  flat := by simp [Instr.isFlat]

theorem declare (x : Symbol) (type : TypeRef) : Clean (fun _ => 0) (times [x]) [] [] { locals := [⟨x, type⟩] } where
  defines _ := Nat.le_refl _
  declares _ := Nat.le_refl _
  goes := by simp [Block.usedLabels]
  reads := by simp [Block.usedLocals]
  flat := by simp

theorem append (ha : Clean labels locals outside slots a) (hb : Clean labels' locals' outside' slots' b) :
    Clean (fun x => labels x + labels' x) (fun x => locals x + locals' x) (outside ++ outside') (slots ++ slots')
      (a ++ b) where
  defines x := by
    rw [Block.definedLabels_append, Symbol.times_append]
    exact Nat.add_le_add (ha.defines x) (hb.defines x)
  declares x := by
    rw [Block.localNames_append, Symbol.times_append]
    exact Nat.add_le_add (ha.declares x) (hb.declares x)
  goes x hx := by
    simp only [Block.usedLabels_append, Block.definedLabels_append, List.mem_append] at hx ⊢
    rcases hx with hx | hx
    · exact (ha.goes x hx).imp .inl .inl
    · exact (hb.goes x hx).imp .inr .inr
  reads x hx := by
    simp only [Block.usedLocals_append, Block.localNames_append, List.mem_append] at hx ⊢
    rcases hx with hx | hx
    · exact (ha.reads x hx).imp .inl .inl
    · exact (hb.reads x hx).imp .inr .inr
  flat := List.forall_mem_append.mpr ⟨ha.flat, hb.flat⟩

/-- Budgets may grow, and what the block brings with it no longer comes from outside. -/
theorem relax (h : Clean labels locals outside slots b) (hlabels : ∀ x, labels x ≤ labels' x)
    (hlocals : ∀ x, locals x ≤ locals' x) (houtside : ∀ x ∈ outside, x ∈ b.definedLabels ∨ x ∈ outside')
    (hslots : ∀ x ∈ slots, x ∈ b.localNames ∨ x ∈ slots') : Clean labels' locals' outside' slots' b where
  defines x := Nat.le_trans (h.defines x) (hlabels x)
  declares x := Nat.le_trans (h.declares x) (hlocals x)
  goes x hx := (h.goes x hx).elim .inl (houtside x)
  reads x hx := (h.reads x hx).elim .inl (hslots x)
  flat := h.flat

theorem leaveTo (tail : Bool) (s : Supply) :
    Clean (fun _ => 0) (fun _ => 0) (endLabel? tail s).toList [] (.ofCode (Stackwright.leaveTo tail s)) := by
  cases tail with
  | false => exact .branch .always s.label
  | true => exact .ofReads .nil

theorem endMark (tail : Bool) (s : Supply) :
    Clean (drawn s (afterEnd tail s)) (fun _ => 0) [] [] (.ofCode (Stackwright.endMark tail s)) := by
  cases tail with
  | false => exact (mark s.label).relax (fun x => by simp [afterEnd]) (by simp) (by simp) (by simp)
  | true => exact (ofReads (@Reads.nil [])).relax (by simp) (by simp) (by simp) (by simp)

theorem dispatch (size : Nat) (wide : Bool) (table : List Symbol) (fallback : Symbol) (s : Supply) :
    Clean (drawn s (afterDispatch size wide s)) (fun _ => 0) (fallback :: table) []
      (.ofCode (dispatchCode size wide table fallback s)) := by
  unfold dispatchCode afterDispatch
  split
  · exact (ofReads (@Reads.cons [] _ _ (Instr.reads_op _ .pop) .nil)).relax (by simp) (by simp) (by simp) (by simp)
  · cases wide with
    | false => exact (switch table).relax (by simp) (by simp) (by simp +contextual) (by simp)
    | true =>
      have hdup : Reads [] [.op .dup, .loadI64 (Int64.ofNat size), .op .cltUn] := by
        simp [Reads, Instr.Reads, Instr.definedLabel?, Instr.usedLabels, Instr.local?, Instr.isFlat]
      have hpop := Reads.cons (Instr.reads_op [] .pop) .nil
      have hcut := Reads.cons (Instr.reads_op [] .convU4) .nil
      refine ((((((ofReads hdup).append (branch .true s.label)).append (ofReads hpop)).append
        (branch .always fallback)).append (mark s.label)).append ((ofReads hcut).append (switch table))).relax
          ?_ ?_ ?_ ?_
      · simp
      · simp
      · simp +contextual [Instr.definedLabel?]
      · simp

end Clean

theorem le_afterEnd (tail : Bool) (s : Supply) : s.next ≤ (afterEnd tail s).next := by
  cases tail <;> simp [afterEnd]

theorem le_afterDispatch (size : Nat) (wide : Bool) (s : Supply) : s.next ≤ (afterDispatch size wide s).next := by
  unfold afterDispatch
  split
  · exact Nat.le_refl _
  · cases wide <;> simp

/-- Names are only ever drawn. -/
theorem Lowers.grows {options : BuildOptions} {w : Work} {scope : Scope} {s t : Supply} {b : Block}
    (h : Lowers options w scope s b t) : s.next ≤ t.next := by
  induction h with
  | ite _ _ _ hc ht hf =>
    exact Nat.le_trans (Supply.le_skip _ 1) (Nat.le_trans hc (Nat.le_trans ht (Nat.le_trans (le_afterEnd _ _) hf)))
  | switch _ _ _ _ _ _ hs₂ hs₃ _ _ _ hv hf hc =>
    subst hs₂ hs₃
    refine Nat.le_trans hv (Nat.le_trans ?_ (Nat.le_trans (le_afterEnd _ _) (Nat.le_trans hf hc)))
    exact Nat.le_trans (Supply.le_skip _ _) (le_afterDispatch _ _ _)
  | shortCons _ _ hb hrest =>
    exact Nat.le_trans (Supply.le_skip _ 1) (Nat.le_trans hb (Nat.le_trans hrest (le_afterEnd _ _)))
  | bindingsCons _ _ _ _ hv hb => exact Nat.le_trans (Supply.le_skip _ 1) (Nat.le_trans hv hb)
  | _ => omega

/-- A table leads to the fallback or to a case with values. -/
theorem mem_dispatchTable {cases : List (CaseValues × Expr)} {labels : List Symbol} {fallback : Symbol}
    (h : x ∈ dispatchTable (cases.map (·.1)) labels fallback) :
    x = fallback ∨ ∃ c ∈ cases.zip labels, c.1.1.isEmpty = false ∧ c.2 = x := by
  obtain ⟨v, -, hv⟩ := List.mem_map.mp h
  cases hfound : (cases.map (·.1)).findIdx? (·.contains (UInt32.ofNat v)) with
  | none =>
    simp only [hfound, Option.bind_none, Option.getD_none] at hv
    exact .inl hv.symm
  | some i =>
    simp only [hfound, Option.bind_some] at hv
    cases hlabel : labels[i]? with
    | none =>
      simp only [hlabel, Option.getD_none] at hv
      exact .inl hv.symm
    | some label =>
      simp only [hlabel, Option.getD_some] at hv
      obtain ⟨hi, hcontains, -⟩ := List.findIdx?_eq_some_iff_getElem.mp hfound
      simp only [List.length_map, List.getElem_map] at hi hcontains
      refine .inr ⟨(cases[i], label), List.mem_iff_getElem?.mpr ⟨i, ?_⟩, ?_, hv⟩
      · simp [List.getElem?_zip_eq_some, hlabel, hi]
      · cases hempty : cases[i].1.isEmpty with
        | false => rfl
        | true => simp [Std.TreeSet.contains_of_isEmpty hempty] at hcontains

/-! ## Lowered blocks -/

/-- A block whose labels and locals are all its own, drawn from `s` up to `t`, except that it
    may go to the labels `outside` and read the locals `slots`. -/
structure Made (s : Supply) (outside slots : List Symbol) (b : Block) (t : Supply) : Prop where
  grows : s.next ≤ t.next
  clean : Clean (drawn s t) (drawn s t) outside slots b

namespace Made

variable {s s₁ t : Supply} {outside slots : List Symbol} {a b : Block} {c : List Instr}

theorem ofReads (h : Reads slots c) : Made s outside slots (.ofCode c) s :=
  ⟨Nat.le_refl _, (Clean.ofReads h).relax (by simp) (by simp) (by simp) (fun _ => .inr)⟩

/-- What a block declares may be read after it. -/
theorem after (ha : Made s outside slots a s₁) (hb : Made s₁ outside others b t)
    (hothers : ∀ x ∈ others, x ∈ a.localNames ∨ x ∈ slots) : Made s outside slots (a ++ b) t where
  grows := Nat.le_trans ha.grows hb.grows
  clean := by
    have hsum := drawn_add ha.grows hb.grows
    refine (ha.clean.append hb.clean).relax (fun x => Nat.le_of_eq (hsum x)) (fun x => Nat.le_of_eq (hsum x)) ?_ ?_
    · intro x hx
      exact .inr (by simpa using hx)
    · intro x hx
      rw [Block.localNames_append, List.mem_append]
      rcases List.mem_append.mp hx with hx | hx
      · exact .inr hx
      · exact (hothers x hx).imp .inl id

theorem append (ha : Made s outside slots a s₁) (hb : Made s₁ outside slots b t) : Made s outside slots (a ++ b) t :=
  ha.after hb fun _ => .inr

theorem code (ha : Made s outside slots a t) (h : Reads slots c) : Made s outside slots (a ++ .ofCode c) t :=
  ha.append (ofReads h)

theorem mono (h : Made s outside slots b t) (hsub : ∀ x ∈ outside, x ∈ others) : Made s others slots b t :=
  ⟨h.grows, h.clean.relax (fun _ => Nat.le_refl _) (fun _ => Nat.le_refl _) (fun x hx => .inr (hsub x hx))
    (fun _ => .inr)⟩

theorem declare (s : Supply) (slots : List Symbol) (x : Symbol) (type : TypeRef) :
    Made s [] slots { locals := [⟨s.slot x, type⟩] } (s.skip 1) :=
  ⟨s.le_skip 1, (Clean.declare _ _).relax (by simp) (by simp) (by simp) (by simp)⟩

theorem branch (kind : BranchKind) (hx : x ∈ outside) : Made s outside slots (.ofCode [.branch kind x]) s :=
  ⟨Nat.le_refl _, (Clean.branch kind x).relax (by simp) (by simp) (by simp [hx]) (by simp)⟩

theorem labels_once (h : Made s outside slots b t) (x : Symbol) : times b.definedLabels x ≤ 1 :=
  Nat.le_trans (h.clean.defines x) (Symbol.drawn_le_one s t x)

theorem locals_once (h : Made s outside slots b t) (x : Symbol) : times b.localNames x ≤ 1 :=
  Nat.le_trans (h.clean.declares x) (Symbol.drawn_le_one s t x)

end Made

/-- What holds of the block that a piece of work is lowered to: it is made of its own labels and
    locals, but operands go to a label from outside, and cases come with their labels. -/
def Tidy : Work → Scope → Supply → Block → Supply → Prop
  | .operands _ decided _ _, scope, s, b, t => Made s [decided] scope.slots b t
  | .cases cs labels leave _, scope, s, b, t => ∀ outside,
      Clean (fun _ => 0) (fun _ => 0) outside [] (.ofCode leave) →
      s.next ≤ t.next ∧ Clean (fun x => drawn s t x + times labels x) (drawn s t) outside scope.slots b ∧
        ∀ c ∈ cs.zip labels, c.1.1.isEmpty = false → c.2 ∈ b.definedLabels
  | .bindings _ _ inner result, scope, s, b, t => Made s [] scope.slots b t ∧
      ∀ x ∈ result.slots, x ∈ b.localNames ∨ x ∈ inner.slots
  | _, scope, s, b, t => Made s [] scope.slots b t

variable {options : BuildOptions} {w : Work} {scope : Scope} {s t : Supply} {b : Block}

theorem reads_retIf_cons {i : Instr} {slots : List Symbol} (tail : Bool) (h : i.definedLabel? = none)
    (hused : i.usedLabels = []) (hlocal : i.local? = none) (hflat : i.isFlat) : Reads slots (i :: retIf tail) :=
  .cons ⟨h, hused, by simp [hlocal], hflat⟩ (reads_retIf slots tail)

theorem Lowers.tidy (h : Lowers options w scope s b t) : Tidy w scope s b t := by
  induction h with
  | literal => exact .ofReads ((Literal.reads_code _ _).append (reads_retIf _ _))
  | var hx => exact .ofReads (((Storage.reads_fetch _).mono (Scope.slots_of_storage hx)).append (reads_retIf _ _))
  | @assign x e tail scope s storage v s₁ hx _ ih =>
    have hslots := Scope.slots_of_storage hx
    have hbefore := storage.reads_beforeStore.mono hslots
    have hafter := Reads.cons storage.reads_afterStore .nil
    have := ((Made.ofReads hbefore).append ih).code ((hafter.mono hslots).append (reads_retIf _ tail))
    rw [Block.ofCode_append_ofCode, ← List.append_assoc] at this
    exact this
  | seq _ ih | and _ ih | or _ ih | seqLast _ ih | shortLast _ ih => exact ih
  | @ite c t f tail scope s cb s₁ tb s₂ fb s₃ _ _ _ hc ht hf =>
    have g₀ := s.le_skip 1
    have g₁ := Nat.le_trans g₀ hc.grows
    have g₂ := Nat.le_trans g₁ ht.grows
    have ge := le_afterEnd tail s₂
    have g₃ := Nat.le_trans g₂ ge
    have hsum x : drawn s s₃ x = drawn s (s.skip 1) x + drawn (s.skip 1) s₁ x + drawn s₁ s₂ x +
        drawn s₂ (afterEnd tail s₂) x + drawn (afterEnd tail s₂) s₃ x := by
      rw [drawn_add g₀ hc.grows, drawn_add g₁ ht.grows, drawn_add g₂ ge, drawn_add g₃ hf.grows]
    refine ⟨Nat.le_trans g₃ hf.grows, ?_⟩
    refine (((((hc.clean.append (.branch .false s.label)).append ht.clean).append
      ((Clean.leaveTo tail s₂).append (.mark s.label))).append hf.clean).append (.endMark tail s₂)).relax ?_ ?_ ?_ ?_
    · intro x
      rw [hsum x, Symbol.times_label]
      omega
    · intro x
      rw [hsum x]
      omega
    · cases tail <;> simp [leaveTo, endMark, endLabel?, Instr.definedLabel?]
    · simp +contextual
  | @switch value cases fallback tail scope s type v s₁ fb s₅ cb s₆ claims size n s₂ s₃ dispatch hclaims hsize hn _ _ _
      hs₂ hs₃ hdispatch _ _ hv hf hc =>
    obtain ⟨gc, hcases, hdefines⟩ := hc _ (.leaveTo tail s₃)
    have e₂ : (s₁.skip 1).next ≤ s₂.next := by simp [hs₂]
    have e₃ : s₂.next ≤ s₃.next := hs₃ ▸ le_afterDispatch ..
    have g₁ := Nat.le_trans hv.grows (s₁.le_skip 1)
    have g₂ := Nat.le_trans g₁ e₂
    have g₃ := Nat.le_trans g₂ e₃
    have g₄ := Nat.le_trans g₃ (le_afterEnd tail s₃)
    have g₅ := Nat.le_trans g₄ hf.grows
    have hsum x : drawn s s₆ x = drawn s s₁ x + drawn s₁ (s₁.skip 1) x + drawn (s₁.skip 1) s₂ x + drawn s₂ s₃ x +
        drawn s₃ (afterEnd tail s₃) x + drawn (afterEnd tail s₃) s₅ x + drawn s₅ s₆ x := by
      rw [drawn_add hv.grows (s₁.le_skip 1), drawn_add g₁ e₂, drawn_add g₂ e₃, drawn_add g₃ (le_afterEnd tail s₃),
        drawn_add g₄ hf.grows, drawn_add g₅ gc]
    have hlabels x : times ((s₁.skip 1).labels n) x = drawn (s₁.skip 1) s₂ x := by
      rw [Symbol.times_labels, Supply.skip_skip, ← hs₂]
    have hmade := Clean.dispatch size (isWide type) (dispatchTable claims ((s₁.skip 1).labels n) s₁.label) s₁.label s₂
    rw [← hdispatch, ← hs₃] at hmade
    refine ⟨Nat.le_trans g₅ gc, ?_⟩
    refine (((((hv.clean.append (hmade.append (.mark s₁.label))).append hf.clean).append (.leaveTo tail s₃)).append
      hcases).append (.endMark tail s₃)).relax ?_ ?_ ?_ ?_
    · intro x
      rw [hsum x, Symbol.times_label, hlabels]
      omega
    · intro x
      rw [hsum x]
      omega
    · have hend : ∀ x ∈ (endLabel? tail s₃).toList, x ∈ (endMark tail s₃).filterMap Instr.definedLabel? := by
        cases tail <;> simp [endMark, endLabel?, Instr.definedLabel?]
      have htable : ∀ x ∈ dispatchTable claims ((s₁.skip 1).labels n) s₁.label, x = s₁.label ∨
          x ∈ cb.definedLabels := by
        intro x hx
        rw [hclaims] at hx
        refine (mem_dispatchTable hx).imp id ?_
        rintro ⟨c, hc, hvalues, rfl⟩
        exact hdefines c hc hvalues
      simp only [List.append_nil, List.nil_append, List.mem_append, List.mem_cons, Block.definedLabels_append,
        Block.definedLabels_ofCode]
      rintro x (((rfl | hx) | hx) | hx)
      · simp [Instr.definedLabel?]
      · rcases htable x hx with rfl | hx
        · simp [Instr.definedLabel?]
        · simp [hx]
      · simp [hend x hx]
      · simp [hend x hx]
    · simp +contextual
  | letIn _ _ hb hbody => exact hb.1.after hbody hb.2
  | lambda _ hcells =>
    refine .ofReads (((reads_captureCells hcells).append ?_).append (reads_retIf _ _))
    simp [Reads, Instr.Reads, Instr.definedLabel?, Instr.usedLabels, Instr.local?, Instr.isFlat]
  | binary _ _ _ hl hr => exact (hl.append hr).code ((BinaryOp.reads_code _ _ _).append (reads_retIf _ _))
  | unary _ _ ih => exact ih.code ((UnaryOp.reads_code _ _ _).append (reads_retIf _ _))
  | getStatic => exact .ofReads (reads_retIf_cons _ rfl rfl rfl rfl)
  | getField _ ih | setStatic _ ih | new _ ih | callStatic _ ih => exact ih.code (reads_retIf_cons _ rfl rfl rfl rfl)
  | invoke _ _ _ hf hs | setField _ _ hf hs | call _ _ hf hs =>
    exact (hf.append hs).code (reads_retIf_cons _ rfl rfl rfl rfl)
  | allNil | operandsNil => exact .ofReads .nil
  | allCons _ _ hb hrest => exact hb.append hrest
  | seqNil => exact .ofReads (reads_retIf _ _)
  | seqCons _ _ _ hb hrest =>
    refine (hb.code ?_).append hrest
    split
    · exact .nil
    · exact .cons (Instr.reads_op _ _) .nil
  | shortNil => exact .ofReads (.cons (Instr.reads_loadI32 _ _) (reads_retIf _ _))
  | @shortCons isOr e next es tail scope s b s₁ rest s₂ _ _ hb hrest =>
    have g₀ := s.le_skip 1
    have g₁ := Nat.le_trans g₀ hb.grows
    have g₂ := Nat.le_trans g₁ hrest.grows
    have ge := le_afterEnd tail s₂
    have hsum x : drawn s (afterEnd tail s₂) x = drawn s (s.skip 1) x + drawn (s.skip 1) s₁ x + drawn s₁ s₂ x +
        drawn s₂ (afterEnd tail s₂) x := by
      rw [drawn_add g₀ hb.grows, drawn_add g₁ hrest.grows, drawn_add g₂ ge]
    have houtcome : Reads [] [.loadI32 (if isOr then 1 else 0)] := .cons (Instr.reads_loadI32 _ _) .nil
    refine ⟨Nat.le_trans g₂ ge, ?_⟩
    refine (((hb.clean.append (.branch (decidingBranch isOr) s.label)).append hrest.clean).append
      ((((Clean.leaveTo tail s₂).append ((Clean.mark s.label).append (.ofReads houtcome))).append
        (.ofReads (reads_retIf [] tail))).append (.endMark tail s₂))).relax ?_ ?_ ?_ ?_
    · intro x
      rw [hsum x, Symbol.times_label]
      omega
    · intro x
      rw [hsum x]
      omega
    · cases tail <;> simp [leaveTo, endMark, endLabel?, Instr.definedLabel?]
    · simp +contextual
  | operandsLast _ ih => exact ih.mono (by simp)
  | operandsCons _ _ hb hrest => exact ((hb.mono (by simp)).append (.branch _ (by simp))).append hrest
  | casesNil | casesUnlabelled =>
    intro outside _
    refine ⟨Nat.le_refl _, (Clean.ofReads .nil).relax (by simp) (by simp) (by simp) (fun _ => .inr), by simp⟩
  | casesDropped hempty _ ih =>
    intro outside hleave
    obtain ⟨hgrows, hclean, hdefines⟩ := ih outside hleave
    refine ⟨hgrows, hclean.relax (fun x => ?_) (fun _ => Nat.le_refl _) (fun _ => .inr) (fun _ => .inr), ?_⟩
    · rw [Symbol.times_cons]
      omega
    · intro c hc hvalues
      rcases List.mem_cons.mp hc with rfl | hc
      · simp [hempty] at hvalues
      · exact hdefines c hc hvalues
  | @casesCons values e cs label labels leave tail scope s b s₁ rest s₂ hempty _ _ hb hrest =>
    intro outside hleave
    obtain ⟨hgrows, hclean, hdefines⟩ := hrest outside hleave
    refine ⟨Nat.le_trans hb.grows hgrows, ?_, ?_⟩
    · have hsum := drawn_add hb.grows hgrows
      refine ((((Clean.mark label).append hb.clean).append hleave).append hclean).relax ?_ ?_ ?_ ?_
      · intro x
        have := hsum x
        rw [Symbol.times_cons label labels]
        omega
      · intro x
        have := hsum x
        omega
      · simp +contextual
      · simp +contextual
    · intro c hc hvalues
      rcases List.mem_cons.mp hc with rfl | hc
      · simp [Instr.definedLabel?]
      · simp [hdefines c hc hvalues]
  | bindingsNil => exact ⟨.ofReads .nil, fun x => .inr⟩
  | @bindingsCons usages x value bs scope inner result s type v s₁ b s₂ boxed _ _ _ _ hv hb =>
    have hslot := Made.declare s scope.slots x (if boxed then .cell type else type)
    have hcell : Reads (s.slot x :: scope.slots) ((if boxed then [Instr.typeOp .newCell type] else []) ++
        [.storeLocal (s.slot x)]) := by
      cases boxed <;>
        simp [Reads, Instr.Reads, Instr.definedLabel?, Instr.usedLabels, Instr.local?, Instr.isFlat]
    refine ⟨(((hslot.append hv).after (.ofReads hcell) ?_).append hb.1), ?_⟩
    · intro y hy
      rcases List.mem_cons.mp hy with rfl | hy
      · simp [Block.localNames]
      · exact .inr hy
    · intro y hy
      rcases hb.2 y hy with hy | hy
      · simp [hy]
      · rcases List.mem_cons.mp hy with rfl | hy
        · simp [Block.localNames]
        · exact .inr hy

/-! ## Validity -/

theorem contains_of_mem (h : x ∈ xs) : xs.contains x :=
  List.contains_iff_exists_mem_beq.mpr ⟨x, h, BEq.rfl⟩

namespace Block

theorem times_pos_of_contains (h : xs.contains x) : 0 < times xs x := by
  obtain ⟨y, hy, hxy⟩ := List.contains_iff_exists_mem_beq.mp h
  exact List.countP_pos_iff.mpr ⟨y, hy, BEq.symm hxy⟩

theorem firstRepeat?_eq_none : ∀ {seen xs : List Symbol}, (∀ x, times seen x + times xs x ≤ 1) →
    firstRepeat? seen xs = none
  | _, [], _ => rfl
  | seen, x :: xs, h => by
    have hself : 0 < times [x] x := List.countP_pos_iff.mpr ⟨x, List.mem_singleton_self x, BEq.rfl⟩
    have hx := h x
    rw [Symbol.times_cons] at hx
    have hseen : ¬ seen.contains x := fun hc => by
      have := times_pos_of_contains hc
      omega
    rw [firstRepeat?, if_neg hseen]
    refine firstRepeat?_eq_none fun y => ?_
    have hy := h y
    rw [Symbol.times_cons] at hy ⊢
    omega

/-- Code that stands on its own passes the checks. -/
theorem validate_of_made {s t : Supply} {b : Block} (h : Made s [] [] b t) : b.validate = .ok () := by
  have hlabels : firstRepeat? [] b.definedLabels = none :=
    firstRepeat?_eq_none fun x => by simpa using h.labels_once x
  have hlocals : firstRepeat? [] b.localNames = none :=
    firstRepeat?_eq_none fun x => by simpa using h.locals_once x
  have hused : b.usedLabels.filter (fun label => !b.definedLabels.contains label) = [] := by
    refine List.filter_eq_nil_iff.mpr fun x hx => ?_
    have := (h.clean.goes x hx).resolve_right List.not_mem_nil
    simp [contains_of_mem this]
  have hread : b.usedLocals.find? (fun name => !b.localNames.contains name) = none := by
    refine List.find?_eq_none.mpr fun x hx => ?_
    have := (h.clean.reads x hx).resolve_right List.not_mem_nil
    simp [contains_of_mem this]
  have hcheck : b.checkLabels = .ok () := by
    rw [checkLabels, hlabels, hused]
    rfl
  have hcheckLocals : b.checkLocals = .ok () := by
    rw [localNames] at hlocals hread
    rw [usedLocals] at hread
    simp only [checkLocals, hlocals, hread]
  rw [validate, hcheck]
  exact hcheckLocals

end Block

theorem Scope.slots_bind (scope : Scope) (x : Symbol) (storage : Storage) :
    (scope.bind x storage).slots = storage.slots ++ scope.slots := rfl

theorem Enters.made {usages : Usages} {params : List Param} {inner : Scope}
    (h : Enters usages index params scope s b inner t) :
    Made s [] scope.slots b t ∧ ∀ x ∈ inner.slots, x ∈ b.localNames ∨ x ∈ scope.slots := by
  induction h with
  | nil => exact ⟨.ofReads .nil, fun _ => .inr⟩
  | @cell index p params scope inner s b t _ _ _ ih =>
    obtain ⟨hmade, hslots⟩ := ih
    rw [Scope.slots_bind] at hmade hslots
    have hcode : Reads (s.slot p.name :: scope.slots)
        [.loadArg (.ofNat index), .typeOp .newCell p.type, .storeLocal (s.slot p.name)] := by
      simp [Reads, Instr.Reads, Instr.definedLabel?, Instr.usedLabels, Instr.local?, Instr.isFlat]
    have hstart : ∀ x ∈ s.slot p.name :: scope.slots, x ∈ [s.slot p.name] ∨ x ∈ scope.slots := by simp
    refine ⟨((Made.declare s scope.slots p.name (.cell p.type)).after (.ofReads hcode) hstart).after hmade hstart, ?_⟩
    intro x hx
    rcases hslots x hx with hx | hx
    · exact .inl (by rw [Block.localNames_append]; exact List.mem_append_right _ hx)
    · exact (hstart x hx).imp (List.mem_append_left _) id
  | plain _ _ _ ih => exact ih

theorem enterCaptures_slots {table : Table} {receiver : Storage} : ∀ {captures : List Capture} {scope inner : Scope},
    enterCaptures table receiver captures scope = .ok inner → (∀ x ∈ receiver.slots, x ∈ scope.slots) →
      ∀ x ∈ inner.slots, x ∈ scope.slots
  | [], scope, inner, h, _ => by
    cases h
    exact fun _ => id
  | c :: captures, scope, inner, h, hreceiver => by
    obtain ⟨info, -, h⟩ := except_bind_ok.mp h
    split at h
    · intro x hx
      have := enterCaptures_slots h (fun x hx => List.mem_append_left _ hx) x hx
      exact (List.mem_append.mp this).elim (hreceiver x) id
    · cases h

namespace Body

variable {body : Body} {h : Hierarchy}

theorem enter_made {usages : Usages} (he : (body.enter h usages).exec s = (.ok (b, scope), t)) :
    Made s [] [] b t ∧ ∀ x ∈ scope.slots, x ∈ b.localNames ∨ x ∈ [] := by
  obtain ⟨outer, henters, hscope⟩ := of_enter he
  obtain ⟨hmade, hslots⟩ := henters.made
  refine ⟨hmade, ?_⟩
  rcases hscope with ⟨-, rfl⟩ | ⟨_, _, storage, -, hstorage, hcaptures⟩
  · exact hslots
  · exact fun x hx => hslots x (enterCaptures_slots hcaptures (Scope.slots_of_storage hstorage) x hx)

/-- The code of a method stands on its own. -/
theorem compileMethod_made {returnType : TypeRef} (hc : (body.compileMethod h options returnType).exec s = (.ok b, t)) :
    Made s [] [] b t := by
  obtain ⟨start, scope, s₁, type, code, henter, -, hcode⟩ := of_compileMethod hc
  obtain ⟨hstart, hslots⟩ := enter_made henter
  rcases hcode with ⟨-, -, hcode, rfl⟩ | ⟨-, -, hcode, rfl⟩
  · have hret := Reads.cons (Instr.reads_op [] .pop) (reads_retIf [] true)
    exact (hstart.after hcode.tidy hslots).code hret
  · exact hstart.after hcode.tidy hslots

/-- The code of a constructor stands on its own. -/
theorem compileConstructor_made {base : BaseCall} (hc : (body.compileConstructor h options base).exec s = (.ok b, t)) :
    Made s [] [] b t := by
  obtain ⟨this, params, start, scope, s₁, type, storage, args, s₂, code, -, henter, -, -, -, -, hstorage, hargs, hcode,
    rfl⟩ := of_compileConstructor hc
  obtain ⟨hstart, hslots⟩ := enter_made henter
  have hthis := storage.reads_fetch.mono (Scope.slots_of_storage hstorage)
  have hbase : Reads scope.slots [.callConstructor base.ctor] := .cons ⟨rfl, rfl, by simp [Instr.local?], rfl⟩ .nil
  have hend : Reads scope.slots (if type.isVoid then [.op .ret] else [.op .pop, .op .ret]) := by
    split
    · exact reads_retIf _ true
    · exact .cons (Instr.reads_op _ _) (reads_retIf _ true)
  have hrest : Made s₁ [] scope.slots (.ofCode storage.fetch ++ args ++ .ofCode [.callConstructor base.ctor] ++ code ++
      .ofCode (if type.isVoid then [.op .ret] else [.op .pop, .op .ret])) t :=
    ((((Made.ofReads hthis).append hargs.tidy).code hbase).append hcode.tidy).code hend
  simp only [Block.append_assoc] at hrest ⊢
  exact hstart.after hrest hslots

end Body

end Stackwright
