import Stackwright.Proofs.Tidy
import Stackwright.Proofs.References
import Stackwright.Machine.Target
import Stackwright.Target.Emission

/-
  Stackwright.Proofs.Installed — where the instructions of a block end up in the machine.

  Labels are numbered in the order of the code and stand for the position of the operation that
  follows them; every other instruction becomes one operation. `Layout.Holds pc code` says that
  some code stands in a finished body from position `pc` on.
-/

namespace Stackwright

open Machine (LabelId LocalId handles)

variable {j n : Nat} {xs : List Symbol} {x : Symbol} {e : OnMachine} {op : Op handles}
variable {L : Layout} {α : Type} {i : Nat} {y : Symbol} {slots : Slots handles}

/-! ## Code in place -/

/-- A body with the labels and locals that symbols stand for. -/
structure Layout where
  code : Machine.Code
  label : Symbol → Option LabelId
  slot : Symbol → Option LocalId

namespace Layout

variable (L : Layout)

/-- The operation for an instruction that refers to nothing outside the body. -/
def op? : Instr → Option (Op handles)
  | .op opcode => some (.op opcode)
  | .loadI32 v => some (.loadI32 v)
  | .loadI64 v => some (.loadI64 v)
  | .loadF64 v => some (.loadF64 v)
  | .loadString v => some (.loadString v)
  | .loadNull => some .loadNull
  | .loadArg index => some (.loadArg index)
  | .storeArg index => some (.storeArg index)
  | .loadLocal name => (L.slot name).map .loadLocal
  | .storeLocal name => (L.slot name).map .storeLocal
  | .branch kind target => (L.label target).map (.branch kind)
  | .switch targets => (targets.mapM L.label).map .switch
  | _ => none

/-- The label stands for the position. -/
def Placed (x : Symbol) (pc : Nat) : Prop := ∃ l, L.label x = some l ∧ L.code.labels[l.index]? = some pc

/-- The operation stands at the position. -/
def At (pc : Nat) (i : Instr) : Prop := ∃ op, L.op? i = some op ∧ L.code.ops[pc]? = some (.plain op)

/-- The code stands in the body from the position on. -/
def Holds : Nat → List Instr → Prop
  | _, [] => True
  | pc, .label x :: code => L.Placed x pc ∧ Holds pc code
  | pc, i :: code => L.At pc i ∧ Holds (pc + 1) code

end Layout

/-- How many operations the code turns into. -/
def extent : List Instr → Nat
  | [] => 0
  | .label _ :: code => extent code
  | _ :: code => extent code + 1

theorem extent_append (a b : List Instr) : extent (a ++ b) = extent a + extent b := by
  induction a using extent.induct with
  | case1 => simp [extent]
  | case2 x code ih => simpa [extent] using ih
  | case3 i code hi ih => simp [extent, ih]; omega

theorem Layout.holds_append {a b : List Instr} {pc : Nat} :
    L.Holds pc (a ++ b) ↔ L.Holds pc a ∧ L.Holds (pc + extent a) b := by
  induction a using extent.induct generalizing pc with
  | case1 => simp [Layout.Holds, extent]
  | case2 x code ih => simp [Layout.Holds, extent, ih, and_assoc]
  | case3 i code hi ih => simp [Layout.Holds, extent, ih, and_assoc, Nat.add_assoc, Nat.add_comm 1]


/-! ## Numbering -/

/-- The entries made for symbols in order, numbered from `n` on, the last one first. -/
def numbered {α : Type} (make : Nat → α) (n : Nat) (xs : List Symbol) : List (Symbol × α) :=
  (xs.mapIdx fun i x => (x, make (n + i))).reverse

theorem numbered_cons (make : Nat → α) (n : Nat) (x : Symbol) (xs : List Symbol) :
    numbered make n (x :: xs) = numbered make (n + 1) xs ++ [(x, make n)] := by
  simp [numbered, List.mapIdx_cons, Nat.add_assoc, Nat.add_comm 1]

theorem mem_numbered {make : Nat → α} {v : α} :
    (x, v) ∈ numbered make n xs ↔ ∃ i, xs[i]? = some x ∧ v = make (n + i) := by
  simp only [numbered, List.mem_reverse, List.mem_mapIdx, Prod.mk.injEq]
  constructor
  · rintro ⟨i, hi, rfl, rfl⟩
    exact ⟨i, by simp [hi], rfl⟩
  · rintro ⟨i, hi, rfl⟩
    obtain ⟨hlt, rfl⟩ := List.getElem?_eq_some_iff.mp hi
    exact ⟨i, hlt, rfl, rfl⟩

theorem Symbol.index_unique (hxs : ∀ x, times xs x ≤ 1) (hi : xs[i]? = some x) (hj : xs[j]? = some y) (hxy : x == y)
    : i = j := by
  induction xs generalizing i j with
  | nil => simp at hi
  | cons z zs ih =>
    have hrest : ∀ x, times zs x ≤ 1 := fun x => Nat.le_trans (by rw [times_cons]; omega) (hxs x)
    -- The head comes up once already, so nothing after it equals it.
    have hhead {k : Nat} {w : Symbol} (hk : zs[k]? = some w) (hzw : z == w) : False := by
      have hz := hxs z
      have h₁ : 0 < times [z] z := List.countP_pos_iff.mpr ⟨z, List.mem_singleton_self z, BEq.rfl⟩
      have h₂ : 0 < times zs z := List.countP_pos_iff.mpr ⟨w, List.mem_of_getElem? hk, BEq.symm hzw⟩
      rw [times_cons] at hz
      omega
    cases i with
    | zero =>
      cases j with
      | zero => rfl
      | succ j =>
        cases hi
        exact (hhead hj hxy).elim
    | succ i =>
      cases j with
      | zero =>
        cases hj
        exact (hhead hi (BEq.symm hxy)).elim
      | succ j => rw [ih hrest hi hj]

/-- Symbols that do not come up twice keep their numbers. -/
theorem find?_numbered {make : Nat → α} (hxs : ∀ x, Symbol.times xs x ≤ 1) (hi : xs[i]? = some x)
    : Emission.find? (numbered make n xs) x = some (make (n + i)) := by
  have hmem : (x, make (n + i)) ∈ numbered make n xs := mem_numbered.mpr ⟨i, hi, rfl⟩
  cases hfound : (numbered make n xs).find? fun entry => entry.1 == x with
  | none => exact absurd BEq.rfl (List.find?_eq_none.mp hfound _ hmem)
  | some entry =>
    have hx := List.find?_some hfound
    obtain ⟨j, hj, hv⟩ := mem_numbered.mp (List.mem_of_find?_eq_some hfound)
    rw [Emission.find?, hfound, Option.map_some, hv, Symbol.index_unique hxs hj hi hx]

/-- Only equal symbols have the same number. -/
theorem beq_of_find?_numbered {make : Nat → α} (hmake : ∀ i j, make i = make j → i = j) {v : α}
    (hx : Emission.find? (numbered make n xs) x = some v) (hy : Emission.find? (numbered make n xs) y = some v) :
    (x == y) := by
  obtain ⟨a, ha, rfl⟩ := Option.map_eq_some_iff.mp hx
  obtain ⟨b, hb, hab⟩ := Option.map_eq_some_iff.mp hy
  have hax := List.find?_some ha
  have hby := List.find?_some hb
  obtain ⟨i, hi, hvi⟩ := mem_numbered.mp (List.mem_of_find?_eq_some ha)
  obtain ⟨j, hj, hvj⟩ := mem_numbered.mp (List.mem_of_find?_eq_some hb)
  obtain rfl : i = j := by
    have := hmake _ _ (hvi.symm.trans (hab.symm.trans hvj))
    omega
  rw [hi, Option.some.injEq] at hj
  rw [hj] at hax
  exact BEq.trans (BEq.symm hax) hby

/-! ## Declarations -/

open Effect

/-- A type of the program, or else a class that the machine provides. -/
def Machine.Program.known (p : Machine.Program) (name : String) : Machine.Ty :=
  match p.findType name with
  | some id => .defined id
  | none => .named name

@[simp] theorem Machine.Program.exec_namedType (name : String) (p : Machine.Program) :
    (namedType name).exec p = (.ok (p.known name), p) := by
  rw [namedType, known, exec_bind]
  show (match p.findType name with | some id => pure (.defined id) | none => pure (.named name) :
    Effect Machine.Program Machine.Ty).exec p = _
  cases p.findType name <;> rfl

theorem machine_resolvesTypes : machine.ResolvesTypes fun _ => True where
  primitiveType _ := .pure _
  namedType name _ := fun p => ⟨_, p, Machine.Program.exec_namedType name p⟩
  cellType _ := .pure _
  delegateType _ _ := .pure _

mutual
/-- Following a reference to a type leaves the program as it is. -/
theorem TypeRef.resolve_keeps (slots : Slots handles) : ∀ t : TypeRef, (t.resolve machine slots).Keeps
  | .deferred _ | .primitive _ => fun _ => rfl
  | .named name => fun p => congrArg Prod.snd (Machine.Program.exec_namedType name p)
  | .cell content => (content.resolve_keeps slots).bind fun _ _ => rfl
  | .delegate params ret =>
    (TypeRef.resolveAll_keeps slots params).bind fun _ => (ret.resolve_keeps slots).bind fun _ _ => rfl

theorem TypeRef.resolveAll_keeps (slots : Slots handles) : ∀ ts :
    List TypeRef, (TypeRef.resolveAll machine slots ts).Keeps
  | [] => fun _ => rfl
  | t :: ts => (t.resolve_keeps slots).bind fun _ => (TypeRef.resolveAll_keeps slots ts).bind fun _ _ => rfl
end

mutual
theorem TypeRef.names_true : ∀ t : TypeRef, t.Names fun _ => True
  | .deferred _ | .primitive _ | .named _ => trivial
  | .cell content => content.names_true
  | .delegate params ret => ⟨namesAll_true params, ret.names_true⟩

theorem TypeRef.namesAll_true : ∀ ts : List TypeRef, NamesAll (fun _ => True) ts
  | [] => trivial
  | t :: ts => ⟨t.names_true, namesAll_true ts⟩
end

namespace Emission

/-- A block being written for the machine. -/
abbrev OnMachine := Emission machine

theorem exec_type {t : TypeRef} (hkeys : ∀ k ∈ t.mentions, slots.isWritten (.type k)) (e : OnMachine)
    : ∃ ty, (type slots t).exec e = (.ok ty, e) := by
  obtain ⟨ty, p, h⟩ := TypeRef.resolve_succeeds machine_resolvesTypes t t.names_true hkeys e.program
  have hp : p = e.program := by
    have := t.resolve_keeps slots e.program
    rwa [h] at this
  refine ⟨ty, ?_⟩
  rw [type, ofProgram, exec_zoom, h, hp]

theorem exec_ofDraft (x : Effect Machine.Draft α) (e : OnMachine) :
    (ofDraft x : Effect OnMachine α).exec e = ((x.exec e.draft).1, { e with draft := (x.exec e.draft).2 }) := rfl

/-- Labels are numbered in the order of the code. -/
theorem defineLabels_machine : ∀ (code : List Instr) (e : OnMachine), (∀ i ∈ code, i.isFlat) →
    (defineLabels code).exec e =
      (.ok (), { e with
        draft := { e.draft with
          labels := e.draft.labels ++ (List.replicate (code.filterMap Instr.definedLabel?).length none).toArray }
        labels := numbered LabelId.mk e.draft.labels.size (code.filterMap Instr.definedLabel?) ++ e.labels })
  | [], e, _ => by simp [defineLabels, numbered]
  | i :: code, e, hflat => by
    have hrest := fun e => defineLabels_machine code e fun i hi => hflat i (List.mem_cons_of_mem _ hi)
    cases i
    case label x =>
      have hstep : (ofDraft machine.defineLabel : Effect OnMachine LabelId).exec e =
        (.ok ⟨e.draft.labels.size⟩, { e with draft := { e.draft with labels := e.draft.labels.push none } }) := rfl
      rw [defineLabels, exec_bind, hstep]
      simp only [bindLabel]
      rw [exec_bind, exec_modify]
      simp only [hrest]
      simp [numbered_cons, Instr.definedLabel?, List.replicate_succ, ← Array.toList_inj]
    case endTry => simp [Instr.isFlat] at hflat
    all_goals exact hrest e

/-! ## Instructions -/

/-- One operation more. -/
def pushed (e : OnMachine) (op : Op handles) : OnMachine :=
  { e with draft := { e.draft with ops := e.draft.ops.push (.plain op) } }

/-- Other positions of the labels. -/
def placing (e : OnMachine) (labels : List (Option Nat)) : OnMachine :=
  { e with draft := { e.draft with labels := labels.toArray } }

/-- The symbols as they are bound while a block is written; the body comes later. -/
def layout (e : OnMachine) (code : Machine.Code) : Layout where
  code
  label := find? e.labels
  slot := find? e.locals

theorem exec_label {l : LabelId} (h : find? e.labels x = some l) :
    (label x : Effect OnMachine LabelId).exec e = (.ok l, e) := by
  rw [label, exec_bind, exec_get]
  simp only [h]
  rfl

theorem exec_localOf {l : LocalId} (h : find? e.locals x = some l) :
    (localOf x : Effect OnMachine LocalId).exec e = (.ok l, e) := by
  rw [localOf, exec_bind, exec_get]
  simp only [h]
  rfl

theorem exec_labelsOf : ∀ {xs : List Symbol} {ls : List LabelId}, xs.mapM (find? e.labels) = some ls →
    (labelsOf xs : Effect OnMachine (List LabelId)).exec e = (.ok ls, e)
  | [], ls, h => by
    simp at h
    subst h
    rfl
  | x :: xs, ls, h => by
    simp only [List.mapM_cons, Option.bind_eq_bind, Option.bind_eq_some_iff, Option.pure_def, Option.some.injEq] at h
    obtain ⟨l, hl, rest, hrest, rfl⟩ := h
    rw [labelsOf, exec_bind, exec_label hl]
    simp only
    rw [exec_bind, exec_labelsOf hrest]
    rfl

theorem exec_put (h : ∀ l ∈ Machine.Draft.targets op, l.index < e.draft.labels.size) :
    (put op : Effect OnMachine Unit).exec e = (.ok (), e.pushed op) := by
  have hfind : ((Machine.Draft.targets op).find? fun label => label.index ≥ e.draft.labels.size) = none := by
    refine List.find?_eq_none.mpr fun l hl => ?_
    have := h l hl
    simpa using this
  have hemit : (Machine.Draft.emit op).exec e.draft = (.ok (),
      { e.draft with ops := e.draft.ops.push (.plain op) }) := by
    rw [Machine.Draft.emit, exec_bind, exec_get]
    simp only [hfind]
    rfl
  rw [put, exec_ofDraft, hemit]
  rfl

/-- An instruction that refers to nothing becomes one operation. -/
theorem exec_instr {code : Machine.Code} {i : Instr} (hop : (e.layout code).op? i = some op)
    (h : ∀ l ∈ Machine.Draft.targets op, l.index < e.draft.labels.size) :
    (instr slots i).exec e = (.ok (), e.pushed op) := by
  cases i <;> simp only [Layout.op?, layout, Option.some.injEq, reduceCtorEq, Option.map_eq_some_iff] at hop
  case loadLocal | storeLocal =>
    obtain ⟨l, hl, rfl⟩ := hop
    rw [instr, exec_bind, exec_localOf hl]
    exact exec_put h
  case branch =>
    obtain ⟨l, hl, rfl⟩ := hop
    rw [instr, exec_bind, exec_label hl]
    exact exec_put h
  case switch =>
    obtain ⟨ls, hls, rfl⟩ := hop
    rw [instr, exec_bind, exec_labelsOf hls]
    exact exec_put h
  all_goals
    subst hop
    exact exec_put h

end Emission

/-- The labels of code without regions, in order. -/
def labelNames (code : List Instr) : List Symbol := code.filterMap Instr.definedLabel?

/-- The positions of the labels of code that starts at the given position. -/
def marks : Nat → List Instr → List Nat
  | _, [] => []
  | pc, .label _ :: code => pc :: marks pc code
  | pc, _ :: code => marks (pc + 1) code

/-- Every instruction is a label or has its operation, which goes to labels with a place. -/
def Layout.Ready (L : Layout) (size : Nat) (code : List Instr) : Prop :=
  ∀ i ∈ code, (∃ x, i = .label x) ∨ ∃ op, L.op? i = some op ∧ ∀ l ∈ Machine.Draft.targets op, l.index < size

namespace Emission

theorem exec_mark {before : List Nat} {after : List (Option Nat)} (hx : find? e.labels x = some ⟨before.length⟩)
    (h : e.draft.labels = (before.map some ++ none :: after).toArray) :
    (instr slots (.label x)).exec e = (.ok (), e.placing ((before ++ [e.draft.ops.size]).map some ++ after)) := by
  have hget : e.draft.labels[before.length]? = some none := by simp [h]
  have hset : e.draft.labels.setIfInBounds before.length (some e.draft.pc) =
      ((before ++ [e.draft.ops.size]).map some ++ after).toArray := by
    simp [h, Machine.Draft.pc]
  have hmark : (Machine.Draft.markLabel ⟨before.length⟩).exec e.draft =
      (.ok (), { e.draft with labels := ((before ++ [e.draft.ops.size]).map some ++ after).toArray }) := by
    rw [Machine.Draft.markLabel, exec_bind, exec_get]
    simp only [hget, hset]
    rfl
  rw [instr, exec_bind, exec_label hx]
  simp only
  rw [exec_ofDraft, hmark]
  rfl

end Emission

/-! ## Finished bodies -/

theorem Machine.Draft.placed_some : ∀ (n : Nat) (positions : List Nat), placed n (positions.map some) = .ok positions
  | _, [] => rfl
  | n, pc :: positions => by
    rw [List.map_cons, placed, placed_some (n + 1) positions]
    rfl

theorem exists_mapM {α β : Type} {f : α → Option β} {P : β → Prop} : ∀ {xs : List α},
    (∀ x ∈ xs, ∃ y, f x = some y ∧ P y) → ∃ ys, xs.mapM f = some ys ∧ ∀ y ∈ ys, P y
  | [], _ => ⟨[], by simp, by simp⟩
  | x :: xs, h => by
    obtain ⟨y, hy, hp⟩ := h x (List.mem_cons_self ..)
    obtain ⟨ys, hys, hps⟩ := exists_mapM fun x hx => h x (List.mem_cons_of_mem _ hx)
    exact ⟨y :: ys, by simp [List.mapM_cons, hy, hys], by simp [hp]; exact hps⟩

/-- Code that goes to its own labels and reads its own locals has all its operations. -/
theorem Layout.ready_of_clean {size : Nat} {b : Block} {labels locals : Symbol → Nat} (h : Clean labels locals [] [] b)
    (hsimple : ∀ i ∈ b.code, i.isSimple = true) (hlabels : ∀ x ∈ b.definedLabels, ∃ l, L.label x = some l ∧
      l.index < size)
    (hslots : ∀ x ∈ b.localNames, ∃ l, L.slot x = some l) : L.Ready size b.code := by
  intro i hi
  have hgoes : ∀ x ∈ i.usedLabels, ∃ l, L.label x = some l ∧ l.index < size := fun x hx =>
    hlabels x ((h.goes x (List.mem_flatMap.mpr ⟨i, hi, hx⟩)).resolve_right List.not_mem_nil)
  have hreads : ∀ x, i.local? = some x → ∃ l, L.slot x = some l := fun x hx =>
    hslots x ((h.reads x (List.mem_filterMap.mpr ⟨i, hi, hx⟩)).resolve_right List.not_mem_nil)
  replace hi := hsimple i hi
  cases i <;> simp only [Instr.isSimple, Bool.false_eq_true] at hi
  case label x => exact .inl ⟨x, rfl⟩
  case loadLocal x | storeLocal x =>
    obtain ⟨l, hl⟩ := hreads x rfl
    exact .inr ⟨_, by rw [op?, hl]; rfl, by simp [Machine.Draft.targets]⟩
  case branch kind x =>
    obtain ⟨l, hl, hsize⟩ := hgoes x (List.mem_singleton_self x)
    exact .inr ⟨_, by rw [op?, hl]; rfl, by simpa [Machine.Draft.targets] using hsize⟩
  case switch xs =>
    obtain ⟨ls, hls, hsize⟩ := @exists_mapM _ _ L.label _ xs hgoes
    exact .inr ⟨.switch ls, by rw [op?, hls]; rfl, hsize⟩
  all_goals exact .inr ⟨_, rfl, by simp [Machine.Draft.targets]⟩

/-- A body in which a block stands from the start, with one place per declared local. -/
structure Layout.Installs (L : Layout) (b : Block) : Prop where
  holds : L.Holds 0 b.code
  slots : ∀ x ∈ b.localNames, ∃ l, L.slot x = some l ∧ l.index < L.code.locals.length
  distinct : ∀ {x y l}, L.slot x = some l → L.slot y = some l → (x == y) = true

namespace Block

/-- The labels and locals of a block under their numbers. -/
def layout (b : Block) (code : Machine.Code) : Layout where
  code
  label := Emission.find? (numbered LabelId.mk 0 b.definedLabels)
  slot := Emission.find? (numbered LocalId.mk 0 b.localNames)

variable {b : Block} {s t : Supply}

theorem layout_label (h : Made s [] [] b t) (code : Machine.Code)
    (hx : b.definedLabels[j]? = some x) : (b.layout code).label x = some ⟨j⟩ := by
  rw [← Nat.zero_add j]
  exact find?_numbered h.labels_once hx

theorem layout_slot (h : Made s [] [] b t) (code : Machine.Code)
    (hx : b.localNames[j]? = some x) : (b.layout code).slot x = some ⟨j⟩ := by
  rw [← Nat.zero_add j]
  exact find?_numbered h.locals_once hx

theorem layout_ready (h : Made s [] [] b t) (hsimple : ∀ i ∈ b.code, i.isSimple = true) (code : Machine.Code) :
    (b.layout code).Ready b.definedLabels.length b.code := by
  refine Layout.ready_of_clean h.clean hsimple (fun x hx => ?_) (fun x hx => ?_)
  · obtain ⟨j, hj⟩ := List.mem_iff_getElem?.mp hx
    exact ⟨_, layout_label h code hj, (List.getElem?_eq_some_iff.mp hj).1⟩
  · obtain ⟨j, hj⟩ := List.mem_iff_getElem?.mp hx
    exact ⟨_, layout_slot h code hj⟩

end Block

/-- The program once the method has its body. -/
def Machine.Program.withBody (p : Machine.Program) (id : Machine.MethodId) (code : Machine.Code) : Machine.Program :=
  { p with methods := p.methods.modify id.index fun m => { m with kind := .defined (some code) } }

end Stackwright
