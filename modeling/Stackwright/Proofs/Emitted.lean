import Stackwright.Proofs.Growth

/-
  Stackwright.Proofs.Emitted — code with references in place.

  Writing a block follows its references with the slots as they are, and may note methods of the
  machine on the way. `Setting.Holds pc code` says that code, references included, stands in a body
  of a program from position `pc` on; it stays so when the program grows.
-/

namespace Stackwright

open Machine (Ty TypeId FieldId MethodId LabelId LocalId MethodRecord Program handles)

variable {α : Type} {b : Block} {s : Supply}

/-! ## Code in place -/

/-- A body in a program, and the handles that keys stand for. -/
structure Setting where
  layout : Layout
  slots : Slots handles
  program : Program

namespace Setting

variable (S : Setting)

/-- The operation that an instruction turns into. -/
inductive Realizes : Instr → Op handles → Prop
  | plain {i op} : S.layout.op? i = some op → Realizes i op
  | loadField {ref f} : FieldRef.Resolves S.slots S.program ref f → Realizes (.loadField ref) (.loadField f)
  | storeField {ref f} : FieldRef.Resolves S.slots S.program ref f → Realizes (.storeField ref) (.storeField f)
  | loadStatic {ref f} : FieldRef.Resolves S.slots S.program ref f → Realizes (.loadStatic ref) (.loadStatic f)
  | storeStatic {ref f} : FieldRef.Resolves S.slots S.program ref f → Realizes (.storeStatic ref) (.storeStatic f)
  | newObject {ref m} : ConstructorRef.Resolves S.slots S.program ref m → Realizes (.newObject ref) (.newObject m)
  | callConstructor {ref m} : ConstructorRef.Resolves S.slots S.program ref m →
      Realizes (.callConstructor ref) (.callConstructor m)
  | call {ref m tail} : MethodRef.Resolves S.slots S.program ref m → Realizes (.call ref tail) (.call m tail)
  | callVirtual {ref m tail} : MethodRef.Resolves S.slots S.program ref m →
      Realizes (.callVirtual ref tail) (.callVirtual m tail)
  | typeOp {kind t ty} : TypeRef.Resolves S.slots t ty → Realizes (.typeOp kind t) (.typeOp kind ty)
  | newDelegate {t ty ref m} : TypeRef.Resolves S.slots t ty → MethodRef.Resolves S.slots S.program ref m →
      Realizes (.newDelegate t ref) (.newDelegate ty m)
  | invokeDelegate {t ty tail} : TypeRef.Resolves S.slots t ty → Realizes (.invokeDelegate t tail)
    (.invokeDelegate ty tail)

/-- The instruction stands at the position. -/
def At (pc : Nat) (i : Instr) : Prop := ∃ op, S.Realizes i op ∧ S.layout.code.ops[pc]? = some (.plain op)

/-- The code stands in the body from the position on. -/
def Holds : Nat → List Instr → Prop
  | _, [] => True
  | pc, .label x :: code => S.layout.Placed x pc ∧ Holds pc code
  | pc, i :: code => S.At pc i ∧ Holds (pc + 1) code

variable {S} {pc : Nat} {i : Instr} {code : List Instr}

theorem holds_cons (hi : ∀ x, i ≠ .label x) : S.Holds pc (i :: code) ↔ S.At pc i ∧ S.Holds (pc + 1) code := by
  cases i <;> first | rfl | exact (hi _ rfl).elim

theorem op?_of_realizes {op : Op handles} (hi : i.isSimple) (h : S.Realizes i op) : S.layout.op? i = some op := by
  cases h with
  | plain hop => exact hop
  | _ => cases hi

/-- Code that refers to nothing stands in the body by itself. -/
theorem Holds.simple (h : S.Holds pc code) (hsimple : ∀ i ∈ code, i.isSimple = true) : S.layout.Holds pc code := by
  induction code using extent.induct generalizing pc with
  | case1 => trivial
  | case2 x code ih => exact ⟨h.1, ih h.2 (List.forall_mem_cons.mp hsimple).2⟩
  | case3 i code hi ih =>
    obtain ⟨⟨op, hop, hat⟩, hrest⟩ := (holds_cons hi).mp h
    have := ih hrest (List.forall_mem_cons.mp hsimple).2
    simpa [Layout.Holds] using ⟨⟨op, op?_of_realizes (hsimple i List.mem_cons_self) hop, hat⟩, this⟩

/-! ## Growth -/

/-- The same body in a program that has grown. -/
structure Grows (S S' : Setting) : Prop where
  layout : S'.layout = S.layout
  slots : S.slots.Grows S'.slots
  program : S.program.Grows S'.program

variable {S' : Setting}

theorem Realizes.mono {op : Op handles} (h : S.Realizes i op) (hS : S.Grows S') : S'.Realizes i op := by
  cases h with
  | plain hop => exact .plain (by rw [hS.layout, hop])
  | loadField h => exact .loadField (h.mono hS.slots hS.program)
  | storeField h => exact .storeField (h.mono hS.slots hS.program)
  | loadStatic h => exact .loadStatic (h.mono hS.slots hS.program)
  | storeStatic h => exact .storeStatic (h.mono hS.slots hS.program)
  | newObject h => exact .newObject (h.mono hS.slots hS.program)
  | callConstructor h => exact .callConstructor (h.mono hS.slots hS.program)
  | call h => exact .call (h.mono hS.slots hS.program)
  | callVirtual h => exact .callVirtual (h.mono hS.slots hS.program)
  | typeOp h => exact .typeOp (h.mono hS.slots)
  | newDelegate ht hm => exact .newDelegate (ht.mono hS.slots) (hm.mono hS.slots hS.program)
  | invokeDelegate h => exact .invokeDelegate (h.mono hS.slots)

theorem Holds.mono (h : S.Holds pc code) (hS : S.Grows S') : S'.Holds pc code := by
  induction code generalizing pc with
  | nil => trivial
  | cons i code ih =>
    by_cases hi : ∃ x, i = .label x
    · obtain ⟨x, rfl⟩ := hi
      exact ⟨by rw [hS.layout]; exact h.1, ih h.2⟩
    · have hi : ∀ x, i ≠ .label x := fun x hx => hi ⟨x, hx⟩
      obtain ⟨⟨op, hop, hat⟩, hrest⟩ := (holds_cons hi).mp h
      exact (holds_cons hi).mpr ⟨⟨op, hop.mono hS, by rw [hS.layout, hat]⟩, ih hrest⟩

/-- A block that stands in a body from its start, with one place per declared local. -/
structure Installs (S : Setting) (b : Block) : Prop where
  holds : S.Holds 0 b.code
  locals : List.Forall₂ (fun l ty => TypeRef.Resolves S.slots l.type ty) b.locals S.layout.code.locals
  slot : ∀ j l, b.locals[j]? = some l → S.layout.slot l.name = some ⟨j⟩

theorem Installs.mono {b : Block} (h : S.Installs b) (hS : S.Grows S') : S'.Installs b where
  holds := h.holds.mono hS
  locals := by
    rw [hS.layout]
    exact h.locals.imp fun _ _ ht => ht.mono hS.slots
  slot j l hl := by
    rw [hS.layout]
    exact h.slot j l hl

end Setting

/-! ## Work in parts -/

namespace Effect

variable {σ α β : Type} {sure : Prop} {x : Effect σ α} {s : σ} {Q : α → σ → Prop}

/-- Work that ends as `Q` says, unless it fails; if `sure`, it does not fail. -/
def Does (sure : Prop) (x : Effect σ α) (s : σ) (Q : α → σ → Prop) : Prop :=
  match x.exec s with
  | (.ok a, t) => Q a t
  | (.error _, _) => ¬ sure

namespace Does

theorem of_ok {a : α} {t : σ} (hx : x.exec s = (.ok a, t)) (hQ : Q a t) : x.Does sure s Q := by
  rw [Does, hx]
  exact hQ

theorem of_elim (h : ∀ a t, x.exec s = (.ok a, t) → Q a t) : x.Does False s Q := by
  unfold Does
  split
  · exact h _ _ ‹_›
  · exact id

theorem elim {a : α} {t : σ} (h : x.Does sure s Q) (hx : x.exec s = (.ok a, t)) : Q a t := by
  rwa [Does, hx] at h

theorem succeeds (h : x.Does True s Q) : ∃ a t, x.exec s = (.ok a, t) ∧ Q a t := by
  unfold Does at h
  split at h
  · exact ⟨_, _, ‹_›, h⟩
  · exact (h trivial).elim

theorem mono {Q' : α → σ → Prop} (h : x.Does sure s Q) (hQ : ∀ a t, Q a t → Q' a t) : x.Does sure s Q' := by
  unfold Does at h ⊢
  split at h
  · exact hQ _ _ h
  · exact h

theorem bind {f : α → Effect σ β} {Q : β → σ → Prop} (h : x.Does sure s fun a t => (f a).Does sure t Q) :
    (x >>= f).Does sure s Q := by
  unfold Does at h ⊢
  rw [exec_bind]
  revert h
  rcases x.exec s with ⟨_ | a, t⟩ <;> exact id

end Does

end Effect

/-! ## Writing instructions -/

/-- The methods of the machine that are noted for an instruction. -/
def Instr.NotedFor (slots : Slots handles) (i : Instr) (r : MethodRecord) : Prop :=
  (∃ ref, (∃ tail, i = .call ref tail ∨ i = .callVirtual ref tail) ∧ ref.NotedFor slots r) ∨
  (∃ t ref, i = .newDelegate t ref ∧ ref.NotedFor slots r) ∨
  ∃ ref, (i = .newObject ref ∨ i = .callConstructor ref) ∧ ConstructorRef.NotedFor slots ref r

namespace Emission

open Effect

variable {slots : Slots handles} {e e' : OnMachine} {p q : Program}

theorem of_emit {op : Op handles} {d d' : Machine.Draft} (h : (Machine.Draft.emit op).exec d = (.ok (), d')) :
    d' = { d with ops := d.ops.push (.plain op) } := by
  obtain ⟨d₁, d₂, hget, hrest⟩ := exec_bind_ok.mp h
  cases hget
  split at hrest
  · cases hrest
  · exact (congrArg Prod.snd hrest).symm

theorem of_put {op : Op handles} (h : (put op : Effect OnMachine Unit).exec e = (.ok (), e')) : e' = e.pushed op := by
  rw [put, exec_ofDraft] at h
  obtain ⟨hok, rfl⟩ := Prod.mk.inj h
  have hdraft := of_emit (Prod.ext hok rfl : (Machine.Draft.emit op).exec e.draft = (.ok (), _))
  rw [pushed, ← hdraft]

theorem of_label {x : Symbol} {l : LabelId} (h : (label x : Effect OnMachine LabelId).exec e = (.ok l, e')) :
    e' = e ∧ find? e.labels x = some l := by
  obtain ⟨e₁, e₂, hget, h⟩ := exec_bind_ok.mp h
  cases hget
  split at h
  · rename_i found hfound
    cases h
    exact ⟨rfl, hfound⟩
  · cases h

theorem of_localOf {x : Symbol} {l : LocalId} (h : (localOf x : Effect OnMachine LocalId).exec e = (.ok l, e')) :
    e' = e ∧ find? e.locals x = some l := by
  obtain ⟨e₁, e₂, hget, h⟩ := exec_bind_ok.mp h
  cases hget
  split at h
  · rename_i found hfound
    cases h
    exact ⟨rfl, hfound⟩
  · cases h

theorem of_labelsOf {xs : List Symbol} {ls : List LabelId}
    (h : (labelsOf xs : Effect OnMachine (List LabelId)).exec e = (.ok ls, e')) :
    e' = e ∧ xs.mapM (find? e.labels) = some ls := by
  induction xs generalizing ls e' with
  | nil =>
    cases h
    exact ⟨rfl, rfl⟩
  | cons x xs ih =>
    obtain ⟨l, e₁, hl, hmore⟩ := exec_bind_ok.mp h
    obtain ⟨rest, e₂, hrest, hdone⟩ := exec_bind_ok.mp hmore
    obtain ⟨rfl, hl'⟩ := of_label hl
    obtain ⟨rfl, hrest'⟩ := ih hrest
    cases hdone
    refine ⟨rfl, ?_⟩
    rw [List.mapM_cons, hl', hrest']
    rfl

/-- The program as it is after following a reference. -/
theorem of_ofProgram {x : Effect Program α} {a : α} (h : (ofProgram x : Effect OnMachine α).exec e = (.ok a, e')) :
    x.exec e.program = (.ok a, e'.program) ∧ e' = { e with program := e'.program } := by
  rw [ofProgram, exec_zoom] at h
  obtain ⟨hok, rfl⟩ := Prod.mk.inj h
  exact ⟨Prod.ext hok rfl, rfl⟩

/-- The state after an instruction: one operation more, and methods of the machine that were noted. -/
def after (e : OnMachine) (op : Op handles) (q : Program) : OnMachine := { e.pushed op with program := q }

/-- An instruction becomes an operation, whatever body it is for, and methods of the machine are noted for it. -/
def Follows (slots : Slots handles) (layout : Machine.Code → Layout) (p : Program) (i : Instr) (op : Op handles)
    (q : Program) :
    Prop :=
  p.Notes (i.NotedFor slots) q ∧ ∀ code, Setting.Realizes ⟨layout code, slots, q⟩ i op

/-- What an instruction that is no label turns into. -/
theorem of_instr {i : Instr} (hflat : i.isFlat) (hlabel : ∀ x, i ≠ .label x) (hnamed : slots.Named)
    (hp : e.program.Ranged) (h : (instr slots i).exec e = (.ok (), e')) : ∃ op q, e' = e.after op q ∧
    Follows slots e.layout e.program i op q := by
  have hplain {op : Op handles} (hop : ∀ code, (e.layout code).op? i = some op)
      (hput : (put op).exec e = (.ok (), e')) :
      ∃ op q, e' = e.after op q ∧ Follows slots e.layout e.program i op q :=
    ⟨op, e.program, of_put hput, .refl _, fun code => .plain (hop code)⟩
  have hfollow {α : Type} {x : Effect Program α} {make : α → Op handles}
      (hx : (ofProgram x >>= fun a => put (make a)).exec e = (.ok (), e')) :
      ∃ a, x.exec e.program = (.ok a, e'.program) ∧ e' = e.after (make a) e'.program := by
    obtain ⟨a, e₁, ha, hput⟩ := exec_bind_ok.mp hx
    obtain ⟨ha, he₁⟩ := of_ofProgram ha
    have he' := of_put hput
    rw [he₁] at he'
    have hprogram : e'.program = e₁.program := congrArg (·.program) he'
    rw [hprogram]
    exact ⟨a, ha, he'⟩
  cases i
  case label x => exact (hlabel x rfl).elim
  case leave | beginTry | beginCatch | beginFinally | endTry => cases hflat
  case loadLocal x | storeLocal x =>
    obtain ⟨l, e₁, hl, hput⟩ := exec_bind_ok.mp h
    obtain ⟨rfl, hl⟩ := of_localOf hl
    exact hplain (fun _ => by rw [Layout.op?]; show (find? e₁.locals x).map _ = _; rw [hl]; rfl) hput
  case branch kind x =>
    obtain ⟨l, e₁, hl, hput⟩ := exec_bind_ok.mp h
    obtain ⟨rfl, hl⟩ := of_label hl
    exact hplain (fun _ => by rw [Layout.op?]; show (find? e₁.labels x).map _ = _; rw [hl]; rfl) hput
  case switch xs =>
    obtain ⟨ls, e₁, hls, hput⟩ := exec_bind_ok.mp h
    obtain ⟨rfl, hls⟩ := of_labelsOf hls
    exact hplain (fun _ => by rw [Layout.op?]; show (xs.mapM (find? e₁.labels)).map _ = _; rw [hls]; rfl) hput
  case loadField ref | storeField ref | loadStatic ref | storeStatic ref =>
    obtain ⟨f, hf, he'⟩ := hfollow h
    obtain ⟨hsame, hf⟩ := ref.of_resolve hnamed hp hf
    refine ⟨_, _, he', hsame ▸ .refl _, fun _ => ?_⟩
    first | exact .loadField hf | exact .storeField hf | exact .loadStatic hf | exact .storeStatic hf
  case newObject ref =>
    obtain ⟨m, hm, he'⟩ := hfollow h
    obtain ⟨hm, hnotes⟩ := ref.of_resolve hnamed hp hm
    exact ⟨_, _, he', hnotes.mono fun r hr => .inr (.inr ⟨ref, .inl rfl, hr⟩), fun _ => .newObject hm⟩
  case callConstructor ref =>
    obtain ⟨m, hm, he'⟩ := hfollow h
    obtain ⟨hm, hnotes⟩ := ref.of_resolve hnamed hp hm
    exact ⟨_, _, he', hnotes.mono fun r hr => .inr (.inr ⟨ref, .inr rfl, hr⟩), fun _ => .callConstructor hm⟩
  case call ref tail =>
    obtain ⟨m, hm, he'⟩ := hfollow h
    obtain ⟨hm, hnotes⟩ := ref.of_resolve hnamed hp hm
    exact ⟨_, _, he', hnotes.mono fun r hr => .inl ⟨ref, ⟨tail, .inl rfl⟩, hr⟩, fun _ => .call hm⟩
  case callVirtual ref tail =>
    obtain ⟨m, hm, he'⟩ := hfollow h
    obtain ⟨hm, hnotes⟩ := ref.of_resolve hnamed hp hm
    exact ⟨_, _, he', hnotes.mono fun r hr => .inl ⟨ref, ⟨tail, .inr rfl⟩, hr⟩, fun _ => .callVirtual hm⟩
  case typeOp _ t | invokeDelegate t _ =>
    obtain ⟨ty, hty, he'⟩ := hfollow h
    obtain ⟨hsame, hty⟩ := t.of_resolve hnamed hty
    refine ⟨_, _, he', hsame ▸ .refl _, fun _ => ?_⟩
    first | exact .typeOp hty | exact .invokeDelegate hty
  case newDelegate t ref =>
    obtain ⟨ty, e₁, hty, hrest⟩ := exec_bind_ok.mp h
    obtain ⟨hty, he₁⟩ := of_ofProgram hty
    obtain ⟨hsame, hty'⟩ := t.of_resolve hnamed hty
    obtain rfl : e₁ = e := by rw [he₁, ← hsame]
    obtain ⟨m, hm, he'⟩ := hfollow hrest
    obtain ⟨hm, hnotes⟩ := ref.of_resolve hnamed hp hm
    exact ⟨_, _, he', hnotes.mono fun r hr => .inr (.inl ⟨t, ref, rfl, hr⟩), fun _ => .newDelegate hty' hm⟩
  all_goals exact hplain (fun _ => rfl) h

end Emission

namespace Setting

/-- The operations that code turns into; labels leave none. -/
inductive Emits (S : Setting) : List Instr → List (Op handles) → Prop
  | nil : Emits S [] []
  | label {x code ops} : Emits S code ops → Emits S (.label x :: code) ops
  | cons {i op code ops} : (∀ x, i ≠ .label x) → S.Realizes i op → Emits S code ops → Emits S (i :: code) (op :: ops)

variable {S : Setting} {code : List Instr} {ops : List (Op handles)}

theorem marks_cons {i : Instr} (hi : ∀ x, i ≠ .label x) (pc : Nat) (code : List Instr) :
    marks pc (i :: code) = marks (pc + 1) code := by
  cases i <;> first | rfl | exact (hi _ rfl).elim

theorem labelNames_cons {i : Instr} (hflat : i.isFlat) (hi : ∀ x, i ≠ .label x) (code : List Instr) :
    labelNames (i :: code) = labelNames code := by
  cases i <;> first | rfl | exact (hi _ rfl).elim | cases hflat

/-- Operations in order and labels at their marks make the code stand in the body. -/
theorem holds_of_emits (h : S.Emits code ops) (hflat : ∀ i ∈ code, i.isFlat) : ∀ (first : List Machine.Op)
    (before : List Nat), S.layout.code.ops = (first ++ ops.map Machine.Op.plain).toArray →
    S.layout.code.labels = (before ++ marks first.length code).toArray →
    (∀ j x, (labelNames code)[j]? = some x → S.layout.label x = some ⟨before.length + j⟩) →
    S.Holds first.length code := by
  induction h with
  | nil => exact fun _ _ _ _ _ => trivial
  | @label x code ops _ ih =>
    intro first before hops hlabels hnames
    refine ⟨⟨⟨before.length⟩, hnames 0 x rfl, by simp [hlabels, marks]⟩, ?_⟩
    refine ih (fun i hi => hflat i (List.mem_cons_of_mem _ hi)) first (before ++ [first.length]) hops
      (by simpa [marks] using hlabels) fun j y hy => ?_
    rw [hnames (j + 1) y hy, List.length_append, List.length_singleton, Nat.add_assoc, Nat.add_comm 1]
  | @cons i op code ops hi hop _ ih =>
    intro first before hops hlabels hnames
    rw [labelNames_cons (hflat i (List.mem_cons_self ..)) hi] at hnames
    rw [marks_cons hi] at hlabels
    refine (holds_cons hi).mpr ⟨⟨op, hop, by simp [hops]⟩, ?_⟩
    have := ih (fun i hi => hflat i (List.mem_cons_of_mem _ hi)) (first ++ [.plain op]) before (by simpa using hops)
      (by simpa using hlabels) hnames
    simpa using this

end Setting

/-! ## Writing blocks -/

namespace Emission

open Effect

variable {slots : Slots handles} {e e' : OnMachine}

/-- Code is written as operations, each of which came about as `R` says; labels leave none. -/
inductive Written (R : Program → Instr → Op handles → Program → Prop) :
    Program → List Instr → List (Op handles) → Program → Prop
  | nil {p} : Written R p [] [] p
  | label {p x code ops q} : Written R p code ops q → Written R p (.label x :: code) ops q
  | cons {p i op p' code ops q} : (∀ x, i ≠ .label x) → R p i op p' → Written R p' code ops q →
      Written R p (i :: code) (op :: ops) q

/-- What is left of the state by an instruction that becomes one operation. -/
abbrev Puts (P : Program → Prop) (R : Program → Instr → Op handles → Program → Prop) (i : Instr) (e e' : OnMachine) :
    Prop :=
  ∃ op q, e' = e.after op q ∧ P q ∧ R e.program i op q

section

variable {sure : Prop} {P : Program → Prop} {R : Program → Instr → Op handles → Program → Prop}
  {D : LocalDecl → Ty → Prop}

theorem does_type (t : TypeRef) (e : OnMachine) : (type slots t).Does False e fun ty e' =>
    e' = e ∧ (t.resolve machine slots).exec e.program = (.ok ty, e.program) := by
  refine .of_elim fun ty e' h => ?_
  obtain ⟨hty, he'⟩ := of_ofProgram h
  have hkeeps : e'.program = e.program := by simpa [hty] using t.resolve_keeps slots e.program
  rw [hkeeps] at hty he'
  exact ⟨he', hty⟩

/-- Locals are numbered in the order in which they are declared. -/
theorem does_declareLocals {ls : List LocalDecl} : ∀ {e : OnMachine},
    (∀ l ∈ ls, ∀ e : OnMachine, (type slots l.type).Does sure e fun ty e' => e' = e ∧ D l ty) →
    (declareLocals slots ls).Does sure e fun _ e' => ∃ types, List.Forall₂ D ls types ∧
      e' = { e with
        draft := { e.draft with locals := e.draft.locals ++ types.toArray }
        locals := numbered LocalId.mk e.draft.locals.size (ls.map (·.name)) ++ e.locals } := by
  induction ls with
  | nil => exact fun _ => .of_ok rfl ⟨[], .nil, by simp [numbered]⟩
  | cons l ls ih =>
    intro e htypes
    rw [List.forall_mem_cons] at htypes
    refine .bind ((htypes.1 e).mono ?_)
    rintro ty _ ⟨rfl, hty⟩
    refine .bind (.of_ok rfl (.bind (.of_ok rfl ((ih htypes.2).mono ?_))))
    rintro _ _ ⟨types, htypes, rfl⟩
    exact ⟨ty :: types, .cons hty htypes, by simp [numbered_cons]⟩

/-- Operations are put one after the other, and labels are placed on the way. -/
theorem does_instrs {layout : Machine.Code → Layout} {size : Nat} {code : List Instr} (hflat : ∀ i ∈ code, i.isFlat)
    (hstep : ∀ {e : OnMachine}, e.layout = layout → e.draft.labels.size = size → P e.program → ∀ i ∈ code,
      (∀ x, i ≠ .label x) → (instr slots i).Does sure e fun _ => Puts P R i e) :
    ∀ {e : OnMachine} (before : List Nat), e.layout = layout → P e.program →
      before.length + (labelNames code).length = size →
    e.draft.labels = (before.map some ++ List.replicate (labelNames code).length none).toArray →
    (∀ j x, (labelNames code)[j]? = some x → (layout {}).label x = some ⟨before.length + j⟩) →
    (instrs slots code).Does sure e fun _ e' => ∃ ops,
      e'.draft = { e.draft with
        ops := e.draft.ops ++ (ops.map Machine.Op.plain).toArray
        labels := ((before ++ marks e.draft.ops.size code).map some).toArray } ∧
      P e'.program ∧ Written R e.program code ops e'.program := by
  induction code with
  | nil =>
    intro e before _ hkept _ hplaces _
    have hplaced : e.draft.labels = (before.map some).toArray := by simpa [labelNames] using hplaces
    exact .of_ok rfl ⟨[], by simp [marks, ← hplaced], hkept, .nil⟩
  | cons i code ih =>
    intro e before hlayout hkept hsize hplaces hnames
    rw [List.forall_mem_cons] at hflat
    have hstep' {e : OnMachine} (hlayout : e.layout = layout) (hsize : e.draft.labels.size = size) (hkept : P e.program)
        (i : Instr) (hi : i ∈ code) := hstep hlayout hsize hkept i (List.mem_cons_of_mem _ hi)
    by_cases hlabel : ∃ x, i = .label x
    · obtain ⟨x, rfl⟩ := hlabel
      -- The label takes the first place that is still free.
      have hx : find? e.labels x = some ⟨before.length⟩ := by
        have := hnames 0 x rfl
        rwa [← hlayout] at this
      let placed := (before ++ [e.draft.ops.size]).map some ++ List.replicate (labelNames code).length none
      refine .bind (.of_ok (exec_mark hx hplaces) ((@ih hflat.2 hstep' (e.placing placed) (before ++ [e.draft.ops.size])
        hlayout hkept ?_ rfl fun j y hy => ?_).mono ?_))
      · rw [← hsize, List.length_append, List.length_singleton, Nat.add_assoc, Nat.add_comm 1]
        rfl
      · rw [hnames (j + 1) y hy, List.length_append, List.length_singleton, Nat.add_assoc, Nat.add_comm 1]
      · rintro _ _ ⟨ops, hdraft, hkept, hwritten⟩
        exact ⟨ops, by simp [hdraft, placing, marks], hkept, .label hwritten⟩
    · have hlabel : ∀ x, i ≠ .label x := fun x hx => hlabel ⟨x, hx⟩
      rw [Setting.labelNames_cons hflat.1 hlabel] at hsize hplaces hnames
      have hfull : e.draft.labels.size = size := by simp [hplaces, ← hsize]
      refine .bind ((hstep hlayout hfull hkept i List.mem_cons_self hlabel).mono ?_)
      rintro _ _ ⟨op, q, rfl, hkept', hop⟩
      refine (@ih hflat.2 hstep' (e.after op q) before hlayout hkept' hsize hplaces hnames).mono ?_
      rintro _ _ ⟨ops, hdraft, hkept, hwritten⟩
      exact ⟨op :: ops, by simp [hdraft, after, pushed, Setting.marks_cons hlabel], hkept, .cons hlabel hop hwritten⟩

/-- What writing a block that stands on its own comes to. -/
theorem does_block {t : Supply} {p : Program} (hb : Made s [] [] b t) (hp : P p)
    (htypes : ∀ l ∈ b.locals, ∀ e : OnMachine, (type slots l.type).Does sure e fun ty e' => e' = e ∧ D l ty)
    (hstep : ∀ {e : OnMachine}, e.layout = b.layout → e.draft.labels.size = b.definedLabels.length → P e.program →
      ∀ i ∈ b.code, (∀ x, i ≠ .label x) → (instr slots i).Does sure e fun _ => Puts P R i e) :
    (block slots b).Does sure ⟨p, machine.emptyDraft, [], []⟩ fun _ e => ∃ types ops, List.Forall₂ D b.locals types ∧
      P e.program ∧ Written R p b.code ops e.program ∧ e.draft.finish = .ok
        { ops := (ops.map Machine.Op.plain).toArray, labels := (marks 0 b.code).toArray, locals := types } := by
  refine .bind (.of_ok (by rw [Block.validate_of_made hb]; rfl) (.bind ((does_declareLocals htypes).mono ?_)))
  rintro _ _ ⟨types, hlocals, rfl⟩
  refine .bind (.of_ok (defineLabels_machine b.code _ hb.clean.flat) ?_)
  refine (does_instrs hb.clean.flat hstep [] ?_ hp (Nat.zero_add _) (by simp [labelNames]) fun j x hx => ?_).mono ?_
  · funext code
    simp [layout, Block.layout, Block.definedLabels, Block.localNames]
  · rw [List.length_nil, Nat.zero_add]
    exact Block.layout_label hb {} hx
  · rintro _ e ⟨ops, hdraft, hkept, hwritten⟩
    refine ⟨types, ops, hlocals, hkept, hwritten, ?_⟩
    rw [hdraft]
    simp only [Machine.Draft.finish, List.nil_append, Machine.Draft.placed_some]
    simp
    rfl

end

/-- Operations that follow references in the program of their time follow them in the last one. -/
theorem Written.emits {layout : Machine.Code → Layout} {code : List Instr} {ops : List (Op handles)} {p q : Program}
    (h : Written (Follows slots layout) p code ops q) :
    p.Notes (fun r => ∃ i ∈ code, i.NotedFor slots r) q ∧ ∀ final, Setting.Emits ⟨layout final, slots, q⟩ code ops := by
  induction h with
  | nil => exact ⟨.refl _, fun _ => .nil⟩
  | label _ ih =>
    refine ⟨ih.1.mono fun r hr => ?_, fun final => .label (ih.2 final)⟩
    obtain ⟨i, hi, hr⟩ := hr
    exact ⟨i, List.mem_cons_of_mem _ hi, hr⟩
  | @cons p i op p' code ops q hlabel hop _ ih =>
    obtain ⟨hnotes, hop⟩ := hop
    refine ⟨(hnotes.mono fun r hr => ⟨i, List.mem_cons_self .., hr⟩).trans (ih.1.mono fun r hr => ?_),
      fun final => .cons hlabel ((hop final).mono ⟨rfl, .refl _, ih.1.grows⟩) (ih.2 final)⟩
    obtain ⟨j, hj, hr⟩ := hr
    exact ⟨j, List.mem_cons_of_mem _ hj, hr⟩

/-- The code of the block stands in the finished body. -/
theorem Written.holds {t : Supply} {ops : List (Op handles)} {types : List Ty} {p q : Program} (hb : Made s [] [] b t)
    (h : Written (Follows slots b.layout) p b.code ops q) : Setting.Holds ⟨b.layout
      { ops := (ops.map Machine.Op.plain).toArray, labels := (marks 0 b.code).toArray, locals := types }, slots, q⟩
      0 b.code := by
  refine Setting.holds_of_emits (h.emits.2 _) hb.clean.flat [] [] rfl rfl fun j x hx => ?_
  rw [List.length_nil, Nat.zero_add]
  exact Block.layout_label hb _ hx

/-- A block that stands on its own and was written without a fault stands in the finished body. -/
theorem of_block {t : Supply} {p : Program} (hb : Made s [] [] b t) (hnamed : slots.Named) (hp : p.Ranged)
    (h : (block slots b).exec ⟨p, machine.emptyDraft, [], []⟩ = (.ok (), e)) :
    ∃ code, e.draft.finish = .ok code ∧ p.Notes (fun r => ∃ i ∈ b.code, i.NotedFor slots r) e.program ∧
      Setting.Installs ⟨b.layout code, slots, e.program⟩ b := by
  have hblock : (block slots b).Does False ⟨p, machine.emptyDraft, [], []⟩ _ :=
    does_block (R := Follows slots b.layout) (D := fun l ty => TypeRef.Resolves slots l.type ty) hb hp
      (fun l _ e => (does_type l.type e).mono fun ty _ h => ⟨h.1, (l.type.of_resolve hnamed h.2).2⟩)
      fun hlayout _ hp i hi hlabel => .of_elim fun _ e' hi' => by
        obtain ⟨op, q, he', hfollows⟩ := of_instr (hb.clean.flat i hi) hlabel hnamed hp hi'
        exact ⟨op, q, he', hfollows.1.ranged hp, hlayout ▸ hfollows⟩
  obtain ⟨types, ops, htypes, -, hwritten, hfinish⟩ := hblock.elim h
  refine ⟨_, hfinish, hwritten.emits.1, hwritten.holds hb, htypes, fun j l hl => Block.layout_slot hb _ ?_⟩
  rw [Block.localNames, List.getElem?_map, hl]
  rfl

/-- Writing a block that stands on its own and refers to nothing succeeds. -/
theorem installed {t : Supply} (p : Program) (hb : Made s [] [] b t) (hsimple : ∀ i ∈ b.code, i.isSimple = true)
    (hkeys : ∀ k ∈ b.keys, slots.isWritten k) :
    ∃ (e : OnMachine) (L : Layout), (block slots b).exec ⟨p, machine.emptyDraft, [], []⟩ = (.ok (), e) ∧ e.program = p ∧
      e.draft.finish = .ok L.code ∧ L.Installs b := by
  have htypes (l : LocalDecl) (hl : l ∈ b.locals) (e : OnMachine) :
      (type slots l.type).Does True e fun _ e' => e' = e ∧ True := by
    obtain ⟨ty, hty⟩ := exec_type (fun k hk => hkeys _ (Block.mem_keys.mpr (.inr ⟨l, hl, List.mem_map_of_mem hk⟩))) e
    exact .of_ok hty ⟨rfl, trivial⟩
  have hstep {e : OnMachine} (hlayout : e.layout = b.layout) (hsize : e.draft.labels.size = b.definedLabels.length)
      (hp : e.program = p) (i : Instr) (hi : i ∈ b.code) (hlabel : ∀ x, i ≠ .label x) :
      (instr slots i).Does True e fun _ => Puts (· = p) (Follows slots b.layout) i e := by
    obtain ⟨op, hop, htargets⟩ := (Block.layout_ready hb hsimple {} i hi).resolve_left fun ⟨x, hx⟩ => hlabel x hx
    refine .of_ok (exec_instr (hlayout ▸ hop) (hsize ▸ htargets))
      ⟨op, e.program, rfl, hp, .refl _, fun code => .plain ?_⟩
    rw [← hop]
    cases i <;> rfl
  obtain ⟨_, e, hexec, types, ops, htypes, hp, hwritten, hfinish⟩ :=
    (does_block (P := (· = p)) hb rfl htypes hstep).succeeds
  refine ⟨e, b.layout _, hexec, hp, hfinish, (hwritten.holds hb).simple hsimple, fun x hx => ?_,
    fun hx hy => beq_of_find?_numbered (fun _ _ => LocalId.mk.inj) hx hy⟩
  obtain ⟨j, hj⟩ := List.mem_iff_getElem?.mp hx
  have hlt := (List.getElem?_eq_some_iff.mp hj).1
  rw [Block.localNames, List.length_map, htypes.length_eq] at hlt
  exact ⟨_, Block.layout_slot hb _ hj, hlt⟩

/-! ## Any code -/

theorem program_ofDraft {x : Effect Machine.Draft α} {a : α} (h : (ofDraft x : Effect OnMachine α).exec e = (.ok a, e'))
    : e'.program = e.program := by
  rw [exec_ofDraft] at h
  obtain ⟨-, rfl⟩ := Prod.mk.inj h
  rfl

/-- Whatever is written, the program only gains methods of the machine. -/
theorem instr_notes {i : Instr} (hnamed : slots.Named) (hp : e.program.Ranged)
    (h : (instr slots i).exec e = (.ok (), e')) :
    e.program.Notes (i.NotedFor slots) e'.program := by
  cases i
  case label x =>
    obtain ⟨l, e₁, hl, hmark⟩ := exec_bind_ok.mp h
    obtain ⟨rfl, -⟩ := of_label hl
    exact program_ofDraft hmark ▸ .refl _
  case leave x =>
    obtain ⟨l, e₁, hl, hput⟩ := exec_bind_ok.mp h
    obtain ⟨rfl, -⟩ := of_label hl
    exact program_ofDraft hput ▸ .refl _
  case beginTry x =>
    obtain ⟨l, e₁, hl, hbind⟩ := exec_bind_ok.mp h
    cases hbind
    exact program_ofDraft hl ▸ .refl _
  case beginCatch t =>
    obtain ⟨ty, e₁, hty, hcatch⟩ := exec_bind_ok.mp h
    obtain ⟨hty, -⟩ := of_ofProgram hty
    obtain ⟨hsame, -⟩ := t.of_resolve hnamed hty
    rw [program_ofDraft hcatch, ← hsame]
    exact .refl _
  case beginFinally | endTry => exact program_ofDraft h ▸ .refl _
  all_goals
    obtain ⟨op, q, rfl, hnotes, -⟩ := @of_instr slots e e' _ rfl (fun x hx => by cases hx) hnamed hp h
    exact hnotes

theorem instrs_notes (hnamed : slots.Named) {code : List Instr} : ∀ {e : OnMachine}, e.program.Ranged →
    (instrs slots code).exec e = (.ok (), e') → e.program.Notes
    (fun r => ∃ i ∈ code, i.NotedFor slots r) e'.program := by
  induction code with
  | nil =>
    intro e _ h
    cases h
    exact .refl _
  | cons i code ih =>
    intro e hp h
    obtain ⟨_, e₁, hi, hrest⟩ := exec_bind_ok.mp h
    have hfirst := instr_notes hnamed hp hi
    refine (hfirst.mono fun r hr => ⟨i, List.mem_cons_self .., hr⟩).trans ?_
    refine (ih (hfirst.ranged hp) hrest).mono fun r hr => ?_
    obtain ⟨j, hj, hr⟩ := hr
    exact ⟨j, List.mem_cons_of_mem _ hj, hr⟩

theorem program_defineLabels {code : List Instr} : ∀ {e : OnMachine}, (defineLabels code).exec e = (.ok (), e') →
    e'.program = e.program := by
  induction code with
  | nil =>
    intro e h
    cases h
    rfl
  | cons i code ih =>
    intro e h
    by_cases hlabel : ∃ x, i = .label x
    · obtain ⟨x, rfl⟩ := hlabel
      obtain ⟨l, e₁, hl, h₁⟩ := exec_bind_ok.mp h
      obtain ⟨_, e₂, hbind, h₂⟩ := exec_bind_ok.mp h₁
      have hsame : e₁.program = e.program := program_ofDraft hl
      rw [ih h₂, ← hsame]
      exact congrArg (·.2.program) hbind.symm
    · refine ih (?_ : (defineLabels code).exec e = _)
      rw [← h]
      cases i <;> first | rfl | exact (hlabel ⟨_, rfl⟩).elim

theorem block_notes {p : Program} (hnamed : slots.Named) (hp : p.Ranged)
    (h : (block slots b).exec ⟨p, machine.emptyDraft, [], []⟩ = (.ok (), e)) :
    p.Notes (fun r => ∃ i ∈ b.code, i.NotedFor slots r) e.program := by
  obtain ⟨_, e₀, hvalid, h₀⟩ := exec_bind_ok.mp h
  cases congrArg Prod.snd hvalid
  obtain ⟨_, e₁, hlocals, h₁⟩ := exec_bind_ok.mp h₀
  obtain ⟨types, -, rfl⟩ :=
    (does_declareLocals (D := fun _ _ => True) fun l _ e => (does_type l.type e).mono fun _ _ h => ⟨h.1, trivial⟩).elim
      hlocals
  obtain ⟨_, e₂, hlabels, h₂⟩ := exec_bind_ok.mp h₁
  have hsame : e₂.program = p := program_defineLabels hlabels
  have hnotes := instrs_notes hnamed (by rwa [hsame]) h₂
  rwa [hsame] at hnotes

end Emission

end Stackwright
