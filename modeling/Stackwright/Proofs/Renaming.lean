import Stackwright.Proofs.Retyping

/-
  Stackwright.Proofs.Renaming — lowering from a later supply of names.

  Lowering draws labels and locals from the supply and never looks at their numbers. From a supply
  some draws later it gives the same code with later numbers, or the same error (`Shifts`). The
  one error that would show a number is about a captured variable without a cell, and captured
  variables have cells (`Scope.Boxes`). With more declarations it gives the same code, though it
  may succeed where it failed. On the way no internal error comes up.

  - `Expr.lower_shifts`: lowering an expression.
  - `Body.compileMethod_shifts`, `Body.compileConstructor_shifts`: the code of a body.
-/

namespace Stackwright

variable {env : TypeEnv} {table : Table}

/-! ## Later numbers -/

/-- The symbol with its number some draws later. -/
def Symbol.shift (n : Nat) : Symbol → Symbol
  | .named x => .named x
  | .generated i hint => .generated (i + n) hint

theorem Symbol.shift_beq (n : Nat) (a b : Symbol) : (a.shift n == b.shift n) = (a == b) := by
  cases a <;> cases b <;> simp [shift]

/-- The instruction with the numbers of its labels and locals some draws later. -/
def Instr.shift (n : Nat) : Instr → Instr
  | .loadLocal x => .loadLocal (x.shift n)
  | .storeLocal x => .storeLocal (x.shift n)
  | .label x => .label (x.shift n)
  | .branch kind x => .branch kind (x.shift n)
  | .switch xs => .switch (xs.map (·.shift n))
  | .leave x => .leave (x.shift n)
  | .beginTry x => .beginTry (x.shift n)
  | .endTry x => .endTry (x.shift n)
  | i => i

namespace Block

def shift (n : Nat) (b : Block) : Block where
  locals := b.locals.map fun l => { l with name := l.name.shift n }
  code := b.code.map (Instr.shift n)

@[simp] theorem shift_append (n : Nat) (a b : Block) : (a ++ b).shift n = a.shift n ++ b.shift n := by
  show Block.mk ((a.locals ++ b.locals).map _) ((a.code ++ b.code).map _) =
    Block.mk (a.locals.map _ ++ b.locals.map _) (a.code.map _ ++ b.code.map _)
  rw [List.map_append, List.map_append]

@[simp] theorem shift_ofCode (n : Nat) (code : List Instr) :
    (ofCode code).shift n = ofCode (code.map (Instr.shift n)) := rfl

@[simp] theorem shift_empty (n : Nat) : ({} : Block).shift n = {} := rfl

@[simp] theorem shift_declare (n : Nat) (x : Symbol) (type : TypeRef) :
    ({ locals := [⟨x, type⟩] } : Block).shift n = { locals := [⟨x.shift n, type⟩] } := rfl

theorem keys_shift (n : Nat) (b : Block) : (b.shift n).keys = b.keys := by
  have hinstr : ∀ (i : Instr) (s : KeySet), (i.shift n).addKeys s = i.addKeys s := fun i s => by cases i <;> rfl
  simp [keys, shift, List.foldl_map, hinstr]

end Block

/-- Code without labels and locals has no numbers. -/
theorem Reads.map_shift {code : List Instr} (h : Reads [] code) (n : Nat) : code.map (Instr.shift n) = code := by
  refine (List.map_congr_left fun i hi => ?_).trans (List.map_id code)
  obtain ⟨hdefined, hused, hlocal, hflat⟩ := h i hi
  cases i with
  | loadLocal x | storeLocal x => exact absurd (hlocal x rfl) List.not_mem_nil
  | label x => cases hdefined
  | branch kind x => cases hused
  | «switch» xs =>
    obtain rfl : xs = [] := hused
    rfl
  | leave | beginTry | endTry => cases hflat
  | _ => rfl

@[simp] theorem map_shift_retIf (n : Nat) (tail : Bool) : (retIf tail).map (Instr.shift n) = retIf tail :=
  (reads_retIf [] tail).map_shift n

namespace Storage

def shift (n : Nat) : Storage → Storage
  | .argument index type => .argument index type
  | .slot x type boxed => .slot (x.shift n) type boxed
  | .field target f type boxed => .field (target.shift n) f type boxed

variable (n : Nat)

@[simp] theorem type_shift (s : Storage) : (s.shift n).type = s.type := by
  cases s <;> rfl

@[simp] theorem isBoxed_shift (s : Storage) : (s.shift n).isBoxed = s.isBoxed := by
  cases s <;> rfl

@[simp] theorem map_shift_cellLoad (boxed : Bool) (type : TypeRef) :
    (cellLoad boxed type).map (Instr.shift n) = cellLoad boxed type :=
  (reads_cellLoad [] boxed type).map_shift n

theorem loadSlot_shift : ∀ s : Storage, (s.shift n).loadSlot = s.loadSlot.map (Instr.shift n)
  | .argument _ _ | .slot _ _ _ => rfl
  | .field target f _ _ => by
    simp [shift, loadSlot, loadSlot_shift target, Instr.shift]

theorem fetch_shift (s : Storage) : (s.shift n).fetch = s.fetch.map (Instr.shift n) := by
  simp [fetch, loadSlot_shift]

theorem beforeStore_shift (s : Storage) : (s.shift n).beforeStore = s.beforeStore.map (Instr.shift n) := by
  unfold beforeStore
  rw [isBoxed_shift]
  split
  · exact loadSlot_shift n s
  · cases s with
    | argument | slot => rfl
    | field target => exact fetch_shift n target

theorem afterStore_shift (s : Storage) : (s.shift n).afterStore = s.afterStore.shift n := by
  unfold afterStore
  rw [isBoxed_shift, type_shift]
  split
  · rfl
  · cases s <;> rfl

theorem store_shift (s : Storage) (value : List Instr) :
    (s.shift n).store (value.map (Instr.shift n)) = (s.store value).map (Instr.shift n) := by
  simp [store, beforeStore_shift, afterStore_shift]

end Storage

namespace Scope

def shift (n : Nat) (scope : Scope) : Scope where
  types := scope.types
  vars := scope.vars.map fun entry => (entry.1, entry.2.shift n)

@[simp] theorem types_shift (n : Nat) (scope : Scope) : (scope.shift n).types = scope.types := rfl

@[simp] theorem bind_shift (n : Nat) (scope : Scope) (x : Symbol) (storage : Storage) :
    (scope.bind x storage).shift n = (scope.shift n).bind x (storage.shift n) := by
  simp [bind, shift]

theorem storage_shift (n : Nat) (scope : Scope) (x : Symbol) (whole : Expr) :
    (scope.shift n).storage x whole = (scope.storage x whole).map (Storage.shift n) := by
  have hfind : (scope.shift n).vars.find? (fun entry => entry.1 == x) =
      (scope.vars.find? fun entry => entry.1 == x).map fun entry => (entry.1, entry.2.shift n) := by
    simp only [shift, List.find?_map]
    rfl
  unfold storage
  rw [hfind]
  cases scope.vars.find? fun entry => entry.1 == x <;> rfl

/-- Variables that are captured have cells. -/
def Boxes (scope : Scope) (usages : Usages) : Prop :=
  ∀ x entry, (scope.vars.find? fun entry => entry.1 == x) = some entry → usages.isCaptured x →
    entry.2.isBoxed = true

variable {scope : Scope} {usages : Usages}

theorem Boxes.mono {fewer : Usages} (h : scope.Boxes usages)
    (hfewer : ∀ x, fewer.isCaptured x → usages.isCaptured x) : scope.Boxes fewer :=
  fun x entry hx hcaptured => h x entry hx (hfewer x hcaptured)

theorem Boxes.storage (h : scope.Boxes usages) {x : Symbol} {whole : Expr} {storage : Storage}
    (hx : scope.storage x whole = .ok storage) (hcaptured : usages.isCaptured x) : storage.isBoxed := by
  unfold Scope.storage at hx
  cases hfind : scope.vars.find? fun entry => entry.1 == x with
  | none => simp [hfind, Expr.fault] at hx
  | some entry =>
    have hboxed := h x entry hfind hcaptured
    rw [hfind] at hx
    cases hx
    exact hboxed

end Scope

/-! ## Captured variables -/

namespace Expr

theorem usagesAll_eq (es : List Expr) (m : Usages) : usagesAll es m = es.foldl (fun m e => m.union e.usages) m := by
  induction es generalizing m with
  | nil => rfl
  | cons e es ih => exact ih _

theorem usagesCases_eq (cs : List (CaseValues × Expr)) (m : Usages) :
    usagesCases cs m = cs.foldl (fun m c => m.union c.2.usages) m := by
  induction cs generalizing m with
  | nil => rfl
  | cons c cs ih => exact ih _

theorem usagesBindings_eq (bs : List (Symbol × Expr)) (m : Usages) :
    usagesBindings bs m = bs.foldl (fun m b => m.union b.2.usages) m := by
  induction bs generalizing m with
  | nil => rfl
  | cons b bs ih => exact ih _

/-- What a part captures is captured by the whole. -/
theorem isCaptured_part {e part : Expr} (hpart : part ∈ e.parts) {x : Symbol} (hx : part.usages.isCaptured x) :
    e.usages.isCaptured x := by
  cases e <;> simp only [parts, children, List.mem_cons, List.mem_append, List.mem_map, List.not_mem_nil,
    or_false] at hpart <;>
    simp only [usages, usagesAll_eq, usagesCases_eq, usagesBindings_eq, Usages.isCaptured_foldl_union,
      Usages.isCaptured_union, Usages.isCaptured_add, Bool.or_eq_true, List.any_eq_true]
  all_goals grind

end Expr

namespace Scope.Boxes

variable {scope : Scope} {usages : Usages}

theorem part {e part : Expr} (h : scope.Boxes e.usages) (hpart : part ∈ e.parts) : scope.Boxes part.usages :=
  h.mono fun _ => Expr.isCaptured_part hpart

/-- A variable bound where some variables are still to be bound over. -/
theorem bind {bound : List Symbol} {name : Symbol} {storage : Storage}
    (h : scope.Boxes (usages.without (name :: bound)))
    (hboxed : usages.isCaptured name → storage.isBoxed) : (scope.bind name storage).Boxes (usages.without bound) := by
  intro x entry hx hcaptured
  rw [Usages.isCaptured_without, Bool.and_eq_true] at hcaptured
  simp only [Scope.bind, List.find?_cons] at hx
  cases hname : name == x with
  | true =>
    rw [hname] at hx
    cases hx
    exact hboxed ((Usages.asks_congr hname).trans hcaptured.2)
  | false =>
    rw [hname] at hx
    refine h x entry hx ?_
    simp [Usages.isCaptured_without, List.contains_cons, BEq.comm, hname] at hcaptured ⊢
    exact hcaptured

end Scope.Boxes

/-! ## More declarations -/

namespace Scope

/-- The scope with later numbers and other declarations. -/
def move (n : Nat) (h : Hierarchy) (scope : Scope) : Scope := { scope.shift n with types := scope.types.widen h }

theorem storage_move (n : Nat) (h : Hierarchy) (scope : Scope) (x : Symbol) (whole : Expr) :
    (scope.move n h).storage x whole = (scope.storage x whole).map (Storage.shift n) := scope.storage_shift n x whole

theorem bind_move (n : Nat) (h : Hierarchy) (scope : Scope) (x : Symbol) (storage : Storage) :
    (scope.bind x storage).move n h = (scope.move n h).bind x (storage.shift n) := by
  simp [bind, move, shift, TypeEnv.widen, TypeEnv.bind]

end Scope

/-! ## Work that does not look at numbers -/

/-- What `Shifts` says of one supply. -/
def Shifts.At {α β : Type} (E : BuildError → Prop) (strict : Prop) (n : Nat) (f : α → β) (Q : α → Prop) (x : Lower α)
    (y : Lower β) (s : Supply) : Prop :=
  ∃ r t, x.exec s = (r, t) ∧ (strict ∨ r.isOk → y.exec (s.skip n) = (r.map f, t.skip n)) ∧
    (∀ a, r = .ok a → Q a) ∧ ∀ e, r = .error e → E e

/-- From a supply some draws later the second work gives what the first one gives, under `f`, and it fails as the
    first one fails if that is asked for. Results of the first satisfy `Q`, and its errors satisfy `E`. -/
def Shifts {α β : Type} (E : BuildError → Prop) (strict : Prop) (n : Nat) (f : α → β) (Q : α → Prop) (x : Lower α)
    (y : Lower β) : Prop :=
  ∀ s, Shifts.At E strict n f Q x y s

namespace Shifts

variable {α β γ δ : Type} {E : BuildError → Prop} {strict : Prop} {n : Nat} {f : α → β} {g : γ → δ} {Q : α → Prop}
  {R : γ → Prop}

theorem At.ok {a : α} {s t : Supply} {x : Lower α} {y : Lower β} (hx : x.exec s = (.ok a, t))
    (hy : y.exec (s.skip n) = (.ok (f a), t.skip n)) (ha : Q a) : At E strict n f Q x y s := by
  refine ⟨.ok a, t, hx, fun _ => hy, fun b hb => ?_, fun e he => by cases he⟩
  cases hb
  exact ha

theorem At.error {e : BuildError} {s t : Supply} {x : Lower α} {y : Lower β} (hx : x.exec s = (.error e, t))
    (hy : strict → y.exec (s.skip n) = (.error e, t.skip n)) (he : E e) : At E strict n f Q x y s := by
  refine ⟨.error e, t, hx, fun h => hy (h.resolve_right (by rintro ⟨⟩)), (fun b hb => by cases hb), fun e' he' => ?_⟩
  cases he'
  exact he

theorem pure {a : α} {b : β} (hb : b = f a) (hQ : Q a) : Shifts E strict n f Q (pure a) (pure b) :=
  fun _ => .ok rfl (hb ▸ rfl) hQ

theorem fail (e : BuildError) (he : E e := by rfl) : Shifts E strict n f Q (Effect.fail e) (Effect.fail e) :=
  fun _ => .error rfl (fun _ => rfl) he

theorem keeps {x y : Except BuildError α} {z : Except BuildError β} (h : Keeps strict x y) (hz : z = y.map f)
    (hE : ∀ e, x = .error e → E e) : Shifts E strict n f (fun a => x = .ok a) (liftM x) (liftM z) := by
  subst hz
  refine fun s => ⟨x, s, rfl, fun hx => ?_, fun _ ha => ha, hE⟩
  rw [h.same hx]
  rfl

theorem found {x y : Except BuildError α} (h : Keeps strict x y) (hE : ∀ e, x = .error e → E e) :
    Shifts E strict n id (fun a => x = .ok a) (liftM x) (liftM y) :=
  keeps h (congrFun Except.map_id y).symm hE

theorem bind {x : Lower α} {y : Lower β} {h : α → Lower γ} {k : β → Lower δ} (hx : Shifts E strict n f Q x y)
    (hk : ∀ a, Q a → Shifts E strict n g R (h a) (k (f a))) : Shifts E strict n g R (x >>= h) (y >>= k) := by
  intro s
  obtain ⟨r, t, hexec, hexec', hQ, hE⟩ := hx s
  cases r with
  | ok a =>
    obtain ⟨r', u, hrest, hrest', hR⟩ := hk a (hQ a rfl) t
    refine ⟨r', u, by rw [Effect.exec_bind, hexec]; exact hrest, fun hs => ?_, hR⟩
    rw [Effect.exec_bind, hexec' (.inr rfl)]
    exact hrest' hs
  | error e =>
    refine .error (t := t) (by rw [Effect.exec_bind, hexec]) (fun hs => ?_) (hE e rfl)
    rw [Effect.exec_bind, hexec' (.inl hs)]
    rfl

theorem ite {c : Prop} [Decidable c] {x x' : Lower α} {y y' : Lower β} (hx : Shifts E strict n f Q x y)
    (hx' : Shifts E strict n f Q x' y') : Shifts E strict n f Q (if c then x else x') (if c then y else y') := by
  split <;> assumption

/-- A check that may be passed more easily. -/
theorem check {c c' : Bool} {e : BuildError} {x : Lower α} {y : Lower β} (hc : c = true → c' = true)
    (hsame : strict → c' = c) (hx : Shifts E strict n f Q x y) (he : E e := by rfl) :
    Shifts E strict n f Q (if !c then Effect.fail e else x) (if !c' then Effect.fail e else y) := by
  cases c with
  | true =>
    rw [hc rfl]
    exact hx
  | false => exact fun s => .error rfl (fun hs => by rw [hsame hs]; rfl) he

theorem orderly {x : Lower α} {y : Lower β} (hx : Shifts (·.isInternal = false) strict n f Q x y) : x.Orderly := by
  intro s
  obtain ⟨r, t, hexec, -, -, horderly⟩ := hx s
  rw [hexec]
  exact horderly

end Shifts

theorem Expr.typeOf_shifts {E : BuildError → Prop} {strict : Prop} (n : Nat) {e : Expr} {large : Hierarchy}
    (hw : env.hierarchy.Widens strict large) (hE : ∀ err, e.typeOf env = .error err → E err) :
    Shifts E strict n id (fun a => e.typeOf env = .ok a) (liftM (e.typeOf env)) (liftM (e.typeOf (env.widen large))) :=
  .found (e.typeOf_keeps ⟨hw, fun _ _ => rfl⟩) hE

section Draws

variable {E : BuildError → Prop} {strict : Prop} (n : Nat)

theorem freshLabel_shifts : Shifts E strict n (Symbol.shift n) (fun _ => True) freshLabel freshLabel := by
  refine fun s => .ok (exec_freshLabel s) ?_ trivial
  rw [exec_freshLabel, Supply.skip_skip, Supply.skip_skip, Nat.add_comm]
  rfl

theorem freshLocal_shifts (x : Symbol) : Shifts E strict n (Symbol.shift n) (fun _ => True) (freshLocal x)
    (freshLocal x) := by
  refine fun s => .ok (exec_freshLocal x s) ?_ trivial
  rw [exec_freshLocal, Supply.skip_skip, Supply.skip_skip, Nat.add_comm]
  rfl

theorem freshLabels_shifts : ∀ k : Nat, Shifts E strict n (List.map (Symbol.shift n)) (fun _ => True) (freshLabels k)
    (freshLabels k)
  | 0 => .pure rfl trivial
  | k + 1 => (freshLabel_shifts n).bind fun _ _ => (freshLabels_shifts k).bind fun _ _ => .pure rfl trivial

theorem freshEnd?_shifts (tail : Bool) :
    Shifts E strict n (Option.map (Symbol.shift n)) (fun _ => True) (freshEnd? tail) (freshEnd? tail) := by
  cases tail with
  | true => exact .pure rfl trivial
  | false => exact (freshLabel_shifts n).bind fun _ _ => .pure rfl trivial

theorem dispatchTable_shift (cases : List CaseValues) (labels : List Symbol) (fallback : Symbol) :
    dispatchTable cases (labels.map (Symbol.shift n)) (fallback.shift n) =
      (dispatchTable cases labels fallback).map (Symbol.shift n) := by
  simp only [dispatchTable, List.map_map]
  refine List.map_congr_left fun v _ => ?_
  cases hcase : cases.findIdx? (·.contains (UInt32.ofNat v)) with
  | none => simp [hcase]
  | some i => cases hlabel : labels[i]? <;> simp [hcase, hlabel]

theorem dispatch_shifts (cases : List CaseValues) (wide : Bool) (labels : List Symbol) (fallback : Symbol) :
    Shifts E strict n (List.map (Instr.shift n)) (fun _ => True) (dispatch cases wide labels fallback)
      (dispatch cases wide (labels.map (Symbol.shift n)) (fallback.shift n)) := by
  unfold dispatch
  refine .ite (.pure rfl trivial) (.ite ?_ ?_)
  · refine (freshLabel_shifts n).bind fun inRange _ => .pure ?_ trivial
    simp [dispatchTable_shift, wideGuard, Instr.shift]
  · refine .pure ?_ trivial
    simp [dispatchTable_shift, Instr.shift]

end Draws

/-! ## Lowering -/

theorem captureCells_shift (n : Nat) (h : Hierarchy) {scope : Scope} {whole : Expr} : ∀ {names : List Symbol},
    (∀ x ∈ names, ∀ storage, scope.storage x whole = .ok storage → storage.isBoxed) →
    captureCells (scope.move n h) whole names =
      (captureCells scope whole names).map fun r => (r.1.map (Instr.shift n), r.2)
  | [], _ => rfl
  | x :: names, hboxed => by
    rw [List.forall_mem_cons] at hboxed
    rw [captureCells, captureCells, Scope.storage_move, captureCells_shift n h hboxed.2]
    cases hstorage : scope.storage x whole with
    | error e => rfl
    | ok storage =>
      have hbox := hboxed.1 storage hstorage
      have hfetch : storage.fetchBox = .ok storage.loadSlot := by rw [Storage.fetchBox, if_pos hbox]
      have hfetch' : (storage.shift n).fetchBox = .ok (storage.loadSlot.map (Instr.shift n)) := by
        rw [Storage.fetchBox, Storage.isBoxed_shift, if_pos hbox, Storage.loadSlot_shift]
      cases hrest : captureCells scope whole names with
      | error e =>
        simp only [Except.map, bind, Except.bind, hfetch, hfetch']
      | ok rest =>
        simp only [Except.map, bind, Except.bind, hfetch, hfetch', List.map_append, Storage.slotType,
          Storage.isBoxed_shift, Storage.type_shift]

/-- `LetBound usages scope bs inner result`: bindings lead from the scope `inner` to `result`, each with the type of
    its value and in a cell if it is captured. -/
inductive LetBound (usages : Usages) (scope : Scope) : List (Symbol × Expr) → Scope → Scope → Prop
  | nil {inner} : LetBound usages scope [] inner inner
  | cons {x value bs inner result slot type} : value.typeOf scope.types = .ok type →
      LetBound usages scope bs (inner.bind x (.slot slot type (usages.isCaptured x))) result →
      LetBound usages scope ((x, value) :: bs) inner result

theorem LetBound.boxes {usages : Usages} {scope inner result : Scope} {bs : List (Symbol × Expr)}
    (h : LetBound usages scope bs inner result) (hinner : inner.Boxes (usages.without (bs.map (·.1)))) :
    result.Boxes usages := by
  induction h with
  | nil => exact hinner
  | cons _ _ ih => exact ih (Scope.Boxes.bind hinner fun hcaptured => hcaptured)

/-- What is known of expressions in scopes hands down to what is lowered with them, and lowering them goes wrong only
    as the errors say. -/
structure Admits (options : BuildOptions) (E : BuildError → Prop) (A : Scope → Expr → Prop) : Prop where
  boxes {scope e} : A scope e → scope.Boxes e.usages
  part {scope e c} : A scope e → c ∈ e.lowered → A scope c
  body {scope inner bs body} : A scope (.letIn bs body) → LetBound body.usages scope bs scope inner → A inner body
  typeOf {scope e err} : A scope e → e.typeOf scope.types = .error err → E err
  var {scope x err} : A scope (.var x) → scope.storage x (.var x) = .error err → E err
  assign {scope x e err} : A scope (.assign x e) → scope.storage x (.assign x e) = .error err → E err
  cells {scope x ps body err} : A scope (.lambda x ps body) →
    captureCells scope (.lambda x ps body) (Expr.lambda x ps body).usages.keys = .error err → E err
  dispatch {scope value cases fallback err} : A scope (.switch value cases fallback) →
    checkDispatch options (cases.map (·.1)) = .error err → E err

/-- Where captured variables have cells, no internal error comes up. -/
theorem admits_boxes (options : BuildOptions) : Admits options (·.isInternal = false) fun scope e =>
    scope.Boxes e.usages where
  boxes h := h
  part h hc := h.part (Expr.lowered_subset_parts hc)
  body h hbound := hbound.boxes (h.mono fun x hx => by rw [Expr.usages, Usages.isCaptured_union, hx, Bool.or_true])
  typeOf _ h := Expr.typeOf_orderly _ _ _ h
  var _ h := Scope.storage_orderly _ _ _ _ h
  assign _ h := Scope.storage_orderly _ _ _ _ h
  cells _ h := captureCells_orderly _ _ _ _ h
  dispatch _ h := checkDispatch_orderly _ _ _ h

namespace Expr

variable {E : BuildError → Prop} {strict : Prop} (options : BuildOptions) (n : Nat) {large : Hierarchy}

/-- Lowering from a later supply gives the same code with later numbers. -/
abbrev Follows (E : BuildError → Prop) (strict : Prop) (x y : Lower Block) : Prop :=
  Shifts E strict n (Block.shift n) (fun _ => True) x y

theorem boxed_of_mem_keys {scope : Scope} {x : Symbol} {ps : List Param} {body : Expr}
    (h : scope.Boxes (lambda x ps body).usages) :
    ∀ y ∈ (lambda x ps body).usages.keys, ∀ storage, scope.storage y (lambda x ps body) = .ok storage →
      storage.isBoxed := by
  intro y hy storage hstorage
  refine h.storage hstorage ?_
  have hmem : y ∈ (lambda x ps body).usages := Std.TreeMap.mem_of_mem_keys hy
  rw [usages, Usages.markCaptured, Std.TreeMap.mem_map] at hmem
  rw [usages, Usages.isCaptured_markCaptured]
  exact hmem

theorem lowerSeq_cons (e next : Expr) (es : List Expr) (scope : Scope) (tail : Bool) :
    lowerSeq options (e :: next :: es) scope tail = (do
      let type ← e.typeOf scope.types
      let b ← lower options e scope false
      let rest ← lowerSeq options (next :: es) scope tail
      pure (b ++ .ofCode (if type.isVoid then [] else [.op .pop]) ++ rest)) := by
  rw [lowerSeq]
  simp

theorem lowerOperands_cons (kind : BranchKind) (decided : Symbol) (e next : Expr) (es : List Expr) (scope : Scope)
    (tail : Bool) : lowerOperands options kind decided (e :: next :: es) scope tail = (do
      let b ← lower options e scope false
      let rest ← lowerOperands options kind decided (next :: es) scope tail
      pure (b ++ .ofCode [.branch kind decided] ++ rest)) := by
  rw [lowerOperands]
  simp

variable {A : Scope → Expr → Prop}

mutual
theorem lower_shifts (hA : Admits options E A) : ∀ (e : Expr) {scope : Scope} (tail : Bool),
    scope.types.hierarchy.Widens strict large → A scope e →
    Follows n E strict (e.lower options scope tail) (e.lower options (scope.move n large) tail)
  | .literal v, scope, tail, hw, _ => by
    rw [lower, lower]
    exact .pure (by simp [(v.reads_code []).map_shift]) trivial
  | .var x, scope, tail, hw, h => by
    rw [lower, lower]
    exact (Shifts.keeps (.refl (scope.storage_orderly x _)) (scope.storage_move n large x _) fun _ => hA.var h).bind
      fun storage _ => .pure (by simp [storage.fetch_shift]) trivial
  | .assign x e, scope, tail, hw, h => by
    rw [lower, lower]
    refine (Shifts.keeps (.refl (scope.storage_orderly x _)) (scope.storage_move n large x _) fun _ => hA.assign h).bind
      fun storage _ => (lower_shifts hA e false hw (hA.part h (List.mem_singleton_self e))).bind fun b _ =>
        .pure ?_ trivial
    simp [Block.shift, storage.store_shift]
  | .seq es, scope, tail, hw, h => by
    rw [lower, lower]
    exact lowerSeq_shifts hA es tail hw fun _ he => hA.part h he
  | .and es, scope, tail, hw, h => by
    rw [lower, lower]
    exact lowerShortCircuit_shifts hA false es tail hw fun _ he => hA.part h he
  | .or es, scope, tail, hw, h => by
    rw [lower, lower]
    exact lowerShortCircuit_shifts hA true es tail hw fun _ he => hA.part h he
  | .ite c t f, scope, tail, hw, h => by
    have hc : A scope c := hA.part h (by simp [lowered, compiled, children])
    have ht : A scope t := hA.part h (by simp [lowered, compiled, children])
    have hf : A scope f := hA.part h (by simp [lowered, compiled, children])
    rw [lower, lower]
    refine (freshLabel_shifts n).bind fun _ _ => (lower_shifts hA c false hw hc).bind fun _ _ =>
      (lower_shifts hA t tail hw ht).bind fun _ _ => .ite ?_ ?_
    · exact (lower_shifts hA f true hw hf).bind fun _ _ => .pure (by simp [Instr.shift]) trivial
    · exact (freshLabel_shifts n).bind fun _ _ => (lower_shifts hA f false hw hf).bind fun _ _ =>
        .pure (by simp [Instr.shift]) trivial
  | .switch value cases fallback, scope, tail, hw, h => by
    have hvalue : A scope value := hA.part h (by simp [lowered, compiled])
    have hfallback : A scope fallback := hA.part h (by simp [lowered, compiled])
    have hcases : ∀ c ∈ cases, c.1.isEmpty = false → A scope c.2 := fun c hc hlive =>
      hA.part h (List.mem_cons_of_mem _ (List.mem_cons_of_mem _
        (List.mem_map_of_mem (List.mem_filter.mpr ⟨hc, by simp [hlive]⟩))))
    rw [lower, lower]
    refine (Shifts.found (.refl (checkDispatch_orderly _ _)) fun _ => hA.dispatch h).bind fun _ _ =>
      (typeOf_shifts n hw fun _ => hA.typeOf hvalue).bind fun _ _ =>
          (lower_shifts hA value false hw hvalue).bind fun _ _ =>
      (freshLabel_shifts n).bind fun fallbackLabel _ => (freshLabels_shifts n _).bind fun labels _ =>
      (dispatch_shifts n _ _ labels fallbackLabel).bind fun _ _ => (freshEnd?_shifts n tail).bind fun end? _ =>
      (lower_shifts hA fallback tail hw hfallback).bind fun _ _ => ?_
    have hleave : (end?.map (Symbol.shift n)).toList.map (Instr.branch .always) =
        (end?.toList.map (Instr.branch .always)).map (Instr.shift n) := by
      cases end? <;> rfl
    rw [hleave]
    refine (lowerCases_shifts hA cases labels _ tail hw hcases).bind fun _ _ => .pure ?_ trivial
    cases end? <;> simp [Instr.shift]
  | .letIn bs body, scope, tail, hw, h => by
    have hvalues : ∀ b ∈ bs, A scope b.2 := fun b hb => hA.part h (List.mem_map_of_mem hb)
    rw [lower, lower]
    exact (lowerBindings_shifts hA body.usages bs hw hw hvalues).bind fun r hr =>
      (lower_shifts hA body tail hr.1 (hA.body h hr.2)).bind fun _ _ => .pure (by simp) trivial
  | .lambda x ps body, scope, tail, hw, h => by
    have hcells := captureCells_shift n large (boxed_of_mem_keys (hA.boxes h))
    rw [lower, lower]
    refine (typeOf_shifts n hw fun _ => hA.typeOf h).bind fun _ _ =>
      (Shifts.keeps (.refl (captureCells_orderly _ _ _)) hcells fun _ => hA.cells h).bind fun _ _ => ?_
    exact .pure (by simp [Instr.shift]) trivial
  | .invoke function args, scope, tail, hw, h => by
    have hfunction : A scope function := hA.part h (by simp [lowered, compiled, children])
    rw [lower, lower]
    exact (typeOf_shifts n hw fun _ => hA.typeOf hfunction).bind fun _ _ =>
        (lower_shifts hA function false hw hfunction).bind fun _ _ =>
      (lowerAll_shifts hA args hw fun _ he => hA.part h (List.mem_cons_of_mem _ he)).bind fun _ _ =>
        .pure (by simp [Instr.shift]) trivial
  | .binary op l r, scope, tail, hw, h => by
    have hl : A scope l := hA.part h (by simp [lowered, compiled, children])
    have hr : A scope r := hA.part h (by simp [lowered, compiled, children])
    rw [lower, lower]
    exact (typeOf_shifts n hw fun _ => hA.typeOf hl).bind fun type _ => (lower_shifts hA l false hw hl).bind fun _ _ =>
      (lower_shifts hA r false hw hr).bind fun _ _ => .pure
        (by simp [(op.reads_code [] type.primitive?).map_shift]) trivial
  | .unary op e, scope, tail, hw, h => by
    have he : A scope e := hA.part h (List.mem_singleton_self e)
    rw [lower, lower]
    exact (typeOf_shifts n hw fun _ => hA.typeOf he).bind fun type _ => (lower_shifts hA e false hw he).bind fun _ _ =>
      .pure (by simp [(op.reads_code [] type.primitive?).map_shift]) trivial
  | .getField target field, scope, tail, hw, h => by
    rw [lower, lower]
    exact (lower_shifts hA target false hw (hA.part h (List.mem_singleton_self _))).bind fun _ _ =>
      .pure (by simp [Instr.shift]) trivial
  | .getStatic field, scope, tail, hw, _ => by
    rw [lower, lower]
    exact .pure (by simp [Instr.shift]) trivial
  | .setField target field value, scope, tail, hw, h => by
    have htarget : A scope target := hA.part h (by simp [lowered, compiled, children])
    have hvalue : A scope value := hA.part h (by simp [lowered, compiled, children])
    rw [lower, lower]
    exact (lower_shifts hA target false hw htarget).bind fun _ _ =>
        (lower_shifts hA value false hw hvalue).bind fun _ _ =>
      .pure (by simp [Instr.shift]) trivial
  | .setStatic field value, scope, tail, hw, h => by
    rw [lower, lower]
    exact (lower_shifts hA value false hw (hA.part h (List.mem_singleton_self _))).bind fun _ _ =>
      .pure (by simp [Instr.shift]) trivial
  | .new ctor args, scope, tail, hw, h | .callStatic method args, scope, tail, hw, h => by
    rw [lower, lower]
    exact (lowerAll_shifts hA args hw fun _ he => hA.part h he).bind fun _ _ => .pure (by simp [Instr.shift]) trivial
  | .call target method args, scope, tail, hw, h => by
    have htarget : A scope target := hA.part h (by simp [lowered, compiled, children])
    rw [lower, lower]
    exact (lower_shifts hA target false hw htarget).bind fun _ _ =>
      (lowerAll_shifts hA args hw fun _ he => hA.part h (List.mem_cons_of_mem _ he)).bind fun _ _ =>
        .pure (by simp [Instr.shift]) trivial

theorem lowerAll_shifts (hA : Admits options E A) : ∀ (es : List Expr) {scope : Scope},
    scope.types.hierarchy.Widens strict large → (∀ e ∈ es, A scope e) →
    Follows n E strict (lowerAll options es scope) (lowerAll options es (scope.move n large))
  | [], _, _, _ => by rw [lowerAll, lowerAll]; exact .pure rfl trivial
  | e :: es, scope, hw, h => by
    rw [List.forall_mem_cons] at h
    rw [lowerAll, lowerAll]
    exact (lower_shifts hA e false hw h.1).bind fun _ _ => (lowerAll_shifts hA es hw h.2).bind fun _ _ =>
      .pure (by simp) trivial

theorem lowerSeq_shifts (hA : Admits options E A) : ∀ (es : List Expr) {scope : Scope} (tail : Bool),
    scope.types.hierarchy.Widens strict large → (∀ e ∈ es, A scope e) →
    Follows n E strict (lowerSeq options es scope tail) (lowerSeq options es (scope.move n large) tail)
  | [], _, _, _, _ => by rw [lowerSeq, lowerSeq]; exact .pure (by simp) trivial
  | [e], scope, tail, hw, h => by
    rw [lowerSeq, lowerSeq]
    exact lower_shifts hA e tail hw (h e (List.mem_singleton_self e))
  | e :: next :: es, scope, tail, hw, h => by
    rw [List.forall_mem_cons] at h
    rw [lowerSeq_cons, lowerSeq_cons]
    refine (typeOf_shifts n hw fun _ => hA.typeOf h.1).bind fun type _ =>
        (lower_shifts hA e false hw h.1).bind fun _ _ =>
      (lowerSeq_shifts hA (next :: es) tail hw h.2).bind fun _ _ => .pure ?_ trivial
    by_cases hvoid : type.isVoid = true <;> simp [hvoid, Instr.shift]

theorem lowerShortCircuit_shifts (hA : Admits options E A) (isOr : Bool) :
    ∀ (es : List Expr) {scope : Scope} (tail : Bool),
    scope.types.hierarchy.Widens strict large → (∀ e ∈ es, A scope e) →
    Follows n E strict (lowerShortCircuit options isOr es scope tail)
      (lowerShortCircuit options isOr es (scope.move n large) tail)
  | [], _, _, _, _ => by
    rw [lowerShortCircuit, lowerShortCircuit]
    exact .pure (by simp [Instr.shift]) trivial
  | [e], scope, tail, hw, h => by
    rw [lowerShortCircuit, lowerShortCircuit]
    exact lower_shifts hA e tail hw (h e (List.mem_singleton_self e))
  | e :: next :: es, scope, tail, hw, h => by
    rw [List.forall_mem_cons] at h
    rw [lowerShortCircuit, lowerShortCircuit]
    · refine (freshLabel_shifts n).bind fun decided _ => (lower_shifts hA e false hw h.1).bind fun _ _ =>
        (lowerOperands_shifts hA _ decided (next :: es) tail hw h.2).bind fun _ _ => .ite ?_ ?_
      · exact .pure (by simp [Instr.shift]) trivial
      · exact (freshLabel_shifts n).bind fun _ _ => .pure (by simp [Instr.shift]) trivial
    · simp
    · simp

theorem lowerOperands_shifts (hA : Admits options E A) (kind : BranchKind) (decided : Symbol) :
    ∀ (es : List Expr) {scope : Scope} (tail : Bool),
    scope.types.hierarchy.Widens strict large → (∀ e ∈ es, A scope e) →
    Follows n E strict (lowerOperands options kind decided es scope tail)
      (lowerOperands options kind (decided.shift n) es (scope.move n large) tail)
  | [], _, _, _, _ => by rw [lowerOperands, lowerOperands]; exact .pure rfl trivial
  | [e], scope, tail, hw, h => by
    rw [lowerOperands, lowerOperands]
    exact lower_shifts hA e tail hw (h e (List.mem_singleton_self e))
  | e :: next :: es, scope, tail, hw, h => by
    rw [List.forall_mem_cons] at h
    rw [lowerOperands_cons, lowerOperands_cons]
    exact (lower_shifts hA e false hw h.1).bind fun _ _ =>
        (lowerOperands_shifts hA kind decided (next :: es) tail hw h.2).bind fun _ _ =>
      .pure (by simp [Instr.shift]) trivial

theorem lowerCases_shifts (hA : Admits options E A) : ∀ (cs : List (CaseValues × Expr)) (labels : List Symbol)
    (leave : List Instr) {scope : Scope}
    (tail : Bool), scope.types.hierarchy.Widens strict large → (∀ c ∈ cs, c.1.isEmpty = false → A scope c.2) →
    Follows n E strict (lowerCases options cs labels leave scope tail)
      (lowerCases options cs (labels.map (Symbol.shift n)) (leave.map (Instr.shift n)) (scope.move n large) tail)
  | [], _, _, _, _, _, _ => by rw [lowerCases, lowerCases]; exact .pure rfl trivial
  | _ :: _, [], _, _, _, _, _ => by
    rw [List.map_nil, lowerCases, lowerCases]
    · exact .pure rfl trivial
    · simp
    · simp
  | (values, e) :: cs, label :: labels, leave, scope, tail, hw, h => by
    rw [List.forall_mem_cons] at h
    rw [List.map_cons, lowerCases, lowerCases]
    cases hempty : values.isEmpty with
    | true => exact lowerCases_shifts hA cs labels leave tail hw h.2
    | false =>
      exact (lower_shifts hA e tail hw (h.1 hempty)).bind fun _ _ =>
          (lowerCases_shifts hA cs labels leave tail hw h.2).bind fun _ _ =>
        .pure (by simp [Instr.shift]) trivial

theorem lowerBindings_shifts (hA : Admits options E A) (usages : Usages) :
    ∀ (bs : List (Symbol × Expr)) {scope inner : Scope},
    scope.types.hierarchy.Widens strict large → inner.types.hierarchy.Widens strict large → (∀ b ∈ bs, A scope b.2) →
    Shifts E strict n (fun r : Block × Scope => (r.1.shift n, r.2.move n large))
      (fun r => r.2.types.hierarchy.Widens strict large ∧ LetBound usages scope bs inner r.2)
      (lowerBindings options usages bs scope inner) (lowerBindings options usages bs (scope.move n large)
        (inner.move n large))
  | [], _, _, _, hw', _ => by rw [lowerBindings, lowerBindings]; exact .pure rfl ⟨hw', .nil⟩
  | (x, value) :: bs, scope, inner, hw, hw', h => by
    rw [List.forall_mem_cons] at h
    rw [lowerBindings, lowerBindings]
    refine (typeOf_shifts n hw fun _ => hA.typeOf h.1).bind fun type htype => (freshLocal_shifts n x).bind fun slot _ =>
      (lower_shifts hA value false hw h.1).bind fun b _ => ?_
    refine (lowerBindings_shifts hA usages bs hw (by exact hw') h.2).bind fun r hr => .pure ?_ ⟨hr.1, .cons htype hr.2⟩
    by_cases hboxed : usages.isCaptured x = true <;> simp [hboxed, Instr.shift]
end

end Expr

/-! ## Bodies -/

section Bodies

variable {strict : Prop} (n : Nat) {large : Hierarchy} {usages : Usages}

/-- A scope that is entered, with later numbers and other declarations. -/
abbrev Enters.move (large : Hierarchy) (r : Block × Scope) : Block × Scope := (r.1.shift n, r.2.move n large)

theorem Scope.Boxes.bindLast {scope : Scope} {name : Symbol} {storage : Storage} (h : scope.Boxes usages)
    (hboxed : usages.isCaptured name → storage.isBoxed) : (scope.bind name storage).Boxes usages := by
  have hnone : scope.Boxes (usages.without [name]) := h.mono fun x hx => by
    rw [Usages.isCaptured_without, Bool.and_eq_true] at hx
    exact hx.2
  exact Scope.Boxes.bind hnone hboxed

theorem enterParams_shifts : ∀ (index : Nat) (params : List Param) {scope : Scope}, scope.Boxes usages →
    Shifts (·.isInternal = false) strict n (Enters.move n large) (fun r => r.2.types.hierarchy = scope.types.hierarchy ∧
      r.2.Boxes usages)
      (enterParams usages index params scope) (enterParams usages index params (scope.move n large))
  | _, [], _, h => .pure rfl ⟨rfl, h⟩
  | index, p :: params, scope, h => by
    rw [enterParams, enterParams]
    refine .ite (.fail _) ?_
    by_cases hcaptured : usages.isCaptured p.name = true
    · rw [if_pos hcaptured, if_pos hcaptured]
      refine (freshLocal_shifts n p.name).bind fun slot _ => ?_
      have hbound : (scope.bind p.name (.slot slot p.type true)).Boxes usages := h.bindLast fun _ => rfl
      refine (enterParams_shifts (index + 1) params hbound).bind fun r hr => .pure ?_ hr
      rw [Enters.move, Block.shift_append]
      rfl
    · rw [if_neg hcaptured, if_neg hcaptured]
      exact enterParams_shifts (index + 1) params (h.bindLast fun hx => absurd hx hcaptured)

theorem enterCaptures_shift {receiver : Storage} : ∀ {captures : List Capture} {scope : Scope},
    enterCaptures table (receiver.shift n) captures (scope.move n large) =
      (enterCaptures table receiver captures scope).map (Scope.move n large)
  | [], _ => rfl
  | c :: captures, scope => by
    rw [enterCaptures, enterCaptures]
    cases c.field.info table with
    | error e => rfl
    | ok info =>
      simp only [bind, Except.bind]
      split
      · rw [← enterCaptures_shift, Scope.bind_move]
        rfl
      · rfl

theorem enterCaptures_keeps {small : Hierarchy} (hw : small.Widens strict large) (receiver : Storage) :
    ∀ (captures : List Capture) (scope : Scope),
      Keeps strict (enterCaptures small.table receiver captures scope)
        (enterCaptures large.table receiver captures scope)
  | [], _ => .ok _
  | c :: captures, _ =>
    (hw.fieldInfo c.field).bind fun _ => .ite (enterCaptures_keeps hw receiver captures _) (.refl (.type _ _))

theorem enterCaptures_boxes {receiver : Storage} : ∀ {captures : List Capture} {scope inner : Scope},
    enterCaptures table receiver captures scope = .ok inner → scope.Boxes usages →
      inner.types.hierarchy = scope.types.hierarchy ∧ inner.Boxes usages
  | [], _, _, h, hscope => by
    cases h
    exact ⟨rfl, hscope⟩
  | c :: captures, scope, inner, h, hscope => by
    obtain ⟨info, -, h⟩ := except_bind_ok.mp h
    split at h
    · have hinner := enterCaptures_boxes h (hscope.bindLast fun _ => rfl)
      exact hinner
    · cases h

namespace Body

variable (b : Body) {small : Hierarchy} (hw : small.Widens strict large) (options : BuildOptions)

include hw

theorem enter_shifts (usages : Usages) : Shifts (·.isInternal = false) strict n (Enters.move n large)
    (fun r => r.2.types.hierarchy = small ∧ r.2.Boxes usages) (b.enter small usages) (b.enter large usages) := by
  have hempty : Scope.Boxes { types := { hierarchy := small } } usages := fun x entry hx => by cases hx
  unfold enter
  refine (enterParams_shifts n 0 b.params hempty).bind fun r hr => .ite (.pure rfl hr) ?_
  cases b.params with
  | nil => exact .fail _
  | cons receiver params =>
    refine (Shifts.keeps (.refl (r.2.storage_orderly _ _)) (r.2.storage_move n large receiver.name b.body)
      (r.2.storage_orderly _ _)).bind fun storage _ => ?_
    refine (Shifts.keeps (enterCaptures_keeps hw storage _ _) (enterCaptures_shift n)
      (enterCaptures_keeps hw storage _ _).orderly).bind fun scope hscope => .pure rfl ?_
    obtain ⟨hsame, hboxes⟩ := enterCaptures_boxes hscope hr.2
    exact ⟨hsame.trans hr.1, hboxes⟩

theorem compileMethod_shifts (returnType : TypeRef) :
    Expr.Follows n (·.isInternal = false) strict (b.compileMethod small options returnType)
      (b.compileMethod large options returnType) := by
  refine (enter_shifts n b hw b.body.usages).bind fun r hr => ?_
  have hscope : r.2.types.hierarchy.Widens strict large := hr.1.symm ▸ hw
  refine (Expr.typeOf_shifts n hscope (Expr.typeOf_orderly _ _)).bind fun type _ =>
    .ite ?_ (.check hw.extend.isAssignable (fun hs => by rw [hw.same hs]; rfl) ?_)
  · exact (b.body.lower_shifts options n (admits_boxes options) false hscope hr.2).bind fun _ _ =>
      .pure (by simp [Instr.shift]) trivial
  · exact (b.body.lower_shifts options n (admits_boxes options) true hscope hr.2).bind fun _ _ =>
      .pure (by simp) trivial

theorem checkBaseArgs_keeps (henv : env.hierarchy = small) : ∀ (params : List TypeRef) (args : List Expr),
    Keeps strict (checkBaseArgs small env params args) (checkBaseArgs large (env.widen large) params args)
  | param :: params, arg :: args => by
    have hagree : env.Agree strict (env.widen large) arg.Uses := ⟨henv.symm ▸ hw, fun _ _ => rfl⟩
    rw [checkBaseArgs, checkBaseArgs]
    exact (arg.typeOf_keeps hagree).bind fun _ => .assignable hw (checkBaseArgs_keeps henv params args)
  | [], _ | _ :: _, [] => .ok _

theorem compileConstructor_shifts (base : BaseCall) :
    Expr.Follows n (·.isInternal = false) strict (b.compileConstructor small options base)
      (b.compileConstructor large options base) := by
  unfold compileConstructor
  cases b.params with
  | nil => exact .fail _
  | cons this params =>
    refine (enter_shifts n b hw _).bind fun r hr => ?_
    have hscope : r.2.types.hierarchy.Widens strict large := hr.1.symm ▸ hw
    have hbody : r.2.Boxes b.body.usages := hr.2.mono fun x hx => by
      rw [Usages.isCaptured_foldl_union, hx, Bool.true_or]
    have hargs : ∀ e ∈ base.args, r.2.Boxes e.usages := fun e he => hr.2.mono fun x hx => by
      rw [Usages.isCaptured_foldl_union, Bool.or_eq_true]
      exact .inr (List.any_eq_true.mpr ⟨e, he, hx⟩)
    refine (Shifts.found (hw.checkDeclared base.ctor) (hw.checkDeclared _).orderly).bind fun _ _ => .ite (.fail _) ?_
    refine (Shifts.found (checkBaseArgs_keeps hw hr.1 _ _) (checkBaseArgs_keeps hw hr.1 _ _).orderly).bind fun _ _ =>
      (Expr.typeOf_shifts n hscope (Expr.typeOf_orderly _ _)).bind fun type _ =>
      (Shifts.keeps (.refl (r.2.storage_orderly _ _)) (r.2.storage_move n large this.name b.body)
        (r.2.storage_orderly _ _)).bind fun storage _ =>
      (Expr.lowerAll_shifts options n (admits_boxes options) base.args hscope hargs).bind fun _ _ =>
      (b.body.lower_shifts options n (admits_boxes options) false hscope hbody).bind fun _ _ => .pure ?_ trivial
    by_cases hvoid : type.isVoid = true <;> simp [hvoid, Instr.shift, storage.fetch_shift]

end Body

end Bodies

end Stackwright
