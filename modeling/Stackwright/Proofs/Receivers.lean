import Stackwright.Proofs.ClosureAgreement
import Stackwright.Proofs.Parts

/-
  Stackwright.Proofs.Receivers — the way to a captured variable.

  The method of a closure finds the cell of a captured variable in a field of its receiver. The receiver is a
  parameter with a name like any other, so a parameter of the lambda can take that name (`parameter_hides_receiver`).
-/

namespace Stackwright

variable {options : BuildOptions} {x : Symbol} {scope place : Scope} {storage : Storage} {s t : Supply} {b : Block}
  {e e' : Expr}

/-! ## Where a variable is found -/

theorem Scope.find?_bind (scope : Scope) (x y : Symbol) (storage : Storage) :
    (scope.bind x storage).find? y = if (x == y) = true then some storage else scope.find? y := by
  unfold find? bind
  rw [List.find?_cons]
  split
  · rename_i hx
    rw [if_pos hx]
    rfl
  · rename_i hx
    rw [if_neg (by simp [hx])]

theorem Enters.find?_of_other {usages : Usages} {index : Nat} {params : List Param} {inner : Scope}
    (h : Enters usages index params scope s b inner t) (hx : ∀ p ∈ params, (p.name == x) = false) :
    inner.find? x = scope.find? x := by
  induction h with
  | nil => rfl
  | cell _ _ _ ih | plain _ _ _ ih =>
    rw [List.forall_mem_cons] at hx
    rw [ih hx.2, Scope.find?_bind, if_neg (by simp [hx.1])]

theorem enterCaptures_other {table : Table} {receiver : Storage} : ∀ {captures : List Capture} {scope inner : Scope},
    enterCaptures table receiver captures scope = .ok inner → (∀ c ∈ captures, (c.name == x) = false) →
      inner.find? x = scope.find? x
  | [], scope, inner, h, _ => by
    cases h
    rfl
  | c :: captures, scope, inner, h, hx => by
    rw [enterCaptures] at h
    obtain ⟨info, -, h⟩ := except_bind_ok.mp h
    rw [List.forall_mem_cons] at hx
    split at h
    · rw [enterCaptures_other h hx.2, Scope.find?_bind, if_neg (by simp [hx.1])]
    · cases h

/-- Captured variables are found in fields of the receiver. -/
theorem enterCaptures_find? {table : Table} {receiver : Storage} : ∀ {captures : List Capture} {scope inner : Scope},
    enterCaptures table receiver captures scope = .ok inner →
      captures.Pairwise (fun c d => (d.name == c.name) = false) →
      ∀ c ∈ captures, inner.find? c.name = some (.field receiver c.field c.type true)
  | [], _, _, _, _, _, hc => by cases hc
  | c :: captures, scope, inner, h, hdistinct, c', hc' => by
    rw [enterCaptures] at h
    obtain ⟨info, -, h⟩ := except_bind_ok.mp h
    obtain ⟨hfirst, hrest⟩ := List.pairwise_cons.mp hdistinct
    split at h
    · rcases List.mem_cons.mp hc' with rfl | hmem
      · rw [enterCaptures_other h hfirst, Scope.find?_bind, if_pos BEq.rfl]
      · exact enterCaptures_find? h hrest c' hmem
    · cases h

/-- Captured variables are different variables. -/
theorem Lambda.distinct_captures {l : Lambda} {captures : List (Symbol × TypeRef)}
    (h : List.Forall₂ (fun x c => (x == c.1)) l.expr.usages.keys captures) :
    captures.Pairwise fun x y => (y.1 == x.1) = false := by
  refine forall₂_pairwise h Std.TreeMap.distinct_keys fun x _ x' _ hne y y' hy hy' => ?_
  rw [Bool.eq_false_iff]
  intro hsame
  have hxx' : (x == x') := BEq.trans hy (BEq.trans (BEq.symm hsame) (BEq.symm hy'))
  exact hne (beq_iff_eq.mp hxx')

/-! ## Uses of a captured variable -/

namespace Expr

/-- Lowering the expression in the scope lowers `e'` in `place`, and the variable is not bound again on the way. -/
inductive LoweredAt (x : Symbol) : Expr → Scope → Expr → Scope → Prop
  | self (e : Expr) (scope : Scope) : LoweredAt x e scope e scope
  | part {e c scope e' place} : c ∈ e.lowered → LoweredAt x c scope e' place → LoweredAt x e scope e' place
  | letBody {bs body scope inner e' place} : LetBound body.usages scope bs scope inner →
      (∀ y ∈ bs.map (·.1), (y == x) = false) → LoweredAt x body inner e' place →
        LoweredAt x (.letIn bs body) scope e' place

/-- In the code of an expression that uses the variable, the variable is read from the cell that is pushed by the code
    `cell`, or written to it, or a lambda is given the cell. -/
def UsesCell (options : BuildOptions) (place : Scope) (x : Symbol) (cell : List Instr) (type : TypeRef)
    (code : List Instr) :
    Expr → Prop
  | .var y => y == x → ∃ tail, code = cell ++ [.typeOp .loadCell type] ++ retIf tail
  | .assign y value => y == x → ∃ v tail, IsLowered options place value v ∧
      code = cell ++ v.code ++ [.typeOp .storeCell type] ++ retIf tail
  | .lambda z ps body => ∃ pushes object delegate method tail,
      List.Forall₂ (fun y push => y == x → push = cell) (lambda z ps body).usages.keys pushes ∧
      code = pushes.flatten ++ [.newObject object, .newDelegate delegate method] ++ retIf tail
  | _ => True

end Expr

theorem LetBound.find?_of_other {usages : Usages} {bs : List (Symbol × Expr)} {inner result : Scope}
    (h : LetBound usages scope bs inner result) (hx : ∀ y ∈ bs.map (·.1), (y == x) = false) :
    result.find? x = inner.find? x := by
  induction h with
  | nil => rfl
  | cons _ _ ih =>
    rw [List.map_cons, List.forall_mem_cons] at hx
    rw [ih hx.2, Scope.find?_bind, if_neg (by simp [hx.1])]

theorem Expr.LoweredAt.find? (h : e.LoweredAt x scope e' place) : place.find? x = scope.find? x := by
  induction h with
  | self => rfl
  | part _ _ ih => exact ih
  | letBody hbs hother _ ih => rw [ih, hbs.find?_of_other hother]

theorem Lowers.letBound {usages : Usages} {bs : List (Symbol × Expr)} {inner result : Scope}
    (h : Lowers options (.bindings usages bs inner result) scope s b t) : LetBound usages scope bs inner result := by
  induction bs generalizing inner s b with
  | nil =>
    cases h
    exact .nil
  | cons _ _ ih =>
    cases h with
    | bindingsCons htype hboxed _ hrest => exact .cons htype (hboxed ▸ ih hrest)

/-- Where lowering gets to in one scope it gets to in any other, and the code it makes there is a piece of the whole. -/
theorem Expr.LoweredAt.piece (h : e.LoweredAt x scope e' place) {start : Scope} (he : IsLowered options start e b) :
    ∃ spot piece, e.LoweredAt x start e' spot ∧ IsLowered options spot e' piece ∧ piece.code <:+: b.code := by
  induction h generalizing start b with
  | self => exact ⟨start, b, .self _ _, he, List.infix_rfl⟩
  | part hc _ ih =>
    obtain ⟨part, hpart, hinfix⟩ := he.part hc
    obtain ⟨spot, piece, hat, hpiece, hin⟩ := ih hpart
    exact ⟨spot, piece, .part hc hat, hpiece, hin.trans hinfix⟩
  | letBody _ hother _ ih =>
    obtain ⟨tail, s, t, he⟩ := he
    cases he with
    | letIn hbs hbody =>
      obtain ⟨spot, piece, hat, hpiece, hin⟩ := ih ⟨_, _, _, hbody⟩
      exact ⟨spot, piece, .letBody hbs.letBound hother hat, hpiece, hin.trans (List.suffix_append ..).isInfix⟩

/-- A variable that is kept in a cell is used through that cell. -/
theorem IsLowered.usesCell (h : IsLowered options place e b) (hx : place.find? x = some storage)
    (hboxed : storage.isBoxed) :
    e.UsesCell options place x storage.loadSlot storage.type b.code := by
  have hsame {y : Symbol} {whole : Expr} {other : Storage} (hy : y == x) (hother : place.storage y whole = .ok other) :
      other = storage := by
    have hfind := Scope.find?_eq_of_storage hother
    rw [Scope.find?_congr hy, hx] at hfind
    exact (Option.some.inj hfind).symm
  obtain ⟨tail, s, t, h⟩ := h
  cases h with
  | var hother =>
    intro hy
    obtain rfl := hsame hy hother
    exact ⟨tail, by simp [Storage.fetch, Storage.cellLoad, hboxed]⟩
  | @assign _ _ _ _ _ _ v _ hother hv =>
    intro hy
    obtain rfl := hsame hy hother
    exact ⟨v, tail, ⟨_, _, _, hv⟩, by simp [Storage.store, Storage.beforeStore, Storage.afterStore, hboxed]⟩
  | lambda _ hcells =>
    obtain ⟨storages, hstorages, rfl, -⟩ := forall₂_of_captureCells hcells
    rw [List.flatMap_def]
    refine ⟨storages.map Storage.loadSlot, _, _, _, tail, ?_, rfl⟩
    exact List.forall₂_map_right_iff.mpr (hstorages.imp fun y other hother hy => congrArg _ (hsame hy hother.1))
  | _ => trivial

/-- In the method of a closure, every use of a captured variable goes through the variable's field of the first
    argument, wherever lowering the body gets to, when no parameter of the lambda has the receiver's name and no
    lambda inside uses a variable of that name. What is made for such a place is a piece of the method's code. -/
theorem ClosureLayout.captures_go_through_receiver {l : Lambda} {types : TypeEnv} {layout : ClosureLayout}
    {h : Hierarchy} (hlayout : l.layout types = .ok layout)
    (hc : (layout.invokeBody.compileMethod h options layout.returnType).exec s = (.ok b, t))
    (hparams : ∀ p ∈ l.params, (p.name == receiver) = false) (hbody : l.body.usages.isCaptured receiver = false) :
    ∃ start inner s₁ code, (layout.invokeBody.enter h l.body.usages).exec s = (.ok (start, inner), s₁) ∧
      IsLowered options inner l.body code ∧ start.code ++ code.code <+: b.code ∧
      ∀ x ∈ layout.captures, ∀ e place, l.body.LoweredAt x.1 inner e place →
        (∃ spot piece, l.body.LoweredAt x.1 inner e spot ∧ IsLowered options spot e piece ∧ piece.code <:+: code.code) ∧
        ∀ b, IsLowered options place e b →
          e.UsesCell options place x.1 [.loadArg 0, .loadField (.deferred (layout.field x.1))] x.2 b.code := by
  have hl := Lambda.of_layout hlayout
  obtain ⟨start, inner, s₁, type, code, henter, -, hcode⟩ := Body.of_compileMethod hc
  obtain ⟨hlowered, hb⟩ : IsLowered options inner layout.body code ∧ start.code ++ code.code <+: b.code := by
    rcases hcode with ⟨-, -, hcode, rfl⟩ | ⟨-, -, hcode, rfl⟩
    · exact ⟨⟨_, _, _, hcode⟩, List.prefix_append ..⟩
    · exact ⟨⟨_, _, _, hcode⟩, List.prefix_refl _⟩
  rw [← hl.body]
  refine ⟨start, inner, s₁, code, henter, hlowered, hb, fun x hx e place hat => ⟨hat.piece hlowered, fun b hb => ?_⟩⟩
  have hdistinct := l.distinct_captures (hl.captures.imp fun x c hc => hc.1 ▸ BEq.rfl)
  obtain ⟨outer, henters, hcaptures⟩ := Body.of_enter henter
  have hreceiver : outer.find? receiver = some (.argument 0 (.deferred layout.key)) := by
    cases henters with
    | cell _ hcaptured =>
      rw [← hl.body] at hbody
      cases hbody.symm.trans hcaptured
    | plain _ _ hrest =>
      rw [hrest.find?_of_other (hl.params ▸ hparams), Scope.find?_bind, if_pos BEq.rfl]
      rfl
  have hfind : inner.find? x.1 = some (.field (.argument 0 (.deferred layout.key))
      (.deferred (layout.field x.1)) x.2 true) := by
    rcases hcaptures with ⟨hnone, -⟩ | ⟨this, params, storage, hthis, hstorage, hcaptures⟩
    · rw [List.map_eq_nil_iff.mp hnone] at hx
      cases hx
    · cases hthis
      cases hreceiver.symm.trans (Scope.find?_eq_of_storage hstorage)
      exact enterCaptures_find? hcaptures (List.pairwise_map.mpr hdistinct) _ (List.mem_map_of_mem hx)
  exact hb.usesCell (hat.find?.trans hfind) rfl

/-- A lambda with one parameter that returns the variable `x`. -/
def readsCaptured (param : Symbol) : Lambda := ⟨.named "f", [⟨param, .i32⟩], .var (.named "x")⟩

namespace readsCaptured

/-- Around the lambda `x` is a number. -/
def types : TypeEnv := { hierarchy := { table := ∅, catalog := ∅ }, vars := [(.named "x", .i32)] }

def layout (param : Symbol) : ClosureLayout :=
  { key := closureKey (.named "f"), captures := [(.named "x", .i32)], params := [⟨param, .i32⟩], returnType := .i32
    body := .var (.named "x") }

/-- What the closure declares, as far as its method needs it. -/
def hierarchy : Hierarchy :=
  { table := (∅ : Table).insert (.field ((closureKey (.named "f")).field "x")) (.field ⟨{}, .cell .i32⟩), catalog := ∅ }

/-- The code of the closure's method, when the receiver is found in the given argument. -/
def block (argument : UInt16) : Block :=
  .ofCode [.loadArg argument, .loadField (.deferred ((closureKey (.named "f")).field "x")),
    .typeOp .loadCell .i32, .op .ret]

/-- With another name for the parameter, `x` is read through the first argument. -/
theorem reads_through_receiver :
    ((layout (.named "n")).invokeBody.compileMethod hierarchy {} .i32).exec {} = (.ok (block 0), {}) ∧
    ∃ scope code, IsLowered {} scope (.var (.named "x")) code ∧ code.code <:+: (block 0).code ∧
      ∃ tail, code.code = [.loadArg 0, .loadField (.deferred ((closureKey (.named "f")).field "x")),
        .typeOp .loadCell .i32] ++
        retIf tail := by
  have hlayout : (readsCaptured (.named "n")).layout types = .ok (layout (.named "n")) := rfl
  have hc : ((layout (.named "n")).invokeBody.compileMethod hierarchy {} .i32).exec {} = (.ok (block 0), {}) := rfl
  obtain ⟨start, inner, -, code, -, hlowered, hb, huses⟩ :=
    ClosureLayout.captures_go_through_receiver hlayout hc (by decide +kernel) (by decide +kernel)
  refine ⟨hc, inner, code, hlowered, (List.suffix_append ..).isInfix.trans hb.isInfix, ?_⟩
  exact (huses _ List.mem_cons_self _ _ (.self _ _)).2 code hlowered BEq.rfl

/-- A parameter with the receiver's name is taken for the receiver: `x` is read through the second argument. -/
theorem parameter_hides_receiver :
    (readsCaptured ClosureLayout.receiver).layout types = .ok (layout ClosureLayout.receiver) ∧
    ((layout ClosureLayout.receiver).invokeBody.compileMethod hierarchy {} .i32).exec {} = (.ok (block 1), {}) :=
      ⟨rfl, rfl⟩

end readsCaptured

end Stackwright
