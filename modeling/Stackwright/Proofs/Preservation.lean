import Stackwright.Proofs.Agreement
import Stackwright.Proofs.Conversions
import Stackwright.Proofs.Dispatch
import Stackwright.Proofs.Typed

/-
  Stackwright.Proofs.Preservation — lowered code computes what the expression means.

  `Preserves` says it for each piece of work, wherever its code stands in a body: from a frame that
  agrees with the variables, the code runs to its end with the value on top of the stack, and the
  variables changed as evaluation changes them; or it faults where evaluation divides by zero. In
  tail position the end is a return. What code may change besides is bounded by `Spares`: only
  variables in scope and locals drawn on the way.
-/

namespace Stackwright

open Machine

variable {f : Frame} {stack : List Value} {v : Block} {decided x : Symbol} {e : Expr} {r : Datum × Env} {es : List Expr}
  {isOr : Bool} {op : UnaryOp} {values : CaseValues} {cs : List (CaseValues × Expr)} {bs : List (Symbol × Expr)}
variable {pc : Nat} {storage : Storage} {type : TypeRef} {g : Frame} {done : Nat → Prop} {d : Datum} {next : Expr}
  {rest : Block} {labels : List Symbol} {inner : Scope}
variable {a c : Supply} {last : Nat} {cb fb : Block} {claims : List CaseValues}

/-- The end of some code: in tail position the next operation returns, otherwise control has
    reached the position after the code. -/
def Done (L : Layout) (tail : Bool) (last pc : Nat) : Prop := if tail then L.At pc (.op .ret) else pc = last

theorem done_retIf {L : Layout} {tail : Bool} (h : L.Holds pc (retIf tail)) :
    Done L tail (pc + extent (retIf tail)) pc := by
  cases tail with
  | true => exact h.1
  | false => rfl

/-- A frame that has the value of an expression on top of the stack. -/
inductive Delivered (L : Layout) (base : Frame) (scope : Scope) (s t : Supply) (type : TypeRef) (f : Frame)
    (stack : List Value) (done : Nat → Prop) : Datum × Env → Frame → Prop
  | intro {d env g pc} : done pc → d.Fits type → Agrees L base scope env g → Spares L scope s t f g →
      Delivered L base scope s t type f stack done (d, env) (g.moved pc (d.push stack))

/-- Code that leaves a construct for its end, unless the construct is in tail position. -/
def Layout.Exits (L : Layout) (tail : Bool) (leave : List Instr) (last : Nat) : Prop :=
  if tail then leave = [] else ∃ x, leave = [.branch .always x] ∧ L.Placed x last

/-- The variable lives in a local drawn from `s` up to `t`. -/
def Storage.IsDrawn (s t : Supply) (storage : Storage) : Prop :=
  ∃ n hint type, storage = .slot (.generated n hint) type false ∧ s.next ≤ n ∧ n < t.next

theorem Storage.IsDrawn.widen {s s' t t' : Supply} (h : storage.IsDrawn s t) (hs : s'.next ≤ s.next)
    (ht : t.next ≤ t'.next) :
    storage.IsDrawn s' t' := by
  obtain ⟨n, hint, type, hstorage, hn, hn'⟩ := h
  exact ⟨n, hint, type, hstorage, by omega, by omega⟩

section Preserves

variable (reach : Reach) (L : Layout) (p : Program) (base : Frame)

/-- The code of a piece of work, wherever it stands, yields what the evaluation gives. -/
def Preserves : Work → Scope → Supply → Block → Supply → Prop
  | .expr e tail, scope, s, b, t => e.isPlain → ∀ type, e.typeOf scope.types = .ok type →
      ∀ pc env f stack, L.Hosts pc b → Laid L s scope → Agrees L base scope env f →
        Yields p (f.moved pc stack)
          (Delivered L base scope s t type f stack (Done L tail (pc + extent b.code))) (e.meaning reach env)
  | .seq es tail, scope, s, b, t => Expr.allPlain es → ∀ last type, (es = [] → last = .void) →
      Expr.typeOfLast es scope.types last = .ok type →
      ∀ pc env f stack, L.Hosts pc b → Laid L s scope → Agrees L base scope env f →
        Yields p (f.moved pc stack)
          (Delivered L base scope s t type f stack (Done L tail (pc + extent b.code))) (Expr.meaningSeq reach es env)
  | .shortCircuit isOr es tail, scope, s, b, t => Expr.allPlain es → ∀ whole,
      Expr.checkBools whole es scope.types = .ok () →
      ∀ pc env f stack, L.Hosts pc b → Laid L s scope → Agrees L base scope env f →
        Yields p (f.moved pc stack)
          (Delivered L base scope s t .bool f stack (Done L tail (pc + extent b.code)))
            (Expr.meaningShort reach isOr es env)
  | .operands kind decided es tail, scope, s, b, t => Expr.allPlain es = true → es ≠ [] → ∀ isOr whole,
      kind = decidingBranch isOr → Expr.checkBools whole es scope.types = .ok () →
      ∀ pc env f stack target, L.Hosts pc b → L.Placed decided target → Laid L s scope → Agrees L base scope env f →
        Yields p (f.moved pc stack)
          (fun r g => Delivered L base scope s t .bool f stack (Done L tail (pc + extent b.code)) r g ∨
            r.1 = .bool isOr ∧ ∃ f', g = f'.moved target stack ∧ Agrees L base scope r.2 f' ∧ Spares L scope s t f f')
          (Expr.meaningShort reach isOr es env)
  | .cases cs labels leave tail, scope, s, b, t => Expr.casesPlain cs → labels.length = cs.length →
      ∀ whole type, Expr.checkCases whole type cs scope.types = .ok () →
      ∀ pc last env f stack v outcome, L.Hosts pc b → L.Exits tail leave last → Laid L s scope →
        Agrees L base scope env f → Expr.meaningCases reach v cs env = some outcome →
        ∃ x target, chosenLabel? v (cs.map (·.1)) labels = some x ∧ L.Placed x target ∧
          Yields p (f.moved target stack) (Delivered L base scope s t type f stack (Done L tail last)) outcome
  | .bindings usages bs inner result, scope, s, b, t => Expr.bindingsPlain bs →
      (∀ x, usages.isCaptured x = false) → ∀ whole seen types,
      Expr.typeBindings whole seen bs scope.types inner.types = .ok types →
      result.types = types ∧ ∃ newer, result.vars = newer ++ inner.vars ∧ (∀ y ∈ newer, y.2.IsDrawn s t) ∧
      ∀ new pc prev env f stack, inner.vars = new ++ scope.vars → prev.length = new.length → L.Hosts pc b →
        Laid L s scope → Laid L s inner → Agrees L base inner (prev ++ env) f →
        Yields p (f.moved pc stack)
          (fun r g => newer.length = r.1.length ∧ Laid L t result ∧
            ∃ f', g = f'.moved (pc + extent b.code) stack ∧ Agrees L base result (r.1 ++ prev ++ r.2) f' ∧
              Spares L scope s t f f')
          (Expr.meaningBindings reach bs env)
  | .all _, _, _, _, _ => True

variable {reach L p base} {options : BuildOptions} {scope : Scope} {s s₁ s₂ s₃ t : Supply} {b : Block} {tail : Bool}

theorem Delivered.of_value {env : Env} (hd : d ≠ .void) (hdone : done pc) (hfits : d.Fits type)
    (hagrees : Agrees L base scope env g) (hspares : Spares L scope s t f g) :
    Delivered L base scope s t type f stack done (d, env) (g.moved pc (d.value :: stack)) := by
  rw [← Datum.push_eq hd]
  exact .intro hdone hfits hagrees hspares

/-! ## Leaves -/

theorem preserves_literal (hL : L.Carries base) {v : Literal} :
    Preserves reach L p base (.expr (.literal v) tail) scope s (.ofCode (v.code ++ retIf tail)) s := by
  intro hfirst type htype pc env f stack hosts hlaid hagrees
  obtain ⟨hcode, hret⟩ := Layout.holds_append.mp hosts.holds
  rw [Expr.isPlain] at hfirst
  obtain ⟨d, hd⟩ := Option.isSome_iff_exists.mp hfirst
  obtain ⟨g, hrun, hvoid, hfits, rfl⟩ := (Literal.computes_result hlaid.primitives hd htype).yields p stack
    (hagrees.code hL.code) hcode
  rw [Expr.meaning, hd]
  refine ⟨_, hrun, .of_value hvoid ?_ hfits hagrees .refl⟩
  rw [Block.ofCode_code, extent_append, ← Nat.add_assoc]
  exact done_retIf hret

theorem preserves_var (hL : L.Carries base) (hx : scope.storage x (.var x) = .ok storage) :
    Preserves reach L p base (.expr (.var x) tail) scope s (.ofCode (storage.fetch ++ retIf tail)) s := by
  intro hfirst type htype pc env f stack hosts hlaid hagrees
  obtain ⟨hcode, hret⟩ := Layout.holds_append.mp hosts.holds
  obtain ⟨d, place, hd, hvoid, hfits, hplace, hread⟩ := hagrees.lookup hx
  rw [Expr.typeOf, hlaid.lookup hx] at htype
  cases htype
  rw [Expr.meaning, hd]
  refine ⟨_, Layout.runs_fetch (hagrees.code hL.code) hplace hread hcode, .of_value hvoid ?_ hfits hagrees .refl⟩
  rw [Block.ofCode_code, extent_append, ← Nat.add_assoc]
  exact done_retIf hret

/-- A plain storage needs nothing below the value that is stored. -/
theorem Layout.beforeStore_eq_nil {place : Place} (h : L.place? storage = some place) : storage.beforeStore = [] := by
  cases storage with
  | argument => rfl
  | slot name type boxed =>
    cases boxed with
    | true => cases h
    | false => rfl
  | field => cases h

theorem extent_afterStore (storage : Storage) : extent [storage.afterStore] = 1 := by
  unfold Storage.afterStore
  split
  · rfl
  · cases storage <;> rfl

theorem Layout.holds_afterStore (storage : Storage) : L.Holds pc [storage.afterStore] ↔ L.At pc storage.afterStore := by
  unfold Storage.afterStore
  split
  · exact and_iff_left trivial
  · cases storage <;> exact and_iff_left trivial

theorem preserves_assign (hL : L.Carries base) (hx : scope.storage x (.assign x e) = .ok storage)
    (ih : Preserves reach L p base (.expr e false) scope s v t) :
    Preserves reach L p base (.expr (.assign x e) tail) scope s
      { v with code := storage.store v.code ++ retIf tail } t := by
  intro hfirst type htype pc env f stack hosts hlaid hagrees
  obtain ⟨d₀, place, -, hd₀, hfits₀, hplace, -⟩ := hagrees.lookup hx
  have hstored : storage.store v.code = v.code ++ [storage.afterStore] := by
    rw [Storage.store, Layout.beforeStore_eq_nil hplace, List.nil_append]
  obtain ⟨hstore, hret⟩ := Layout.holds_append.mp hosts.holds
  rw [hstored] at hstore
  obtain ⟨hvalue, hat⟩ := Layout.holds_append.mp hstore
  rw [Layout.holds_afterStore] at hat
  have hextent : extent (storage.store v.code) = extent v.code + 1 := by
    rw [hstored, extent_append, extent_afterStore]
  rw [hextent, ← Nat.add_assoc] at hret
  rw [Expr.typeOf, hlaid.lookup hx] at htype
  obtain ⟨source, hsource, htype⟩ := except_bind_ok.mp htype
  split at htype
  · rename_i hassign
    cases htype
    refine (ih hfirst source hsource pc env f stack ⟨hvalue, hosts.slots⟩ hlaid hagrees).bind ?_
    rintro _ _ ⟨rfl, hfits, hagrees', hspares⟩
    have hfits' := hfits.of_isAssignable hlaid.primitives hassign
    have hd : _ ≠ Datum.void := fun e => hd₀ (hfits₀.isVoid_iff.mp (hfits'.isVoid_iff.mpr e))
    obtain ⟨env', place', old, henv', hplace', hread, hwritten, hspares'⟩ := hagrees'.update hlaid hx hfits' hd
    cases hplace.symm.trans hplace'
    rw [Datum.push_eq hd]
    simp only [henv']
    refine ⟨_, (Layout.next_store (hagrees'.code hL.code) hplace hread hat).runs,
      .intro ?_ rfl hwritten (hspares.comp hspares')⟩
    rw [extent_append, hextent, ← Nat.add_assoc, ← Nat.add_assoc]
    exact done_retIf hret
  · cases htype

/-! ## Sequences -/

theorem preserves_seqNil : Preserves reach L p base (.seq [] tail) scope s (.ofCode (retIf tail)) s := by
  intro hfirst last type hlast htype pc env f stack hosts hlaid hagrees
  rw [Expr.typeOfLast, hlast rfl] at htype
  cases htype
  rw [Expr.meaningSeq]
  exact ⟨_, .refl, .intro (done_retIf hosts.holds) rfl hagrees .refl⟩

theorem preserves_seqLast (ih : Preserves reach L p base (.expr e tail) scope s b t) :
    Preserves reach L p base (.seq [e] tail) scope s b t := by
  intro hfirst last type hlast htype pc env f stack hosts hlaid hagrees
  rw [Expr.allPlain, Expr.allPlain, Bool.and_true] at hfirst
  rw [Expr.typeOfLast] at htype
  obtain ⟨type', htype', htype⟩ := except_bind_ok.mp htype
  cases htype
  rw [Expr.meaningSeq]
  exact ih hfirst type htype' pc env f stack hosts hlaid hagrees

theorem Delivered.widen (h : Delivered L base scope a c type f stack done r g) (ha : s.next ≤ a.next)
    (hc : c.next ≤ t.next)
    : Delivered L base scope s t type f stack done r g := by
  obtain ⟨hdone, hfits, hagrees, hspares⟩ := h
  exact .intro hdone hfits hagrees (hspares.widen ha hc)

/-- What comes later is said about the frame at the start. -/
theorem Delivered.after {d : Supply} {g' : Frame} (h : Delivered L base scope c d type g stack done r g')
    (hspares : Spares L scope a s₁ f g) (ha : s.next ≤ a.next ∧ s₁.next ≤ t.next)
    (hc : s.next ≤ c.next ∧ d.next ≤ t.next) :
    Delivered L base scope s t type f stack done r g' := by
  obtain ⟨hdone, hfits, hagrees, hspares'⟩ := h
  exact .intro hdone hfits hagrees ((hspares.widen ha.1 ha.2).comp (hspares'.widen hc.1 hc.2))

/-- Dropping a value, if there is one. -/
theorem Layout.runs_drop (hfits : d.Fits type) (hcode : f.code = L.code)
    (hholds : L.Holds pc (if type.isVoid then [] else [.op .pop])) :
    Runs p (f.moved pc (d.push stack)) (f.moved (pc + extent (if type.isVoid then [] else [.op .pop])) stack) := by
  by_cases hvoid : type.isVoid = true
  · cases hfits.isVoid_iff.mp hvoid
    rw [if_pos hvoid]
    exact .refl
  · rw [Datum.push_eq fun e => hvoid (hfits.isVoid_iff.mpr e)]
    rw [if_neg hvoid] at hholds ⊢
    exact (next_pop hcode hholds.1).runs

theorem preserves_seqCons (hL : L.Carries base) (htype : e.typeOf scope.types = .ok type) (hs : s.next ≤ s₁.next)
    (ht : s₁.next ≤ t.next) (ihe : Preserves reach L p base (.expr e false) scope s b s₁)
    (ihrest : Preserves reach L p base (.seq (next :: es) tail) scope s₁ rest t) :
    Preserves reach L p base (.seq (e :: next :: es) tail) scope s
      (b ++ .ofCode (if type.isVoid then [] else [.op .pop]) ++ rest) t := by
  intro hfirst last type' hlast htype' pc env f stack hosts hlaid hagrees
  rw [Expr.allPlain, Bool.and_eq_true] at hfirst
  rw [Expr.typeOfLast, htype] at htype'
  obtain ⟨hosts, hrest⟩ := Layout.hosts_append.mp hosts
  obtain ⟨hb, hpop⟩ := Layout.hosts_append.mp hosts
  simp only [Block.append_code, Block.ofCode_code, extent_append, ← Nat.add_assoc] at hrest ⊢
  rw [Expr.meaningSeq]
  · refine (ihe hfirst.1 type htype pc env f stack hb hlaid hagrees).bind ?_
    rintro _ _ ⟨rfl, hfits, hagrees', hspares⟩
    refine Yields.after (Layout.runs_drop hfits (hagrees'.code hL.code) hpop.holds)
      ((ihrest hfirst.2 type type' (fun h => absurd h (List.cons_ne_nil _ _)) htype' _ _ _ stack hrest
        (hlaid.mono hs) hagrees').mono ?_)
    exact fun _ _ h => h.after hspares ⟨Nat.le_refl _, ht⟩ ⟨hs, Nat.le_refl _⟩
  · exact List.cons_ne_nil _ _

/-! ## Conditions -/

theorem Layout.exits_leaveTo (h : L.Holds last (endMark tail s)) : L.Exits tail (leaveTo tail s) last := by
  cases tail with
  | true => rfl
  | false => exact ⟨s.label, rfl, h.1⟩

theorem extent_endMark (tail : Bool) (s : Supply) : extent (endMark tail s) = 0 := by
  cases tail <;> rfl

/-- A part of a construct is left for the construct's end. -/
theorem Delivered.leave {mid : Nat} {leave : List Instr}
    (h : Delivered L base scope s t type f stack (Done L tail mid) r g)
    (hL : L.Carries base) (hexits : L.Exits tail leave last) (hholds : L.Holds mid leave) (p : Program) :
    ∃ g', Runs p g g' ∧ Delivered L base scope s t type f stack (Done L tail last) r g' := by
  cases tail with
  | true => exact ⟨g, .refl, h⟩
  | false =>
    obtain ⟨x, rfl, hplaced⟩ := hexits
    obtain ⟨rfl, hfits, hagrees, hspares⟩ := h
    exact ⟨_, (Layout.next_branch (hagrees.code hL.code) hholds.1 hplaced).runs, .intro rfl hfits hagrees hspares⟩

theorem preserves_ite (hL : L.Carries base) {c e₁ e₂ : Expr} {tb : Block} (hs : (s.skip 1).next ≤ s₁.next)
    (hs₁ : s₁.next ≤ s₂.next) (hs₂ : (afterEnd tail s₂).next ≤ t.next)
    (ihc : Preserves reach L p base (.expr c false) scope (s.skip 1) cb s₁)
    (iht : Preserves reach L p base (.expr e₁ tail) scope s₁ tb s₂)
    (ihf : Preserves reach L p base (.expr e₂ tail) scope (afterEnd tail s₂) fb t) :
    Preserves reach L p base (.expr (.ite c e₁ e₂) tail) scope s
      (cb ++ .ofCode [.branch .false s.label] ++ tb ++ .ofCode (leaveTo tail s₂ ++ [.label s.label]) ++ fb ++
        .ofCode (endMark tail s₂)) t := by
  intro hfirst type htype pc env f stack hosts hlaid hagrees
  have hskip := s.le_skip 1
  have hafter := le_afterEnd tail s₂
  simp only [Expr.isPlain, Bool.and_eq_true] at hfirst
  obtain ⟨hc, ht, hf⟩ := Expr.typeOf_ite htype
  simp only [Layout.hosts_append, Block.append_code, Block.ofCode_code, extent_append, extent_endMark, Nat.add_zero,
    ← Nat.add_assoc] at hosts ⊢
  obtain ⟨⟨⟨⟨⟨hcond, hbranch⟩, hthen⟩, hmid⟩, helse⟩, hend⟩ := hosts
  obtain ⟨hleave, helseLabel, -⟩ := Layout.holds_append.mp hmid.holds
  have hbranch : L.At _ (.branch (decidingBranch false) s.label) := hbranch.holds.1
  rw [Expr.meaning]
  refine (ihc hfirst.1.1 _ hc pc env f stack hcond (hlaid.mono hskip) hagrees).bind ?_
  rintro _ _ @⟨d, env', g, _, rfl, hfits, hagrees', hspares⟩
  obtain ⟨c, rfl⟩ := hfits.eq_bool
  refine .after (Layout.next_branchIf (hagrees'.code hL.code) hbranch helseLabel c).runs ?_
  cases c with
  | true =>
    have hyields := iht hfirst.1.2 type ht _ env' g stack hthen (hlaid.mono (by omega)) hagrees'
    refine hyields.onward fun _ _ h => Delivered.leave ?_ hL (Layout.exits_leaveTo hend.holds) hleave p
    exact h.after hspares ⟨hskip, by omega⟩ ⟨by omega, by omega⟩
  | false =>
    have hyields := ihf hfirst.2 type hf _ env' g stack helse (hlaid.mono (by omega)) hagrees'
    refine hyields.mono fun _ _ h => ?_
    exact h.after hspares ⟨hskip, by omega⟩ ⟨by omega, by omega⟩

/-! ## Short circuits -/

theorem preserves_shortNil (hL : L.Carries base) :
    Preserves reach L p base (.shortCircuit isOr [] tail) scope s (.ofCode (.loadI32 1 :: retIf tail)) s := by
  intro hfirst whole hbools pc env f stack hosts hlaid hagrees
  obtain ⟨hload, hret⟩ := hosts.holds
  rw [Expr.meaningShort]
  have hnext : Next p (f.moved pc stack) (f.moved (pc + 1) ((Datum.bool true).value :: stack)) :=
    Layout.exec_calc (hagrees.code hL.code) hload .i32
  refine ⟨_, hnext.runs, .of_value nofun ?_ rfl hagrees .refl⟩
  show Done L tail (pc + (extent (retIf tail) + 1)) (pc + 1)
  rw [Nat.add_comm _ 1, ← Nat.add_assoc]
  exact done_retIf hret

theorem preserves_shortLast (ih : Preserves reach L p base (.expr e tail) scope s b t) :
    Preserves reach L p base (.shortCircuit isOr [e] tail) scope s b t := by
  intro hfirst whole hbools pc env f stack hosts hlaid hagrees
  rw [Expr.allPlain, Expr.allPlain, Bool.and_true] at hfirst
  rw [Expr.meaningShort]
  exact ih hfirst .bool (Expr.checkBools_cons hbools).1 pc env f stack hosts hlaid hagrees

theorem preserves_operandsLast {kind : BranchKind} (ih : Preserves reach L p base (.expr e tail) scope s b t) :
    Preserves reach L p base (.operands kind decided [e] tail) scope s b t := by
  intro hfirst _ isOr whole hkind hbools pc env f stack target hosts hdecided hlaid hagrees
  rw [Expr.allPlain, Expr.allPlain, Bool.and_true] at hfirst
  rw [Expr.meaningShort]
  exact (ih hfirst .bool (Expr.checkBools_cons hbools).1 pc env f stack hosts hlaid hagrees).mono fun _ _ => .inl

theorem preserves_operandsCons (hL : L.Carries base) {kind : BranchKind} (hs : s.next ≤ s₁.next) (ht : s₁.next ≤ t.next)
    (ihe : Preserves reach L p base (.expr e false) scope s b s₁)
    (ihrest : Preserves reach L p base (.operands kind decided (next :: es) tail) scope s₁ rest t) :
    Preserves reach L p base (.operands kind decided (e :: next :: es) tail) scope s
      (b ++ .ofCode [.branch kind decided] ++ rest) t := by
  intro hfirst _ isOr whole hkind hbools pc env f stack target hosts hdecided hlaid hagrees
  rw [Expr.allPlain, Bool.and_eq_true] at hfirst
  obtain ⟨he, hrestBools⟩ := Expr.checkBools_cons hbools
  simp only [Layout.hosts_append, Block.append_code, Block.ofCode_code, extent_append, ← Nat.add_assoc] at hosts ⊢
  obtain ⟨⟨hb, hbranch⟩, hrest⟩ := hosts
  subst hkind
  rw [Expr.meaningShort]
  · refine (ihe hfirst.1 .bool he pc env f stack hb hlaid hagrees).bind ?_
    rintro _ _ @⟨d, env', g, _, rfl, hfits, hagrees', hspares⟩
    obtain ⟨c, rfl⟩ := hfits.eq_bool
    refine .after (Layout.next_branchIf (hagrees'.code hL.code) hbranch.holds.1 hdecided c).runs ?_
    by_cases hc : c = isOr
    · subst hc
      simp only [BEq.rfl, if_true]
      exact ⟨_, .refl, .inr ⟨rfl, g, rfl, hagrees', hspares.widen (Nat.le_refl _) ht⟩⟩
    · simp only [beq_iff_eq, hc, if_false]
      have hyields := ihrest hfirst.2 nofun isOr whole rfl hrestBools _ env' g stack target hrest hdecided
        (hlaid.mono hs) hagrees'
      refine hyields.mono fun _ _ h => ?_
      rcases h with h | ⟨hr, f', rfl, hagrees'', hspares'⟩
      · exact .inl (h.after hspares ⟨Nat.le_refl _, ht⟩ ⟨hs, Nat.le_refl _⟩)
      · exact .inr ⟨hr, f', rfl, hagrees'', hspares.trans hs ht hspares'⟩
  · nofun

theorem preserves_shortCons (hL : L.Carries base) (hs : (s.skip 1).next ≤ s₁.next) (ht : s₁.next ≤ t.next)
    (ihe : Preserves reach L p base (.expr e false) scope (s.skip 1) b s₁)
    (ihrest : Preserves reach L p base (.operands (decidingBranch isOr) s.label (next :: es) tail) scope s₁ rest t) :
    Preserves reach L p base (.shortCircuit isOr (e :: next :: es) tail) scope s
      (b ++ .ofCode [.branch (decidingBranch isOr) s.label] ++ rest ++
        .ofCode (leaveTo tail t ++ [.label s.label, .loadI32 (if isOr then 1 else 0)] ++ retIf tail ++ endMark tail t))
      (afterEnd tail t) := by
  intro hfirst whole hbools pc env f stack hosts hlaid hagrees
  -- Up to the label, the construct is one more operand.
  have hoperands := preserves_operandsCons hL hs ht ihe ihrest hfirst nofun isOr whole rfl hbools
  obtain ⟨hosts, hlast⟩ := Layout.hosts_append.mp hosts
  obtain ⟨hdecision, hend⟩ := Layout.holds_append.mp hlast.holds
  obtain ⟨hdecision, hret⟩ := Layout.holds_append.mp hdecision
  obtain ⟨hleave, hlabel, hload, -⟩ := Layout.holds_append.mp hdecision
  have hskip := s.le_skip 1
  have hafter := le_afterEnd tail t
  have hyields := hoperands pc env f stack _ hosts hlabel (hlaid.mono hskip) hagrees
  simp only [extent_append, ← Nat.add_assoc] at hret hend
  rw [Block.append_code, Block.ofCode_code]
  simp only [extent_append, extent_endMark, Nat.add_zero, ← Nat.add_assoc]
  refine hyields.onward fun r g h => ?_
  rcases h with h | ⟨hr, f', rfl, hagrees', hspares⟩
  · exact (h.widen hskip hafter).leave hL (Layout.exits_leaveTo hend) hleave p
  · obtain ⟨d, env'⟩ := r
    cases hr
    have hnext : Next p (f'.moved _ stack) (f'.moved _ ((Datum.bool isOr).value :: stack)) :=
      Layout.exec_calc (hagrees'.code hL.code) hload .i32
    exact ⟨_, hnext.runs, .of_value nofun (done_retIf hret) rfl hagrees' (hspares.widen hskip hafter)⟩

/-! ## Operations -/

theorem Datum.Fits.ne_void (h : d.Fits type) (htype : type ≠ .void) : d ≠ .void :=
  fun e => htype (by subst e; exact h)

theorem Expr.binaryType?_nonvoid {h : Hierarchy} {op : BinaryOp} {left right : TypeRef}
    (ht : binaryType? h op left right = some type) : left ≠ .void ∧ right ≠ .void := by
  have hleft : left ≠ .void := by
    rintro rfl
    rw [binaryType?_void] at ht
    cases ht
  refine ⟨hleft, ?_⟩
  rintro rfl
  cases hop : op.isShift with
  | true => cases (binaryType?_shift hop ht).2.1
  | false => exact hleft (binaryType?_same hop ht).1.symm

theorem Expr.unaryType?_nonvoid {operand : TypeRef} (ht : unaryType? op operand = some type) : operand ≠ .void := by
  rintro rfl
  cases op <;> simp [unaryType?, TypeRef.isPrimitiveWith, TypeRef.primitive?, Primitive.isNumeric, Primitive.isInteger,
    Primitive.isSigned, Primitive.isUnsigned, Primitive.isFloat] at ht

theorem preserves_binary (hL : L.Carries base) {op : BinaryOp} {left right : Expr} {l r : Block}
    (htype : left.typeOf scope.types = .ok type) (hs : s.next ≤ s₁.next) (ht : s₁.next ≤ t.next)
    (ihl : Preserves reach L p base (.expr left false) scope s l s₁)
    (ihr : Preserves reach L p base (.expr right false) scope s₁ r t) :
    Preserves reach L p base (.expr (.binary op left right) tail) scope s
      (l ++ r ++ .ofCode (op.code type.primitive? ++ retIf tail)) t := by
  intro hfirst whole hwhole pc env f stack hosts hlaid hagrees
  rw [Expr.isPlain, Bool.and_eq_true] at hfirst
  obtain ⟨_, rtype, hl, hr, hop⟩ := Expr.typeOf_binary hwhole
  cases htype.symm.trans hl
  obtain ⟨hleft, hright⟩ := Expr.binaryType?_nonvoid hop
  simp only [Layout.hosts_append, Block.append_code, Block.ofCode_code, extent_append, ← Nat.add_assoc] at hosts ⊢
  obtain ⟨⟨hlb, hrb⟩, hcode⟩ := hosts
  obtain ⟨hcode, hret⟩ := Layout.holds_append.mp hcode.holds
  rw [Expr.meaning]
  refine (ihl hfirst.1 type hl pc env f stack hlb hlaid hagrees).bind ?_
  rintro _ _ @⟨a, env₁, g₁, _, rfl, hafits, hagrees₁, hspares₁⟩
  rw [Datum.push_eq (hafits.ne_void hleft)]
  refine (ihr hfirst.2 rtype hr _ env₁ g₁ _ hrb (hlaid.mono hs) hagrees₁).bind ?_
  rintro _ _ @⟨b, env₂, g₂, _, rfl, hbfits, hagrees₂, hspares₂⟩
  rw [Datum.push_eq (hbfits.ne_void hright)]
  refine ((BinaryOp.computes hafits hbfits hop).yields p stack (hagrees₂.code hL.code) hcode).bind ?_
  rintro d _ ⟨hd, hfits, rfl⟩
  exact ⟨_, .refl, .of_value hd (done_retIf hret) hfits hagrees₂ (hspares₁.trans hs ht hspares₂)⟩

theorem preserves_unary (hL : L.Carries base) {operand : Expr} (htype : operand.typeOf scope.types = .ok type)
    (ih : Preserves reach L p base (.expr operand false) scope s v t) :
    Preserves reach L p base (.expr (.unary op operand) tail) scope s
      (v ++ .ofCode (op.code type.primitive? ++ retIf tail)) t := by
  intro hfirst whole hwhole pc env f stack hosts hlaid hagrees
  rw [Expr.isPlain, Bool.and_eq_true] at hfirst
  obtain ⟨_, ho, hop⟩ := Expr.typeOf_unary hwhole
  cases htype.symm.trans ho
  simp only [Layout.hosts_append, Block.append_code, Block.ofCode_code, extent_append, ← Nat.add_assoc] at hosts ⊢
  obtain ⟨hv, hcode⟩ := hosts
  obtain ⟨hcode, hret⟩ := Layout.holds_append.mp hcode.holds
  rw [Expr.meaning]
  refine (ih hfirst.2 type ho pc env f stack hv hlaid hagrees).bind ?_
  rintro _ _ @⟨a, env₁, g₁, _, rfl, hafits, hagrees₁, hspares₁⟩
  rw [Datum.push_eq (hafits.ne_void (Expr.unaryType?_nonvoid hop))]
  refine ((UnaryOp.computes hfirst.1 hafits hop).yields p stack (hagrees₁.code hL.code) hcode).bind ?_
  rintro d _ ⟨hd, hfits, rfl⟩
  exact ⟨_, .refl, .of_value hd (done_retIf hret) hfits hagrees₁ hspares₁⟩

/-! ## Switches -/

theorem preserves_casesDropped {label : Symbol} {leave : List Instr} (hempty : values.isEmpty)
    (ih : Preserves reach L p base (.cases cs labels leave tail) scope s b t) :
    Preserves reach L p base (.cases ((values, e) :: cs) (label :: labels) leave tail) scope s b t := by
  intro hfirst hlength whole type hcases pc last env f stack v outcome hosts hexits hlaid hagrees heval
  have hclaims : values.claims v = false := by
    rw [← Bool.not_eq_true, CaseValues.claims_iff]
    rintro ⟨u, hu, -⟩
    exact Std.TreeSet.not_mem_of_isEmpty hempty hu
  rw [Expr.casesPlain, Bool.and_eq_true] at hfirst
  rw [Expr.meaningCases, hclaims] at heval
  rw [List.map_cons, chosenLabel?, hclaims]
  exact ih hfirst.2 (Nat.succ.inj hlength) whole type (Expr.checkCases_cons hcases).2 pc last env f stack
    v outcome hosts
    hexits hlaid hagrees heval

theorem preserves_casesCons (hL : L.Carries base) {label : Symbol} {leave : List Instr} (hs : s.next ≤ s₁.next)
    (ht : s₁.next ≤ t.next) (ihe : Preserves reach L p base (.expr e tail) scope s b s₁)
    (ihrest : Preserves reach L p base (.cases cs labels leave tail) scope s₁ rest t) :
    Preserves reach L p base (.cases ((values, e) :: cs) (label :: labels) leave tail) scope s
      (.ofCode [.label label] ++ b ++ .ofCode leave ++ rest) t := by
  intro hfirst hlength whole type hcases pc last env f stack v outcome hosts hexits hlaid hagrees heval
  rw [Expr.casesPlain, Bool.and_eq_true] at hfirst
  obtain ⟨he, hcs⟩ := Expr.checkCases_cons hcases
  simp only [Layout.hosts_append, Block.append_code, extent_append, ← Nat.add_assoc] at hosts
  obtain ⟨⟨⟨hlabel, hb⟩, hleave⟩, hrest⟩ := hosts
  rw [Expr.meaningCases] at heval
  rw [List.map_cons, chosenLabel?]
  split at heval
  · rename_i hclaims
    cases heval
    rw [if_pos hclaims]
    refine ⟨label, pc, rfl, hlabel.holds.1, ?_⟩
    have hyields := ihe hfirst.1 type he _ env f stack hb hlaid hagrees
    exact hyields.onward fun _ _ h => (h.widen (Nat.le_refl _) ht).leave hL hexits hleave.holds p
  · rename_i hclaims
    rw [if_neg hclaims]
    obtain ⟨x, target, hx, hplaced, hyields⟩ := ihrest hfirst.2 (Nat.succ.inj hlength) whole type hcs _
      last env f stack v
      outcome hrest hexits (hlaid.mono hs) hagrees heval
    exact ⟨x, target, hx, hplaced, hyields.mono fun _ _ h => h.widen hs (Nat.le_refl _)⟩

theorem chosenLabel?_eq_none {v : Int} : ∀ {cs : List (CaseValues × Expr)} (labels : List Symbol) {env : Env},
    Expr.meaningCases reach v cs env = none → chosenLabel? v (cs.map (·.1)) labels = none
  | [], labels, env, _ => by cases labels <;> rfl
  | (values, e) :: cs, [], env, _ => rfl
  | (values, e) :: cs, label :: labels, env, h => by
    rw [Expr.meaningCases] at h
    rw [List.map_cons, chosenLabel?]
    split at h
    · cases h
    · rename_i hclaims
      rw [if_neg hclaims]
      exact chosenLabel?_eq_none labels h

theorem tableSize_le_of_checkDispatch {options : BuildOptions} (h : checkDispatch options claims = .ok ())
    : tableSize claims ≤ options.maxSwitchCases := by
  unfold checkDispatch at h
  split at h
  · cases h
  · split at h
    · cases h
    · rename_i hsize
      exact Nat.not_lt.mp hsize

/-- What a table can lead to is chosen, and what else is chosen is not in the table. -/
def Reach.Suits (reach : Reach) (limit : Nat) : Prop :=
  ∀ size ≤ limit, ∀ v, (bounded size v → reach size v) ∧
    (bounded size v = false → reach size v → 0 ≤ v → size ≤ v)

theorem preserves_switch (hL : L.Carries base) (hreach : reach.Suits options.maxSwitchCases) {value other : Expr}
    {dispatch : List Instr} {s₂ s₅ : Supply} (hclaims : claims = cs.map (·.1)) (hlabels : labels.length = cs.length)
    (hcheck : checkDispatch options claims = .ok ()) (htype : value.typeOf scope.types = .ok type)
    (hdispatch : dispatch = dispatchCode (tableSize claims) (isWide type)
      (dispatchTable claims labels s₁.label) s₁.label s₂)
    (hs : s.next ≤ s₁.next) (hs₁ : s₁.next ≤ s₃.next) (hs₃ : (afterEnd tail s₃).next ≤ s₅.next) (ht : s₅.next ≤ t.next)
    (ihv : Preserves reach L p base (.expr value false) scope s v s₁)
    (ihf : Preserves reach L p base (.expr other tail) scope (afterEnd tail s₃) fb s₅)
    (ihc : Preserves reach L p base (.cases cs labels (leaveTo tail s₃) tail) scope s₅ cb t) :
    Preserves reach L p base (.expr (.switch value cs other) tail) scope s
      (v ++ .ofCode (dispatch ++ [.label s₁.label]) ++ fb ++ .ofCode (leaveTo tail s₃) ++ cb ++
        .ofCode (endMark tail s₃)) t := by
  intro hfirst whole hwhole pc env f stack hosts hlaid hagrees
  simp only [Expr.isPlain, Bool.and_eq_true] at hfirst
  obtain ⟨⟨_, hselector, hswitchable⟩, hother, hcases⟩ := Expr.typeOf_switch hwhole
  cases htype.symm.trans hselector
  obtain ⟨q, rfl, hq⟩ := TypeRef.eq_primitive hswitchable
  have hint : q.isInteger := by
    cases q <;> first | rfl | contradiction
  have hreach := hreach _ (tableSize_le_of_checkDispatch hcheck)
  have hafter := le_afterEnd tail s₃
  simp only [Layout.hosts_append, Block.append_code, Block.ofCode_code, extent_append, extent_endMark, Nat.add_zero,
    ← Nat.add_assoc] at hosts ⊢
  obtain ⟨⟨⟨⟨⟨hv, hchoose⟩, hfb⟩, hleave⟩, hcb⟩, hend⟩ := hosts
  obtain ⟨-, hlabel, -⟩ := Layout.holds_append.mp hchoose.holds
  have hexits := Layout.exits_leaveTo hend.holds
  rw [Expr.meaning]
  refine (ihv hfirst.1.1 _ htype pc env f stack hv hlaid hagrees).bind ?_
  rintro _ _ @⟨d, env', g, _, rfl, hfits, hagrees', hspares⟩
  obtain ⟨n, rfl, hn⟩ := hfits.eq_int hint
  have hrun {target : Nat} (hplaced : L.Placed (destination n claims labels s₁.label) target) :
      Runs p (g.moved (pc + extent v.code) ((Datum.int q n).value :: stack)) (g.moved target stack) :=
    Layout.runs_dispatch (hagrees'.code hL.code) (hdispatch ▸ hchoose.holds) hswitchable hn hplaced
  show Yields p _ _ ((if _ then Expr.meaningCases reach n cs env' else none).getD (other.meaning reach env'))
  rw [← hclaims]
  cases hmeaning : if reach (tableSize claims) n then Expr.meaningCases reach n cs env' else none with
  | some outcome =>
    rw [Option.ite_none_right_eq_some] at hmeaning
    obtain ⟨x, target, hx, hplaced, hyields⟩ := ihc hfirst.1.2 hlabels _ whole hcases _ _ env' g stack n
      outcome hcb hexits
      (hlaid.mono (by omega)) hagrees' hmeaning.2
    rw [← hclaims] at hx
    refine .after (hrun ?_) (hyields.mono fun _ _ h => h.after hspares ⟨Nat.le_refl _, by omega⟩
      ⟨by omega, Nat.le_refl _⟩)
    cases hbounded : bounded (tableSize claims) n with
    | true =>
      rw [destination, if_pos hbounded, hx]
      exact hplaced
    | false =>
      -- The number is past the table, so no case claims it.
      rw [chosenLabel?_of_le ((hreach n).2 hbounded hmeaning.1
        (by rcases Layout.switchable_cases hswitchable hn with h | h <;> omega))] at hx
      cases hx
  | none =>
    have hyields := ihf hfirst.2 whole hother _ env' g stack hfb (hlaid.mono (by omega)) hagrees'
    refine .after (hrun ?_) (hyields.onward fun _ _ h => Delivered.leave ?_ hL hexits hleave.holds p)
    · unfold destination
      split
      · rename_i hbounded
        rw [if_pos ((hreach n).1 hbounded)] at hmeaning
        rw [hclaims, chosenLabel?_eq_none labels hmeaning]
        exact hlabel
      · exact hlabel
    · exact h.after hspares ⟨Nat.le_refl _, by omega⟩ ⟨by omega, by omega⟩

/-! ## Bindings -/

/-- Locals drawn meanwhile are spared in the eyes of the outer scope. -/
theorem Spares.outer {newer : List (Symbol × Storage)} (h : Spares L inner s t f g)
    (hvars : inner.vars = newer ++ scope.vars) (hnewer : ∀ y ∈ newer, y.2.IsDrawn s t) : Spares L scope s t f g := by
  intro place hscope hdrawn
  refine h place (fun y hy hplace => ?_) hdrawn
  rw [hvars] at hy
  rcases List.mem_append.mp hy with hy | hy
  · obtain ⟨n, hint, type, hstorage, hn, hn'⟩ := hnewer y hy
    rw [hstorage] at hplace
    obtain ⟨l, hl, rfl⟩ := Option.map_eq_some_iff.mp hplace
    exact hdrawn n hint l hn hn' hl rfl
  · exact hscope y hy hplace

theorem preserves_bindingsNil {usages : Usages} : Preserves reach L p base (.bindings usages [] inner inner) scope s
    {} s := by
  intro hfirst husages whole seen types htypes
  rw [Expr.typeBindings] at htypes
  cases htypes
  refine ⟨rfl, [], rfl, by simp, fun new pc prev env f stack hvars hlength hosts hlaid hinner hagrees => ?_⟩
  rw [Expr.meaningBindings]
  exact ⟨_, .refl, rfl, hinner, f, rfl, hagrees, .refl⟩

theorem preserves_bindingsCons (hL : L.Carries base) {usages : Usages} {value : Expr} {result : Scope} {boxed : Bool}
    (htype : value.typeOf scope.types = .ok type) (hboxed : boxed = usages.isCaptured x)
      (hs : (s.skip 1).next ≤ s₁.next)
    (ht : s₁.next ≤ t.next) (ihv : Preserves reach L p base (.expr value false) scope (s.skip 1) v s₁)
    (ihb : Preserves reach L p base (.bindings usages bs (inner.bind x (.slot (s.slot x) type boxed)) result)
      scope s₁ b t) :
    Preserves reach L p base (.bindings usages ((x, value) :: bs) inner result) scope s
      ({ locals := [⟨s.slot x, if boxed then .cell type else type⟩] } ++ v ++
        .ofCode ((if boxed then [Instr.typeOp .newCell type] else []) ++ [.storeLocal (s.slot x)]) ++ b) t := by
  intro hfirst husages whole seen types htypes
  obtain rfl : boxed = false := hboxed.trans (husages x)
  rw [Expr.bindingsPlain, Bool.and_eq_true] at hfirst
  obtain ⟨_, hvalue, hvoid, htypes⟩ := Expr.typeBindings_cons htypes
  cases htype.symm.trans hvalue
  have hskip := s.le_skip 1
  have hnext : s.next < t.next := Nat.lt_of_lt_of_le (Nat.lt_succ_self _) (Nat.le_trans hs ht)
  obtain ⟨hresult, newer, hnewer, hdrawn, hrest⟩ := ihb hfirst.2 husages whole _ types htypes
  refine ⟨hresult, newer ++ [(x, .slot (s.slot x) type false)], ?_, ?_, ?_⟩
  · rw [hnewer, List.append_assoc]
    rfl
  · intro y hy
    rcases List.mem_append.mp hy with hy | hy
    · exact (hdrawn y hy).widen (by omega) (Nat.le_refl _)
    · cases List.mem_singleton.mp hy
      exact ⟨s.next, _, type, rfl, Nat.le_refl _, hnext⟩
  · intro new pc prev env f stack hvars hlength hosts hlaid hinner hagrees
    simp only [Layout.hosts_append, Block.append_code, Block.ofCode_code, extent_append, ← Nat.add_assoc] at hosts ⊢
    obtain ⟨⟨⟨hdeclared, hv⟩, hstore⟩, hb⟩ := hosts
    obtain ⟨l, hl, hindex⟩ := hdeclared.slots (s.slot x) List.mem_cons_self
    have hplace : L.place? (.slot (s.slot x) type false) = some (.slot l.index) := by
      show (L.slot (s.slot x)).map _ = _
      rw [hl]
      rfl
    have houter : Agrees L base scope env f := by
      have h := hagrees.outer hvars
      rwa [← hlength, List.drop_left] at h
    rw [Expr.meaningBindings]
    refine (ihv hfirst.1 type htype _ env f stack hv (hlaid.mono hskip) houter).bind ?_
    rintro _ _ @⟨d, env', g, _, rfl, hfits, hagrees', hspares⟩
    have hd : d ≠ .void := by
      intro e
      rw [hfits.isVoid_iff.mpr e] at hvoid
      cases hvoid
    obtain ⟨⟨old, hold⟩, hbound⟩ := (hagrees.inner hL hinner hvars hlength hagrees' hspares hskip).bind hinner hL hl
      hindex hfits hd
    rw [Datum.push_eq hd]
    refine .after (Layout.next_store (hagrees'.code hL.code) hplace hold hstore.holds.1).runs ?_
    have hslot : (L.slot (s.slot x)).isSome = true := by rw [hl]; rfl
    have hyields := hrest ((x, .slot (s.slot x) type false) :: new) _ ((x, d) :: prev) env' _ stack
      (by rw [Scope.bind, hvars]; rfl) (by rw [List.length_cons, List.length_cons, hlength]) hb (hlaid.mono (by omega))
      ((hinner.bind hL x hslot).mono hs) hbound
    refine hyields.bind ?_
    rintro ⟨bound, env''⟩ _ ⟨hnewer', hlaid', f', rfl, hagrees'', hspares'⟩
    refine ⟨_, .refl, ?_, hlaid', f', rfl, ?_, ?_⟩
    · rw [List.length_append, List.length_append, hnewer']
      rfl
    · simpa only [List.append_assoc, List.cons_append, List.nil_append] using hagrees''
    · have hwrite : Spares L scope s t g (g.write d.value (.slot l.index)) :=
        fun place _ hdrawn' => g.read_write_of_ne (hdrawn' s.next _ l (Nat.le_refl _) hnext hl)
      exact ((hspares.widen hskip ht).comp hwrite).comp (hspares'.widen (by omega) (Nat.le_refl _))

theorem preserves_letIn {body : Expr} {vb : Block} (hs : s.next ≤ s₁.next) (ht : s₁.next ≤ t.next)
    (ihbs : Preserves reach L p base (.bindings body.usages bs scope inner) scope s vb s₁)
    (ih : Preserves reach L p base (.expr body tail) inner s₁ b t) :
    Preserves reach L p base (.expr (.letIn bs body) tail) scope s (vb ++ b) t := by
  intro hfirst type htype pc env f stack hosts hlaid hagrees
  rw [Expr.isPlain, Bool.and_eq_true] at hfirst
  rw [Expr.typeOf] at htype
  obtain ⟨types, htypes, htype⟩ := except_bind_ok.mp htype
  obtain ⟨rfl, newer, hnewer, hdrawn, hrun⟩ := ihbs hfirst.1 (Expr.usages_of_isPlain body · hfirst.2) _ _ types htypes
  obtain ⟨hvb, hb⟩ := Layout.hosts_append.mp hosts
  rw [Block.append_code, extent_append, ← Nat.add_assoc, Expr.meaning]
  refine (hrun [] pc [] env f stack rfl rfl hvb hlaid hlaid hagrees).bind ?_
  rintro ⟨bound, env₁⟩ _ ⟨hlength, hlaid₁, f₁, rfl, hagrees₁, hspares₁⟩
  rw [List.append_nil] at hagrees₁
  refine (ih hfirst.2 type htype _ _ f₁ stack hb hlaid₁ hagrees₁).bind ?_
  rintro _ _ @⟨d, env₂, g, last, hdone, hfits, hagrees₂, hspares₂⟩
  have houter := hagrees₂.outer hnewer
  rw [hlength] at houter
  refine ⟨_, .refl, .intro hdone hfits houter ?_⟩
  have hinner := hspares₂.widen hs (Nat.le_refl _)
  exact (hspares₁.widen (Nat.le_refl _) ht).comp (hinner.outer hnewer fun y hy =>
    (hdrawn y hy).widen (Nat.le_refl _) ht)

/-! ## Everything together -/

/-- Lowered code computes what was lowered. -/
theorem Lowers.preserves (hL : L.Carries base) (hreach : reach.Suits options.maxSwitchCases) {w : Work}
    (h : Lowers options w scope s b t) : Preserves reach L p base w scope s b t := by
  induction h with
  | literal => exact preserves_literal hL
  | var hx => exact preserves_var hL hx
  | assign hx _ ih => exact preserves_assign hL hx ih
  | seq _ ih =>
    intro hfirst type htype
    exact ih hfirst .void type (fun _ => rfl) htype
  | and _ ih | or _ ih =>
    intro hfirst type htype
    rw [Expr.typeOf] at htype
    obtain ⟨_, hbools, htype⟩ := except_bind_ok.mp htype
    cases htype
    exact ih hfirst _ hbools
  | ite hc ht hf ihc iht ihf => exact preserves_ite hL hc.grows ht.grows hf.grows ihc iht ihf
  | switch hclaims hsize hn hcheck htype hv hs₂ hs₃ hdispatch hf hc ihv ihf ihc =>
    subst hsize hn hs₂
    refine preserves_switch hL hreach hclaims (Supply.length_labels _ _) hcheck htype hdispatch hv.grows ?_
      hf.grows hc.grows
      ihv ihf ihc
    subst hs₃
    exact Nat.le_trans (Supply.le_skip _ _) (le_afterDispatch _ _ _)
  | letIn hbs hbody ihbs ih => exact preserves_letIn hbs.grows hbody.grows ihbs ih
  | binary htype hl hr ihl ihr => exact preserves_binary hL htype hl.grows hr.grows ihl ihr
  | unary htype _ ih => exact preserves_unary hL htype ih
  | lambda | invoke | getField | getStatic | setField | setStatic | new | call | callStatic =>
    intro hfirst
    cases hfirst
  | allNil | allCons => trivial
  | seqNil => exact preserves_seqNil
  | seqLast _ ih => exact preserves_seqLast ih
  | seqCons htype hb hrest ih ihrest => exact preserves_seqCons hL htype hb.grows hrest.grows ih ihrest
  | shortNil => exact preserves_shortNil hL
  | shortLast _ ih => exact preserves_shortLast ih
  | shortCons hb hrest ih ihrest => exact preserves_shortCons hL hb.grows hrest.grows ih ihrest
  | operandsNil =>
    intro _ hes
    exact absurd rfl hes
  | operandsLast _ ih => exact preserves_operandsLast ih
  | operandsCons hb hrest ih ihrest => exact preserves_operandsCons hL hb.grows hrest.grows ih ihrest
  | casesNil =>
    intro _ _ _ _ _ _ _ _ _ _ _ _ _ _ _ _ heval
    cases heval
  | casesUnlabelled =>
    intro _ hlength
    cases hlength
  | casesDropped hempty _ ih => exact preserves_casesDropped hempty ih
  | casesCons _ hb hrest ih ihrest => exact preserves_casesCons hL hb.grows hrest.grows ih ihrest
  | bindingsNil => exact preserves_bindingsNil
  | bindingsCons htype hboxed hv hb ihv ihb => exact preserves_bindingsCons hL htype hboxed hv.grows hb.grows ihv ihb

end Preserves

end Stackwright
