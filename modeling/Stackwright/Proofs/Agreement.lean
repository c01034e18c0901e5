import Mathlib.Data.List.Forall2
import Stackwright.Proofs.Execution
import Stackwright.Proofs.Usages

/-
  Stackwright.Proofs.Agreement — variables and the places they live in.

  A scope that keeps no variable in a cell gives each variable a place of its own: an argument, or
  a local that was drawn from the supply before. A frame agrees with an environment when each
  place holds the value of its variable.

  - `Agrees.lookup`, `Agrees.update`: reading and writing a variable is reading and writing its
    place.
-/

namespace Stackwright

open Machine

variable {new xs : List (Symbol × Storage)} {y : Symbol} {l : LocalId}

/-! ## Runs and evaluations -/

/-- A run that does what an evaluation says: it reaches a frame that fits the result, or it faults at a zero divisor. -/
def Yields {α : Type} (p : Program) (f : Frame) (post : α → Frame → Prop) : Except Stop α → Prop
  | .ok a => ∃ g, Runs p f g ∧ post a g
  | .error .divideByZero => Faults p f .divideByZero
  | .error .stuck => False

namespace Yields

variable {α β : Type} {p : Program} {f g : Frame} {post : α → Frame → Prop} {post' : β → Frame → Prop}

theorem after {r : Except Stop α} (hrun : Runs p f g) (h : Yields p g post r) : Yields p f post r := by
  match r with
  | .ok a =>
    obtain ⟨last, hlast, hpost⟩ := h
    exact ⟨last, hrun.trans hlast, hpost⟩
  | .error .divideByZero => exact hrun.faults h
  | .error .stuck => exact h

/-- One evaluation after the other is one run after the other. -/
theorem bind {r : Except Stop α} {k : α → Except Stop β} (h : Yields p f post r)
    (hk : ∀ a g, post a g → Yields p g post' (k a)) : Yields p f post' (r >>= k) := by
  match r with
  | .ok a =>
    obtain ⟨g, hrun, hpost⟩ := h
    exact (hk a g hpost).after hrun
  | .error .divideByZero | .error .stuck => exact h

/-- A run may go on where it was said to end. -/
theorem onward {r : Except Stop α} {post' : α → Frame → Prop} (h : Yields p f post r)
    (himp : ∀ a g, post a g → ∃ g', Runs p g g' ∧ post' a g') : Yields p f post' r := by
  match r with
  | .ok a =>
    obtain ⟨g, hrun, hpost⟩ := h
    obtain ⟨g', hrun', hpost'⟩ := himp a g hpost
    exact ⟨g', hrun.trans hrun', hpost'⟩
  | .error .divideByZero | .error .stuck => exact h

theorem mono {r : Except Stop α} {post' : α → Frame → Prop} (h : Yields p f post r)
    (himp : ∀ a g, post a g → post' a g) : Yields p f post' r :=
  h.onward fun a g hpost => ⟨g, .refl, himp a g hpost⟩

end Yields

/-- Code that computes an operation yields its value. -/
theorem Computes.yields {L : Layout} {f : Frame} {pc : Nat} {code : List Instr} {operands : List Value}
    {type : TypeRef} {r : Except Stop Datum} (h : Computes code operands type r) (p : Program) (stack : List Value)
    (hcode : f.code = L.code) (hholds : L.Holds pc code) :
    Yields p (f.moved pc (operands ++ stack))
      (fun d g => d ≠ .void ∧ d.Fits type ∧ g = f.moved (pc + extent code) (d.value :: stack)) r := by
  cases h with
  | value hd hfits hcalc => exact ⟨_, Layout.runs_calc hcode hholds (hcalc stack), hd, hfits, rfl⟩
  | zero hcalc => exact Layout.faults_calc hcode hholds (hcalc stack)

/-- What a value leaves on the stack. -/
def Datum.push : Datum → List Value → List Value
  | .void, stack => stack
  | d, stack => d.value :: stack

theorem Datum.push_eq {d : Datum} (h : d ≠ .void) (stack : List Value) : d.push stack = d.value :: stack := by
  cases d <;> first | contradiction | rfl

namespace Datum.Fits

variable {d : Datum} {type source target : TypeRef} {h : Hierarchy}

theorem isVoid_iff (hd : d.Fits type) : type.isVoid ↔ d = .void := by
  cases d with
  | void =>
    cases hd
    exact ⟨fun _ => rfl, fun _ => rfl⟩
  | bool b =>
    cases hd
    exact ⟨fun h => (by cases h), fun h => (by cases h)⟩
  | int p v =>
    obtain ⟨rfl, hp, -⟩ := hd
    refine ⟨fun h => ?_, fun h => by cases h⟩
    cases p <;> contradiction
  | float v =>
    obtain ⟨p, rfl, hp⟩ := TypeRef.eq_primitive hd
    refine ⟨fun h => ?_, fun h => by cases h⟩
    cases p <;> contradiction
  | ref v =>
    refine ⟨fun h => ?_, fun h => by cases h⟩
    cases type with
    | primitive p => cases p <;> contradiction
    | _ => contradiction

/-- A value may stand wherever its type is assignable. -/
theorem of_isAssignable (hknows : h.KnowsPrimitives) (hd : d.Fits source) (ha : h.isAssignable source target) :
    d.Fits target := by
  rw [Hierarchy.isAssignable, Bool.or_eq_true, beq_iff_eq] at ha
  rcases ha with rfl | ha
  · exact hd
  · simp only [Bool.and_eq_true] at ha
    obtain ⟨⟨hsource, htarget⟩, -⟩ := ha
    obtain ⟨v, rfl⟩ := eq_ref (Hierarchy.fits_null hknows hsource .null) hd
    exact Hierarchy.fits_null hknows htarget v

end Datum.Fits

/-! ## Blocks in place -/

/-- A block stands in the body from the position on, and its locals have places. -/
structure Layout.Hosts (L : Layout) (pc : Nat) (b : Block) : Prop where
  holds : L.Holds pc b.code
  slots : ∀ x ∈ b.localNames, ∃ l, L.slot x = some l ∧ l.index < L.code.locals.length

theorem Layout.hosts_append {L : Layout} {pc : Nat} {a b : Block} :
    L.Hosts pc (a ++ b) ↔ L.Hosts pc a ∧ L.Hosts (pc + extent a.code) b := by
  constructor
  · intro h
    obtain ⟨ha, hb⟩ := holds_append.mp h.holds
    have hslots : ∀ x ∈ a.localNames ++ b.localNames, ∃ l, L.slot x = some l ∧ l.index < L.code.locals.length := by
      rw [← Block.localNames_append]
      exact h.slots
    exact ⟨⟨ha, fun x hx => hslots x (List.mem_append_left _ hx)⟩,
      ⟨hb, fun x hx => hslots x (List.mem_append_right _ hx)⟩⟩
  · rintro ⟨ha, hb⟩
    refine ⟨holds_append.mpr ⟨ha.holds, hb.holds⟩, fun x hx => ?_⟩
    rw [Block.localNames_append] at hx
    rcases List.mem_append.mp hx with hx | hx
    · exact ha.slots x hx
    · exact hb.slots x hx

/-- A body whose frames look like `base`. -/
structure Layout.Carries (L : Layout) (base : Frame) : Prop where
  code : base.code = L.code
  size : base.locals.size = L.code.locals.length
  distinct : ∀ {x y l}, L.slot x = some l → L.slot y = some l → (x == y) = true

/-! ## Variables and places -/

section Places

variable (L : Layout)

/-- A scope whose variables have places of their own. -/
structure Laid (s : Supply) (scope : Scope) : Prop where
  primitives : scope.types.hierarchy.KnowsPrimitives
  types : scope.types.vars = scope.vars.map fun x => (x.1, x.2.type)
  older : ∀ x ∈ scope.vars, ∀ name type boxed, x.2 = .slot name type boxed →
    ∃ n hint, name = .generated n hint ∧ n < s.next
  apart : scope.vars.Pairwise fun x y => L.place? x.2 ≠ L.place? y.2

/-- The place of the variable holds its value. -/
structure Bound (f : Frame) (x : Symbol × Storage) (y : Symbol × Datum) : Prop where
  name : x.1 = y.1
  nonvoid : y.2 ≠ .void
  fits : y.2.Fits x.2.type
  held : ∃ place, L.place? x.2 = some place ∧ f.read place = some y.2.value

/-- The frame holds the values of the variables; besides, it is a frame of the given activation. -/
structure Agrees (base : Frame) (scope : Scope) (env : Env) (f : Frame) : Prop where
  fixed : f.fixed = base.fixed
  vars : List.Forall₂ (Bound L f) scope.vars env

/-- Only variables in scope and locals drawn meanwhile may have changed. -/
def Spares (scope : Scope) (s t : Supply) (f g : Frame) : Prop :=
  ∀ place, (∀ x ∈ scope.vars, L.place? x.2 ≠ some place) →
    (∀ n hint l, s.next ≤ n → n < t.next → L.slot (.generated n hint) = some l → place ≠ .slot l.index) →
    g.read place = f.read place

end Places

variable {L : Layout} {base f g h : Frame} {scope : Scope} {env : Env} {s t u : Supply} {x : Symbol} {whole : Expr}
  {storage : Storage} {d : Datum}

namespace Spares

theorem refl : Spares L scope s t f f := fun _ _ _ => rfl

theorem widen {s' t' : Supply} (hfg : Spares L scope s t f g) (hs : s'.next ≤ s.next) (ht : t.next ≤ t'.next) :
    Spares L scope s' t' f g :=
  fun place hscope hdrawn => hfg place hscope fun n hint l hn hn' => hdrawn n hint l (by omega) (by omega)

theorem comp (hfg : Spares L scope s t f g) (hgh : Spares L scope s t g h) : Spares L scope s t f h :=
  fun place hscope hdrawn => (hgh place hscope hdrawn).trans (hfg place hscope hdrawn)

theorem trans (hst : s.next ≤ t.next) (htu : t.next ≤ u.next) (hfg : Spares L scope s t f g)
    (hgh : Spares L scope t u g h) : Spares L scope s u f h :=
  (hfg.widen (Nat.le_refl _) htu).comp (hgh.widen hst (Nat.le_refl _))

end Spares

theorem Laid.mono (hl : Laid L s scope) (hst : s.next ≤ t.next) : Laid L t scope where
  primitives := hl.primitives
  types := hl.types
  older x hx name type boxed hslot := by
    obtain ⟨n, hint, hname, hn⟩ := hl.older x hx name type boxed hslot
    exact ⟨n, hint, hname, by omega⟩
  apart := hl.apart

/-- The type of a variable is that of its storage. -/
theorem Laid.lookup (hl : Laid L s scope) (hx : scope.storage x whole = .ok storage) :
    scope.types.lookup x = some storage.type := by
  obtain ⟨y, hfind⟩ := Scope.find?_of_storage hx
  rw [TypeEnv.lookup, hl.types, List.find?_map]
  have hfind' : scope.vars.find? ((fun entry => entry.1 == x) ∘ fun x => (x.1, x.2.type)) = some (y, storage) := hfind
  rw [hfind']
  rfl

/-- Variables are found together with their values. -/
theorem Bound.find? (hb : List.Forall₂ (Bound L f) xs env)
    (hfind : xs.find? (fun entry => entry.1 == x) = some (y, storage)) :
    ∃ d, env.find? (fun entry => entry.1 == x) = some (y, d) ∧ Bound L f (y, storage) (y, d) := by
  induction hb with
  | nil => cases hfind
  | @cons a b xs env hab _ ih =>
    obtain ⟨a₁, a₂⟩ := a
    obtain ⟨b₁, b₂⟩ := b
    obtain rfl : a₁ = b₁ := hab.name
    rw [List.find?_cons] at hfind ⊢
    cases hx : a₁ == x with
    | true =>
      simp only [hx, Option.some.injEq, Prod.mk.injEq] at hfind
      obtain ⟨rfl, rfl⟩ := hfind
      exact ⟨b₂, rfl, hab⟩
    | false =>
      simp only [hx] at hfind ⊢
      exact ih hfind

namespace Agrees

theorem code (ha : Agrees L base scope env f) (hbase : base.code = L.code) : f.code = L.code := by
  rw [← hbase]
  exact congrArg Prod.fst ha.fixed

theorem size (ha : Agrees L base scope env f) : f.locals.size = base.locals.size :=
  congrArg (fun fixed => fixed.2.1) ha.fixed

theorem lookup (ha : Agrees L base scope env f) (hx : scope.storage x whole = .ok storage) :
    ∃ d place, env.lookup x = some d ∧ d ≠ .void ∧ d.Fits storage.type ∧ L.place? storage = some place ∧
      f.read place = some d.value := by
  obtain ⟨y, hfind⟩ := Scope.find?_of_storage hx
  obtain ⟨d, hd, hbound⟩ := Bound.find? ha.vars hfind
  obtain ⟨place, hplace, hread⟩ := hbound.held
  exact ⟨d, place, by rw [Env.lookup, hd]; rfl, hbound.nonvoid, hbound.fits, hplace, hread⟩

end Agrees

/-- Variables keep their values when their places do. -/
theorem Bound.keep (hb : List.Forall₂ (Bound L f) xs env)
    (hkeep : ∀ x ∈ xs, ∀ place, L.place? x.2 = some place → g.read place = f.read place) :
    List.Forall₂ (Bound L g) xs env := by
  induction hb with
  | nil => exact .nil
  | cons hab _ ih =>
    obtain ⟨place, hplace, hread⟩ := hab.held
    refine .cons ⟨hab.name, hab.nonvoid, hab.fits, place, hplace, ?_⟩
      (ih fun x hx => hkeep x (List.mem_cons_of_mem _ hx))
    rw [hkeep _ List.mem_cons_self place hplace, hread]

theorem Bound.update {place : Place} (hb : List.Forall₂ (Bound L f) xs env)
    (hapart : xs.Pairwise fun x y => L.place? x.2 ≠ L.place? y.2)
    (hfind : xs.find? (fun entry => entry.1 == x) = some (y, storage)) (hplace : L.place? storage = some place)
    (hfits : d.Fits storage.type) (hd : d ≠ .void) :
    ∃ env', Env.update d x env = some env' ∧ List.Forall₂ (Bound L (f.write d.value place)) xs env' := by
  induction hb with
  | nil => cases hfind
  | @cons a b xs env hab hrest ih =>
    obtain ⟨a₁, a₂⟩ := a
    obtain ⟨b₁, b₂⟩ := b
    obtain rfl : a₁ = b₁ := hab.name
    obtain ⟨hhead, htail⟩ := List.pairwise_cons.mp hapart
    rw [List.find?_cons] at hfind
    rw [Env.update]
    cases hx : a₁ == x with
    | true =>
      -- The variable itself: the places of the others are apart from its own.
      simp only [hx, Option.some.injEq, Prod.mk.injEq] at hfind
      obtain ⟨rfl, rfl⟩ := hfind
      obtain ⟨place', hplace', hread⟩ := hab.held
      cases hplace.symm.trans hplace'
      refine ⟨_, if_pos rfl, .cons ⟨rfl, hd, hfits, place, hplace, f.read_write_self hread⟩ (Bound.keep hrest ?_)⟩
      intro z hz other hother
      refine f.read_write_of_ne fun e => hhead z hz ?_
      rw [hplace, hother, e]
    | false =>
      simp only [hx] at hfind
      obtain ⟨env', henv', hbound'⟩ := ih htail hfind
      refine ⟨(a₁, b₂) :: env', by simp [henv'], .cons ?_ hbound'⟩
      obtain ⟨other, hother, hread⟩ := hab.held
      refine ⟨rfl, hab.nonvoid, hab.fits, other, hother, ?_⟩
      rw [f.read_write_of_ne fun e => hhead _ (List.mem_of_find?_eq_some hfind) (by rw [hother, hplace, e]), hread]

/-- Writing a variable in scope. -/
theorem Agrees.update (ha : Agrees L base scope env f) (hl : Laid L s scope) (hx : scope.storage x whole = .ok storage)
    (hfits : d.Fits storage.type) (hd : d ≠ .void) :
    ∃ env' place old, env.update d x = some env' ∧ L.place? storage = some place ∧ f.read place = some old ∧
      Agrees L base scope env' (f.write d.value place) ∧ Spares L scope t u f (f.write d.value place) := by
  obtain ⟨y, hfind⟩ := Scope.find?_of_storage hx
  obtain ⟨old, place, -, -, -, hplace, hread⟩ := ha.lookup hx
  obtain ⟨env', henv', hvars⟩ := Bound.update ha.vars hl.apart hfind hplace hfits hd
  refine ⟨env', place, _, henv', hplace, hread, ⟨by rw [Frame.write_fixed, ha.fixed], hvars⟩, ?_⟩
  intro other hscope _
  exact f.read_write_of_ne fun e => hscope _ (List.mem_of_find?_eq_some hfind) (e ▸ hplace)

/-- Variables of an outer scope, seen from inside. -/
theorem Agrees.outer {inner : Scope} (ha : Agrees L base inner env f)
    (hvars : inner.vars = new ++ scope.vars) : Agrees L base scope (env.drop new.length) f := by
  have h := List.forall₂_drop new.length ha.vars
  rw [hvars, List.drop_left] at h
  exact ⟨ha.fixed, h⟩

/-! ## New variables -/

/-- No variable of the scope lives in a local that is drawn later. -/
theorem Laid.place?_ne_drawn {y : Symbol × Storage} {n : Nat} {hint : Option String} (hl : Laid L s scope)
    (hL : L.Carries base) (hy : y ∈ scope.vars) (hn : s.next ≤ n) (hslot : L.slot (.generated n hint) = some l) :
    L.place? y.2 ≠ some (.slot l.index) := by
  intro hsame
  cases hstorage : y.2 with
  | argument index type | field target field type boxed =>
    rw [hstorage] at hsame
    cases hsame
  | slot name type boxed =>
    obtain ⟨m, hint', rfl, hm⟩ := hl.older y hy name type boxed hstorage
    rw [hstorage] at hsame
    cases boxed with
    | true => cases hsame
    | false =>
      obtain ⟨l', hl', hindex⟩ := Option.map_eq_some_iff.mp hsame
      obtain rfl : l' = l := by
        cases l'
        cases l
        cases hindex
        rfl
      have hbeq := hL.distinct hl' hslot
      rw [Symbol.generated_beq, decide_eq_true_eq] at hbeq
      omega

/-- Variables of an inner scope keep their values while an expression of the outer one runs. -/
theorem Agrees.inner {inner : Scope} {prev now : Env} (hL : L.Carries base)
    (hl : Laid L s inner) (ha : Agrees L base inner (prev ++ env) f) (hvars : inner.vars = new ++ scope.vars)
    (hlength : prev.length = new.length) (hnow : Agrees L base scope now g) (hspares : Spares L scope t u f g)
    (hst : s.next ≤ t.next) : Agrees L base inner (prev ++ now) g := by
  have hnew : List.Forall₂ (Bound L f) new prev := by
    have h := List.forall₂_take new.length ha.vars
    rwa [hvars, List.take_left, ← hlength, List.take_left] at h
  refine ⟨hnow.fixed, ?_⟩
  rw [hvars]
  refine List.rel_append (Bound.keep hnew fun x hx place hplace => hspares place ?_ ?_) hnow.vars
  · intro y hy hsame
    have hapart := hl.apart
    rw [hvars, List.pairwise_append] at hapart
    exact hapart.2.2 x hx y hy (by rw [hplace, hsame])
  · intro n hint l hn _ hslot hsame
    subst hsame
    have hx' : x ∈ inner.vars := hvars ▸ List.mem_append_left _ hx
    exact hl.place?_ne_drawn hL hx' (Nat.le_trans hst hn) hslot hplace

/-- A variable in a new local. -/
theorem Laid.bind {type : TypeRef} (hl : Laid L s scope) (hL : L.Carries base) (x : Symbol)
    (hslot : (L.slot (s.slot x)).isSome) : Laid L (s.skip 1) (scope.bind x (.slot (s.slot x) type false)) where
  primitives := hl.primitives
  types := by
    show (x, type) :: scope.types.vars = (x, type) :: _
    rw [hl.types]
  older y hy name type boxed hname := by
    rcases List.mem_cons.mp hy with rfl | hy
    · cases hname
      exact ⟨s.next, _, rfl, Nat.lt_succ_self _⟩
    · exact (hl.mono (s.le_skip 1)).older y hy name type boxed hname
  apart := by
    refine List.pairwise_cons.mpr ⟨fun y hy hsame => ?_, hl.apart⟩
    obtain ⟨l, hl'⟩ := Option.isSome_iff_exists.mp hslot
    have hplace : L.place? (.slot (s.slot x) type false) = some (.slot l.index) := by
      show (L.slot (s.slot x)).map _ = _
      rw [hl']
      rfl
    exact hl.place?_ne_drawn hL hy (Nat.le_refl _) hl' (hsame.symm.trans hplace)

/-- Storing a value in a new local binds a variable to it. -/
theorem Agrees.bind {type : TypeRef} (ha : Agrees L base scope env f) (hl : Laid L s scope) (hL : L.Carries base)
    (hslot : L.slot (s.slot x) = some l) (hindex : l.index < L.code.locals.length) (hfits : d.Fits type)
    (hd : d ≠ .void) :
    (∃ old, f.read (.slot l.index) = some old) ∧
      Agrees L base (scope.bind x (.slot (s.slot x) type false)) ((x, d) :: env) (f.write d.value (.slot l.index)) := by
  have hread : ∃ old, f.read (.slot l.index) = some old := by
    have hlt : l.index < f.locals.size := by rw [ha.size, hL.size]; exact hindex
    exact ⟨_, Array.getElem?_eq_getElem hlt⟩
  obtain ⟨old, hold⟩ := hread
  refine ⟨⟨old, hold⟩, by rw [Frame.write_fixed, ha.fixed], .cons ?_ ?_⟩
  · refine ⟨rfl, hd, hfits, .slot l.index, ?_, f.read_write_self hold⟩
    show (L.slot (s.slot x)).map _ = _
    rw [hslot]
    rfl
  · refine Bound.keep ha.vars fun y hy place hplace => f.read_write_of_ne fun hsame => ?_
    exact hl.place?_ne_drawn hL hy (Nat.le_refl _) hslot (hsame ▸ hplace)

end Stackwright
