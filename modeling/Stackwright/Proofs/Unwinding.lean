import Mathlib.Data.List.Find
import Mathlib.Data.List.Pairwise
import Stackwright.Proofs.Lasting
import Stackwright.Proofs.Regions

/-
  Stackwright.Proofs.Unwinding — which handlers run when control leaves protected regions.

  What comes after a finally handler is looked for again, from the operation that closes the handler.
  This goes on where the search stopped that had found the handler: the regions before its own end
  before that operation, and the regions behind cannot tell it from the position where all began.
-/

namespace Stackwright

open Machine

variable {c : Code} {v : Value} {thrown : Ty}

namespace Machine

/-- A body that was collected by requests that all succeeded. -/
def Code.Drafted (c : Code) : Prop :=
  ∃ requests d, (Draft.performAll requests).exec {} = (.ok (), d) ∧ d.finish = .ok c

/-- The regions of what a list of requests gives. -/
def Draft.regions? (requests : List Draft.Request) : Option (List Region) :=
  match (Draft.performAll requests).exec {} with
  | (.ok (), d) => d.finish.toOption.map (·.regions)
  | (.error _, _) => none

theorem exists_drafted (requests : List Draft.Request) (regions : List Region)
    (h : Draft.regions? requests = some regions) :
    ∃ c : Code, c.Drafted ∧ c.regions = regions := by
  unfold Draft.regions? at h
  split at h
  · rename_i d hrun
    cases hfinish : d.finish with
    | error e => rw [hfinish] at h; cases h
    | ok c =>
      rw [hfinish] at h
      exact ⟨c, ⟨requests, d, hrun, hfinish⟩, Option.some.inj h⟩
  · cases h

/-! ## Blocks -/

theorem Span.contains_iff {s : Span} {pc : Nat} : s.contains pc ↔ s.start ≤ pc ∧ pc < s.stop := by
  simp [Span.contains]

/-- Spans that follow one another, each not empty. -/
theorem Span.Consecutive.spans {ss : List Span} {first last : Nat} (h : Consecutive first ss last) :
    (∀ s ∈ ss, first ≤ s.start ∧ s.start < s.stop ∧ s.stop ≤ last) ∧ ss.Pairwise fun s t => s.stop ≤ t.start := by
  induction ss generalizing first with
  | nil => exact ⟨by simp, .nil⟩
  | cons s ss ih =>
    obtain ⟨rfl, hlt, hrest⟩ := h
    obtain ⟨hbounds, hpairwise⟩ := ih hrest
    have hlast : s.stop ≤ last := by
      cases ss with
      | nil => exact Nat.le_of_eq hrest
      | cons t ts =>
        have := hbounds t List.mem_cons_self
        omega
    refine ⟨List.forall_mem_cons.mpr ⟨⟨Nat.le_refl _, hlt, hlast⟩, fun t ht => ?_⟩,
      List.pairwise_cons.mpr ⟨fun t ht => (hbounds t ht).1, hpairwise⟩⟩
    have := hbounds t ht
    omega

/-- Of things whose spans follow one another, only one contains a position. -/
theorem Span.unique {α : Type} {s : α → Span} {l : List α} {a b : α} {pc : Nat}
    (hl : l.Pairwise fun a b => (s a).stop ≤ (s b).start) (ha : a ∈ l) (hb : b ∈ l) (hapc : (s a).contains pc)
    (hbpc : (s b).contains pc) : a = b := by
  by_contra hne
  have : Std.Symm fun a b => (s a).Apart (s b) := ⟨fun _ _ => Or.symm⟩
  have hall : l.Pairwise fun a b => (s a).Apart (s b) := hl.imp fun hle => .inl hle
  have hapart := hall.forall ha hb hne
  rw [contains_iff] at hapc hbpc
  rcases hapart with hle | hle <;> omega

namespace Region

variable {r q : Region} {ops : Array Op} {b : Span} {h : Handler} {x y : Nat}

theorem contains_iff : r.contains x ↔ ∃ b ∈ r.blocks, b.contains x := by
  simp [contains, blocks, handlerAt]

theorem Sound.bounds (hr : r.Sound ops) (hb : b ∈ r.blocks) :
    r.whole.start ≤ b.start ∧ b.start < b.stop ∧ b.stop ≤ r.whole.stop :=
  hr.consecutive.spans.1 b hb

theorem Sound.mem_whole (hr : r.Sound ops) (hx : r.contains x) : r.whole.start ≤ x ∧ x < r.whole.stop := by
  obtain ⟨b, hb, hbx⟩ := contains_iff.mp hx
  have hbounds := hr.bounds hb
  rw [Span.contains_iff] at hbx
  omega

/-- The operation that ends a block is in it. -/
theorem Sound.contains_last (hr : r.Sound ops) (hb : b ∈ r.blocks) : b.contains (b.stop - 1) := by
  have hbounds := hr.bounds hb
  exact Span.contains_iff.mpr (by omega)

theorem mem_blocks (hh : h ∈ r.handlers) : h.span ∈ r.blocks := List.mem_cons_of_mem _ (List.mem_map_of_mem hh)

theorem Sound.handlerAt_eq (hr : r.Sound ops) (hh : h ∈ r.handlers) (hx : h.span.contains x) :
    r.handlerAt x = some h := by
  cases hfound : r.handlerAt x with
  | none => exact absurd hx (List.find?_eq_none.mp hfound h hh)
  | some k =>
    have hpairwise := List.pairwise_map.mp (List.pairwise_cons.mp hr.consecutive.spans.2).2
    have hk := List.find?_some hfound
    rw [Span.unique hpairwise (List.mem_of_find?_eq_some hfound) hh hk hx]

theorem Sound.not_tried (hr : r.Sound ops) (hh : h ∈ r.handlers) (hx : h.span.contains x) :
    r.tried.contains x = false := by
  have hle := (List.pairwise_cons.mp hr.consecutive.spans.2).1 _ (List.mem_map_of_mem hh)
  rw [Span.contains_iff] at hx
  rw [← Bool.not_eq_true, Span.contains_iff]
  omega

/-! ### Regions in others -/

/-- A region that has a position in common with a block of an outer region ends before the block does. -/
theorem Inside.under (hin : r.Inside q) (hr : r.Sound ops) (hq : q.Sound ops) (hx : r.contains x) (hb : b ∈ q.blocks)
    (hbx : b.contains x) : r.whole.Under b := by
  have hwhole := hr.mem_whole hx
  have hbounds := hq.bounds hb
  rcases hin with hapart | ⟨d, hd, hunder⟩
  · rw [Span.contains_iff] at hbx
    rcases hapart with hle | hle <;> omega
  · have hdx : d.contains x :=
      Span.contains_iff.mpr ⟨Nat.le_trans hunder.1 hwhole.1, Nat.lt_trans hwhole.2 hunder.2⟩
    rwa [Span.unique (s := id) hq.consecutive.spans.2 hb hd hbx hdx]

/-- The operation that ends a block lies in no region inside the block. -/
theorem Inside.not_contains_last (hin : r.Inside q) (hr : r.Sound ops) (hq : q.Sound ops) (hb : b ∈ q.blocks) :
    r.contains (b.stop - 1) = false := by
  rw [← Bool.not_eq_true]
  intro hx
  have hunder := (hin.under hr hq hx hb (hq.contains_last hb)).2
  have hwhole := hr.mem_whole hx
  omega

/-- No block tells the positions apart. -/
def Confuses (q : Region) (x y : Nat) : Prop := ∀ b ∈ q.blocks, b.contains x = b.contains y

theorem Inside.confuses (hin : r.Inside q) (hr : r.Sound ops) (hq : q.Sound ops) (hx : r.contains x)
    (hy : r.contains y) : q.Confuses x y := by
  have hcovers {u v : Nat} (hu : r.contains u) (hv : r.contains v) {b : Span} (hb : b ∈ q.blocks)
      (hbu : b.contains u) : b.contains v := by
    have hunder := hin.under hr hq hu hb hbu
    have hwhole := hr.mem_whole hv
    exact Span.contains_iff.mpr ⟨Nat.le_trans hunder.1 hwhole.1, Nat.lt_trans hwhole.2 hunder.2⟩
  exact fun b hb => Bool.eq_iff_iff.mpr ⟨hcovers hx hy hb, hcovers hy hx hb⟩

theorem Confuses.tried (hc : r.Confuses x y) : r.tried.contains x = r.tried.contains y := hc _ List.mem_cons_self

theorem Confuses.handlerAt (hc : r.Confuses x y) : r.handlerAt x = r.handlerAt y :=
  List.find?_congr fun _ hh => hc _ (mem_blocks hh)

theorem Confuses.contains (hc : r.Confuses x y) : r.contains x = r.contains y := by
  rw [Region.contains, hc.tried, hc.handlerAt, Region.contains]

end Region

/-! ## Searches -/

/-- Goes through regions, innermost first, and collects what is to be run, up to the first region that stops the
    search. -/
def walk (stops : Region → Option Nat) (runs : Region → Option Span) : List Region → List Span × Option Nat
  | [] => ([], none)
  | r :: rest =>
    match stops r with
    | some start => ([], some start)
    | none => ((runs r).toList ++ (walk stops runs rest).1, (walk stops runs rest).2)

/-- A search that depends on a position only through the blocks that contain it, runs finally handlers of regions that
    contain it, and has no use for a region when it starts in its finally handler. -/
structure Local (stops : Nat → Region → Option Nat) (runs : Nat → Region → Option Span) : Prop where
  found : ∀ {x r span}, runs x r = some span → r.contains x ∧ ∃ h, r.finallyHandler = some h ∧ h.span = span
  outside : ∀ {x r}, r.contains x = false → stops x r = none ∧ runs x r = none
  ended : ∀ {x r h ops}, r.Sound ops → r.finallyHandler = some h → h.span.contains x →
    stops x r = none ∧ runs x r = none
  confused : ∀ {x y r}, r.Confuses x y → stops x r = stops y r ∧ runs x r = runs y r

variable {stops : Nat → Region → Option Nat} {runs : Nat → Region → Option Span} {regions : List Region}
  {ops : Array Op}
  {span : Span} {spans : List Span} {stop : Option Nat} {pc : Nat}

theorem walk_congr (hl : Local stops runs) {x y : Nat} (h : ∀ r ∈ regions, r.Confuses x y) :
    walk (stops x) (runs x) regions = walk (stops y) (runs y) regions := by
  induction regions with
  | nil => rfl
  | cons r rest ih =>
    obtain ⟨hr, hrest⟩ := List.forall_mem_cons.mp h
    rw [walk, walk, (hl.confused hr).1, (hl.confused hr).2, ih hrest]

theorem mem_walk (hl : Local stops runs) (h : span ∈ (walk (stops pc) (runs pc) regions).1) :
    ∃ r ∈ regions, r.contains pc ∧ ∃ h ∈ r.handlers, r.finallyHandler = some h ∧ h.span = span := by
  induction regions with
  | nil => cases h
  | cons r rest ih =>
    rw [walk] at h
    split at h
    · cases h
    · rcases List.mem_append.mp h with h | h
      · obtain ⟨hcontains, handler, hhandler, hspan⟩ := hl.found (Option.mem_toList.mp h)
        exact ⟨r, List.mem_cons_self, hcontains, handler, List.mem_of_find?_eq_some hhandler, hhandler, hspan⟩
      · obtain ⟨q, hq, hrest⟩ := ih h
        exact ⟨q, List.mem_cons_of_mem _ hq, hrest⟩

theorem mem_first {found : List Span × Option Nat} (h : found = (span :: spans, stop)) : span ∈ found.1 := by
  rw [h]
  exact List.mem_cons_self

/-- From the end of a finally handler the search goes on behind it. -/
theorem walk_next (hl : Local stops runs) (hsound : ∀ r ∈ regions, r.Sound ops)
    (hinside : regions.Pairwise Region.Inside) (h : walk (stops pc) (runs pc) regions = (span :: spans, stop)) :
    walk (stops (span.stop - 1)) (runs (span.stop - 1)) regions = (spans, stop) := by
  induction regions with
  | nil => cases h
  | cons r rest ih =>
    obtain ⟨hr, hrest⟩ := List.forall_mem_cons.mp hsound
    obtain ⟨hfirst, hinside⟩ := List.pairwise_cons.mp hinside
    rw [walk] at h
    split at h
    · cases h
    · rw [walk]
      cases hruns : runs pc r with
      | none =>
        -- the handler belongs to a region behind this one, which ends before the handler does
        rw [hruns] at h
        have hnext : walk (stops pc) (runs pc) rest = (span :: spans, stop) := h
        obtain ⟨q, hq, -, handler, hhandler, -, rfl⟩ := mem_walk hl (mem_first hnext)
        obtain ⟨hstops, hnone⟩ := hl.outside ((hfirst q hq).not_contains_last hr (hrest q hq)
          (Region.mem_blocks hhandler))
        rw [hstops, hnone]
        exact ih hrest hinside hnext
      | some found =>
        rw [hruns] at h
        obtain ⟨hspan, hstop⟩ := Prod.mk.inj h
        obtain ⟨rfl, hspans⟩ := List.cons.inj hspan
        obtain ⟨hcontains, handler, hhandler, rfl⟩ := hl.found hruns
        have hblock := Region.mem_blocks (List.mem_of_find?_eq_some hhandler)
        have hlast := hr.contains_last hblock
        have hsame := walk_congr hl fun q hq => (hfirst q hq).confuses hr (hrest q hq) hcontains
          (Region.contains_iff.mpr ⟨_, hblock, hlast⟩)
        obtain ⟨hstops, hnone⟩ := hl.ended hr hhandler hlast
        rw [hstops, hnone, ← hsame, ← hspans, ← hstop]
        rfl

/-! ## Handlers that run -/

/-- What a round ends in. -/
abbrev Outcome := Except Fault Progress × World

/-- The handler that the frame has entered runs up to the operation that closes it, where its entry is on top again. -/
def Finishes (p : Program) (natives : Natives) (span : Span) (rest : List Frame) (f : Frame) (w : World) (g : Frame)
    (w' : World) : Prop :=
  Leads p natives (f :: rest, w) (g :: rest, w') ∧ g.code = f.code ∧ g.pc = span.stop - 1 ∧ g.pending = f.pending

/-- The handlers are entered one after the other, each with its entry pending, as soon as the one before has run to its
    closing operation. What comes after the last satisfies the condition. -/
def Through (p : Program) (natives : Natives) (resume : Resume) (done : Outcome → Prop) : List Span → Outcome → Prop
  | [], outcome => done outcome
  | span :: spans, outcome => ∃ f rest w below, outcome = (.ok (.running (f :: rest)), w) ∧ f.pc = span.start ∧
      f.pending = ⟨span, resume⟩ :: below ∧
      ∀ g w', Finishes p natives span rest f w g w' →
        Through p natives resume done spans ((advance p natives (g :: rest)).exec w')

variable {p : Program} {natives : Natives} {f g : Frame} {rest : List Frame} {w w' : World}

/-- Regions of a finished body. -/
theorem Code.Drafted.layered (h : c.Drafted) : (∀ r ∈ c.regions, r.Sound c.ops) ∧ c.regions.Pairwise Region.Inside := by
  obtain ⟨requests, d, hrun, hfinish⟩ := h
  have horderly : d.Orderly := Draft.Orderly.empty.performAll hrun
  unfold Draft.finish at hfinish
  split at hfinish
  · obtain ⟨places, -, hfinish⟩ := except_bind_ok.mp hfinish
    cases hfinish
    exact ⟨fun r hr => (horderly.sound r (Array.mem_toList_iff.mp hr)).1, horderly.nested⟩
  · cases hfinish

theorem advance_throw {top : Frame} (h : (step p f).exec w = (.ok (.throw top v), w')) :
    (advance p natives (f :: rest)).exec w = (.running <$> unwind p w'.heap v (top :: rest), w') := by
  rw [advance, Act.exec_bind, h]
  simp only [Act.exec_bind, Act.exec_heap, Act.exec_map, Act.exec_lift]
  cases unwind p w'.heap v (top :: rest) <;> rfl

/-- Where a finally handler is closed, what it interrupted goes on. -/
theorem step_closing (hsound : ∀ r ∈ c.regions, r.Sound c.ops) {r : Region} {handler : Handler} (hr : r ∈ c.regions)
    (hh : r.finallyHandler = some handler) (hcode : g.code = c) (hpc : g.pc = handler.span.stop - 1) :
    step p g = pure (endFinally { g with pc := g.pc + 1 } g.pc) := by
  have hkind : handler.kind = .finally := by simpa using List.find?_some hh
  rw [step, hcode, hpc, (hsound r hr).finallies handler (List.mem_of_find?_eq_some hh) hkind]

/-! ## Leaving -/

namespace Region

/-- The finally handler that runs when the region is left. -/
def exit (target pc : Nat) (r : Region) : Option Span :=
  if r.contains pc && !r.contains target then
    match r.finallyHandler with
    | some handler => if handler.span.contains pc then none else some handler.span
    | none => none
  else none

end Region

/-- The finally handlers of the regions that contain the position but not the target, innermost first, without those
    that contain the position themselves. -/
def Code.exited (c : Code) (pc target : Nat) : List Span :=
  ((c.regions.filter fun r => r.contains pc && !r.contains target).filterMap fun r => r.finallyHandler.map
    (·.span)).filter
    fun span => !span.contains pc

theorem Code.exited_eq (c : Code) (pc target : Nat) : c.exited pc target = c.regions.filterMap
    (Region.exit target pc) := by
  unfold exited
  induction c.regions with
  | nil => rfl
  | cons r rest ih =>
    rw [List.filterMap_cons, ← ih, Region.exit]
    cases hcond : r.contains pc && !r.contains target with
    | false => simp [hcond]
    | true =>
      cases hh : r.finallyHandler with
      | none => simp [hcond, hh]
      | some handler => cases hx : handler.span.contains pc <;> simp [hcond, hh, hx]

theorem walk_exit (regions : List Region) (target pc : Nat) : walk (fun _ => none) (Region.exit target pc) regions =
    (regions.filterMap (Region.exit target pc), none) := by
  induction regions with
  | nil => rfl
  | cons r rest ih =>
    rw [walk, ih, List.filterMap_cons]
    cases r.exit target pc <;> rfl

theorem local_exit (target : Nat) : Local (fun _ _ => none) (Region.exit target) where
  found {x r span} h := by
    unfold Region.exit at h
    split at h
    · rename_i hcond
      split at h
      · rename_i handler hh
        split at h
        · cases h
        · cases h
          exact ⟨(Bool.and_eq_true_iff.mp hcond).1, handler, hh, rfl⟩
      · cases h
    · cases h
  outside h := ⟨rfl, by rw [Region.exit, h]; rfl⟩
  ended _ hh hx := ⟨rfl, by simp [Region.exit, hh, hx]⟩
  confused {x y r} h := by
    refine ⟨rfl, ?_⟩
    rw [Region.exit, Region.exit, h.contains]
    cases hh : r.finallyHandler with
    | none => rfl
    | some handler => simp [h _ (Region.mem_blocks (List.mem_of_find?_eq_some hh))]

/-- Where a frame is when it has left: at the first handler that is left on the way, or at the target. -/
theorem leave_eq (f : Frame) (pc target : Nat) : f.leave pc target =
    match f.code.exited pc target with
    | span :: _ => { f with stack := [], pc := span.start, pending := ⟨span, .leaveTo target⟩ :: f.pending }
    | [] => { f with stack := [], pc := target } := by
  have hhead : Frame.exitedFinally? f.code.regions pc target = (f.code.exited pc target).head? := by
    rw [Code.exited_eq, List.head?_filterMap]
    rfl
  rw [Frame.leave, hhead]
  cases f.code.exited pc target <;> rfl

theorem through_leave (hsound : ∀ r ∈ c.regions, r.Sound c.ops) (hinside : c.regions.Pairwise Region.Inside)
    {target : Nat} {pending : List Pending} (hspans : c.exited pc target = spans) (hcode : f.code = c)
    (hpending : f.pending = pending) :
    Through p natives (.leaveTo target) (fun outcome => ∃ g w', outcome = (.ok (.running (g :: rest)), w') ∧
      g.code = c ∧ g.pc = target ∧ g.stack = [] ∧ g.pending = pending) spans
        (.ok (.running (f.leave pc target :: rest)), w) := by
  induction spans generalizing f w pc with
  | nil =>
    subst hcode hpending
    rw [leave_eq, hspans]
    exact ⟨_, w, rfl, rfl, rfl, rfl, rfl⟩
  | cons span spans ih =>
    subst hcode hpending
    rw [leave_eq, hspans]
    refine ⟨_, rest, w, f.pending, rfl, rfl, rfl, ?_⟩
    rintro g w' ⟨-, hcode, hpc, hpending⟩
    have hwalk := walk_exit f.code.regions target pc
    rw [← Code.exited_eq, hspans] at hwalk
    obtain ⟨r, hr, -, handler, -, hhandler, rfl⟩ := mem_walk (local_exit target) (mem_first hwalk)
    have hnext := walk_next (local_exit target) hsound hinside hwalk
    rw [walk_exit, ← Code.exited_eq, ← hpc] at hnext
    have hstep : (step p g).exec w' =
        (.ok (.next (({ g with pc := g.pc + 1, pending := f.pending } : Frame).leave g.pc target)), w') := by
      rw [step_closing hsound hr hhandler hcode hpc, endFinally]
      simp only [hpending]
      rfl
    rw [show (advance p natives (g :: rest)).exec w' = _ from Advances.of_next hstep]
    exact ih (Prod.mk.inj hnext).1 hcode rfl

/-- Leaving a body that was collected by requests. An operation that leaves goes where `Frame.leave` says, and from
    there, whatever the target is, the run goes through the finally handlers of the regions that are left, innermost
    first and each once. When the last of them is closed it goes on at the target, with the entries pending that were
    pending before. -/
theorem leaving_runs_finallies (hcode : f.code.Drafted) (p : Program) (natives : Natives) (rest : List Frame)
    (w : World) :
    (∀ label target, f.code.ops[f.pc]? = some (.plain (.leave label)) → f.code.labels[label.index]? = some target →
      (advance p natives (f :: rest)).exec w = (.ok (.running (f.leave f.pc target :: rest)), w)) ∧
    ∀ pc target, Through p natives (.leaveTo target)
      (fun outcome => ∃ g w', outcome = (.ok (.running (g :: rest)), w') ∧
        g.code = f.code ∧ g.pc = target ∧ g.stack = [] ∧ g.pending = f.pending)
      (f.code.exited pc target) (.ok (.running (f.leave pc target :: rest)), w) := by
  obtain ⟨hsound, hinside⟩ := hcode.layered
  refine ⟨fun label target hop htarget => Advances.of_next ?_, fun pc target =>
    through_leave hsound hinside rfl rfl rfl⟩
  rw [step, hop]
  simp only [opStep, Frame.target, htarget]
  rfl

/-- A region in the try block of another, both with a finally handler, and an operation that leaves both. -/
def doubleFinally : List Draft.Request :=
  [.defineLabel, .beginTry, .beginTry, .emit (.leave ⟨0⟩), .beginFinally, .emit (.op .nop), .endTry,
    .beginFinally, .endTry, .markLabel ⟨0⟩, .emit (.op .ret)]

/-- Two regions, one in the try block of the other, are left from the try block of the inner one. -/
theorem doubleFinally_leaves : ∃ f : Frame, f.code.Drafted ∧ f.code.exited 0 6 = [⟨2, 4⟩, ⟨5, 6⟩] ∧
    Through {} .standard (.leaveTo 6) (fun outcome => ∃ g w', outcome = (.ok (.running [g]), w') ∧
      g.code = f.code ∧ g.pc = 6 ∧
      g.stack = [] ∧ g.pending = f.pending) [⟨2, 4⟩, ⟨5, 6⟩] (.ok (.running [f.leave 0 6]), {}) := by
  obtain ⟨c, hc, hregions⟩ := exists_drafted doubleFinally
    [⟨⟨0, 2⟩, [⟨.finally, ⟨2, 4⟩⟩]⟩, ⟨⟨0, 5⟩, [⟨.finally, ⟨5, 6⟩⟩]⟩] (by decide +kernel)
  let f : Frame := { method := default, code := c, args := #[], locals := #[], returnsValue := false, onReturn := .discard }
  have hexited : f.code.exited 0 6 = [⟨2, 4⟩, ⟨5, 6⟩] := by
    show c.exited 0 6 = _
    rw [Code.exited, hregions]
    rfl
  have hthrough := (leaving_runs_finallies (f := f) hc {} .standard [] {}).2 0 6
  rw [hexited] at hthrough
  exact ⟨f, hc, hexited, hthrough⟩

/-! ## Exceptions -/

namespace Region

/-- The catch handler that takes what was thrown at the position: the first one for a supertype of it, if the position
    is in the try block. -/
def caught (p : Program) (thrown : Ty) (pc : Nat) (r : Region) : Option Nat :=
  if r.tried.contains pc then
    r.handlers.findSome? fun h =>
      match h.kind with
      | .catching type => if p.isSubtype thrown type then some h.span.start else none
      | .finally => none
  else none

/-- The finally handler that runs for a position in the try block or in a catch handler. -/
def crossed (pc : Nat) (r : Region) : Option Span :=
  if r.tried.contains pc || (r.handlerAt pc).any fun h => h.kind != .finally then r.finallyHandler.map
    (·.span) else none

end Region

theorem local_course (p : Program) (thrown : Ty) : Local (Region.caught p thrown) Region.crossed where
  found {x r span} h := by
    unfold Region.crossed at h
    split at h
    · rename_i hcond
      obtain ⟨handler, hh, rfl⟩ := Option.map_eq_some_iff.mp h
      refine ⟨?_, handler, hh, rfl⟩
      rw [Region.contains, Bool.or_eq_true]
      exact (Bool.or_eq_true_iff.mp hcond).imp_right fun hany => by
        cases hat : r.handlerAt x with
        | none => rw [hat] at hany; cases hany
        | some k => rfl
    · cases h
  outside {x r} h := by
    obtain ⟨htried, hat⟩ := Bool.or_eq_false_iff.mp h
    rw [Option.isSome_eq_false_iff, Option.isNone_iff_eq_none] at hat
    simp [Region.caught, Region.crossed, htried, hat]
  ended {x r handler ops} hr hh hx := by
    have hmem := List.mem_of_find?_eq_some hh
    have hkind : handler.kind = .finally := by simpa using List.find?_some hh
    simp [Region.caught, Region.crossed, hr.not_tried hmem hx, hr.handlerAt_eq hmem hx, hkind]
  confused {x y r} h := by simp only [Region.caught, Region.crossed, h.tried, h.handlerAt, and_self]

/-- The nearest handler is the first that the search comes to. -/
theorem handlerFor_eq (p : Program) (thrown : Ty) (pc : Nat) (regions : List Region) : handlerFor p thrown pc regions =
    match walk (Region.caught p thrown pc) (Region.crossed pc) regions with
    | (span :: _, _) => some (.finally span)
    | ([], stop) => stop.map .catching := by
  induction regions with
  | nil => rfl
  | cons r rest ih =>
    rw [handlerFor, walk, ih]
    cases htried : r.tried.contains pc with
    | true =>
      simp only [if_true]
      generalize hfound : List.findSome? _ r.handlers = found
      have hcaught : found = (r.caught p thrown pc).map .catching := by
        rw [← hfound, Region.caught, htried, if_pos rfl, List.map_findSome?]
        congr 1
        funext h
        cases hkind : h.kind with
        | catching type => cases hsub : p.isSubtype thrown type <;> simp [hkind, hsub]
        | «finally» => simp [hkind]
      rw [hcaught]
      cases r.caught p thrown pc with
      | some start => rfl
      | none => cases hh : r.finallyHandler <;> simp [Region.crossed, htried, hh]
    | false =>
      simp only [Bool.false_eq_true, if_false, Region.caught, Region.crossed, htried, Bool.false_or]
      cases r.handlerAt pc with
      | none => rfl
      | some handler =>
        obtain ⟨type | _, span⟩ := handler
        · cases r.finallyHandler <;> rfl
        · rfl

/-- An object that is thrown is on the heap. -/
def Value.On (h : Heap) : Value → Prop
  | .object address => address < h.objects.size
  | _ => True

instance : Heap.Lasting Heap.Extends := ⟨.refl, .trans, Heap.Change.extends⟩

/-- A value keeps its type. -/
theorem Value.On.later {h h' : Heap} (hv : v.On h) (hlater : h.Extends h') : v.On h' ∧ v.type h' = v.type h := by
  cases v with
  | object address => exact ⟨Nat.lt_of_lt_of_le hv hlater.size, (hlater.same address hv).1⟩
  | _ => exact ⟨hv, rfl⟩

/-- What an exception goes through, frame by frame from the position of the operation that each carried out last: the
    finally handlers, and the frame whose catch handler takes it, with the frames below. -/
def route (p : Program) (thrown : Ty) : List Frame → List Span × Option (Frame × Nat × List Frame)
  | [] => ([], none)
  | f :: rest =>
    match walk (Region.caught p thrown (f.pc - 1)) (Region.crossed (f.pc - 1)) f.code.regions with
    | (spans, some start) => (spans, some (f, start, rest))
    | (spans, none) => (spans ++ (route p thrown rest).1, (route p thrown rest).2)

/-- Where an exception ends up. -/
def Settled (v : Value) (stop : Option (Frame × Nat × List Frame)) (outcome : Outcome) : Prop :=
  match stop with
  | some (f, start, rest) =>
    ∃ g w, outcome = (.ok (.running (g :: rest)), w) ∧ g.code = f.code ∧ g.pc = start ∧ g.stack = [v] ∧
      g.pending = f.pending.filter fun entry => entry.within.contains start
  | none => ∃ w, outcome = (.error (.uncaught (describeException w.heap v)), w)

/-- What happens in one frame, and in the frames below if the exception is not caught there. -/
theorem through_frame (hsound : ∀ r ∈ c.regions, r.Sound c.ops) (hinside : c.regions.Pairwise Region.Inside)
    (hnatives : natives.Keep Heap.Extends) {pending : List Pending} {more : List Span}
    {done : Outcome → Prop}
    (hwalk : walk (Region.caught p thrown (f.pc - 1)) (Region.crossed (f.pc - 1)) c.regions = (spans, stop))
    (hcode : f.code = c) (hpending : f.pending = pending) (hon : v.On w.heap) (hthrown : v.type w.heap = thrown)
    (hrest : ∀ g w', g.code = c → g.pending = pending → v.On w'.heap → v.type w'.heap = thrown →
      handlerFor p thrown (g.pc - 1) c.regions = stop.map .catching →
      Through p natives (.rethrow v) done more (.running <$> unwind p w'.heap v (g :: rest), w')) :
    Through p natives (.rethrow v) done (spans ++ more) (.running <$> unwind p w.heap v (f :: rest), w) := by
  induction spans generalizing f w with
  | nil => exact hrest f w hcode hpending hon hthrown (by rw [handlerFor_eq, hwalk])
  | cons span spans ih =>
    subst hcode hpending hthrown
    have hhandler := handlerFor_eq p (v.type w.heap) (f.pc - 1) f.code.regions
    rw [hwalk] at hhandler
    rw [unwind, hhandler]
    refine ⟨_, rest, w, f.pending, rfl, rfl, rfl, ?_⟩
    intro g w' hfinishes
    obtain ⟨hon', htype⟩ := hon.later (hfinishes.1.keeps hnatives)
    obtain ⟨-, hcode, hpc, hpending⟩ := hfinishes
    obtain ⟨r, hr, -, handler, -, hh, rfl⟩ := mem_walk (local_course p _) (mem_first hwalk)
    have hnext := walk_next (local_course p _) hsound hinside hwalk
    have hstep : (step p g).exec w' = (.ok (.throw { g with pc := g.pc + 1, pending := f.pending } v), w') := by
      rw [step_closing hsound hr hh hcode hpc, endFinally]
      simp only [hpending]
      rfl
    rw [advance_throw hstep]
    refine ih (f := { g with pc := g.pc + 1, pending := f.pending }) ?_ hcode rfl hon' htype
    rw [← hnext, ← hpc]
    rfl

theorem through_route (hnatives : natives.Keep Heap.Extends) {frames : List Frame}
    (hcode : ∀ f ∈ frames, f.code.Drafted) (hon : v.On w.heap) (hthrown : v.type w.heap = thrown) :
    Through p natives (.rethrow v) (Settled v (route p thrown frames).2) (route p thrown frames).1
      (.running <$> unwind p w.heap v frames, w) := by
  induction frames generalizing w with
  | nil => exact ⟨w, rfl⟩
  | cons f rest ih =>
    obtain ⟨hf, hframes⟩ := List.forall_mem_cons.mp hcode
    obtain ⟨hsound, hinside⟩ := hf.layered
    rcases hwalk : walk (Region.caught p thrown (f.pc - 1)) (Region.crossed (f.pc - 1)) f.code.regions
      with ⟨spans, _ | start⟩
    · have hroute : route p thrown (f :: rest) = (spans ++ (route p thrown rest).1, (route p thrown rest).2) := by
        rw [route, hwalk]
      rw [hroute]
      refine through_frame hsound hinside hnatives hwalk rfl rfl hon hthrown fun g w' hgcode _ hon' hthrown'
        hhandler => ?_
      rw [unwind, hthrown', hgcode, hhandler]
      exact ih hframes hon' hthrown'
    · have hroute : route p thrown (f :: rest) = (spans ++ [], some (f, start, rest)) := by
        rw [route, hwalk, List.append_nil]
      rw [hroute]
      refine through_frame hsound hinside hnatives hwalk rfl rfl hon hthrown fun g w' hgcode hgpending _ hthrown'
        hhandler => ?_
      rw [← hgcode] at hhandler
      rw [unwind, hthrown', hhandler]
      exact ⟨_, w', rfl, hgcode, rfl, rfl, by rw [← hgpending]⟩

/-- An exception in bodies that were collected by requests, thrown by an operation or by a finally handler that is
    closed. The run goes through the finally handlers on the way to the nearest catch handler for a supertype of the
    exception, frame by frame and in each frame innermost first. When the last of them is closed the catch handler
    starts, with the exception as the only value on the stack and with those entries pending that it lies in; if there
    is none, the exception is reported. -/
theorem exceptions_reach_nearest_handler (hnatives : natives.Keep Heap.Extends) {v : Value} {frames : List Frame}
    (hcode : ∀ f ∈ frames, f.code.Drafted) (hon : v.On w.heap) (p : Program) :
    (∀ (f : Frame) (rest : List Frame) (stack : List Value), f.code.ops[f.pc]? = some (.plain (.op .throw)) →
      f.stack = v :: stack → v.isNull = false → frames = { f with pc := f.pc + 1, stack } :: rest →
      (advance p natives (f :: rest)).exec w = (.running <$> unwind p w.heap v frames, w)) ∧
    Through p natives (.rethrow v) (Settled v (route p (v.type w.heap) frames).2) (route p (v.type w.heap) frames).1
      (.running <$> unwind p w.heap v frames, w) := by
  refine ⟨?_, through_route hnatives hcode hon rfl⟩
  rintro f rest stack hop hstack hnull rfl
  refine advance_throw ?_
  rw [step, hop]
  simp only [opStep, opcodeStep, Frame.pop, hstack]
  show Act.exec (liftM (if v.isNull then _ else _)) w = _
  rw [hnull]
  rfl

/-- A method with a finally handler throws to a method with a catch handler for everything. -/
theorem thrown_text_is_caught : ∃ callee caller : Frame, callee.code.Drafted ∧ caller.code.Drafted ∧
    Through {} .standard (.rethrow (.str "lost")) (fun outcome => ∃ g w, outcome = (.ok (.running [g]), w) ∧
      g.code = caller.code ∧ g.pc = 2 ∧ g.stack = [.str "lost"] ∧ g.pending = []) [⟨2, 4⟩]
      (.running <$> unwind {} {} (.str "lost") [callee, caller], {}) := by
  obtain ⟨c, hc, hregions⟩ := exists_drafted
    [.beginTry, .emit (.op .throw), .beginFinally, .emit (.op .nop), .endTry]
    [⟨⟨0, 2⟩, [⟨.finally, ⟨2, 4⟩⟩]⟩] (by decide +kernel)
  obtain ⟨d, hd, hregions'⟩ := exists_drafted
    [.beginTry, .emit (.op .nop), .beginCatch .object, .emit (.op .pop), .endTry]
    [⟨⟨0, 2⟩, [⟨.catching .object, ⟨2, 4⟩⟩]⟩] (by decide +kernel)
  let frame (code : Code) : Frame :=
    { method := default, code, pc := 1, args := #[], locals := #[], returnsValue := false, onReturn := .discard }
  have hroute : route {} (Value.type {} (.str "lost")) [frame c, frame d] = ([⟨2, 4⟩], some (frame d, 2, [])) := by
    simp only [route, frame, hregions, hregions']
    rfl
  have hcode : ∀ f ∈ [frame c, frame d], f.code.Drafted := by simp [frame, hc, hd]
  have hthrough := (exceptions_reach_nearest_handler (w := {}) Natives.standard_keep
    (v := .str "lost") hcode trivial {}).2
  rw [hroute] at hthrough
  exact ⟨frame c, frame d, hc, hd, hthrough⟩

end Machine

end Stackwright
