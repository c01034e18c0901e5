import Stackwright.Proofs.Layouts

/-
  Stackwright.Proofs.Regions — protected regions are well nested.

  A region's blocks are its try block and its handlers. While a region is open its finished blocks
  are known, and so is where the block that is being collected starts; the end of that block is
  only known when the next one begins. Regions that were closed before lie in front of an open
  one, in one of its finished blocks, or behind the start of the block that is being collected.
-/

namespace Stackwright.Machine

variable {r : Region} {op : Op}

/-! ## Spans and blocks -/

namespace Span

/-- All of the first span lies in the second. -/
def Within (s t : Span) : Prop := t.start ≤ s.start ∧ s.stop ≤ t.stop

/-- All of the first span lies in the second, and does not end with it. -/
def Under (s t : Span) : Prop := t.start ≤ s.start ∧ s.stop < t.stop

/-- One span ends before the other starts. -/
def Apart (s t : Span) : Prop := s.stop ≤ t.start ∨ t.stop ≤ s.start

/-- The spans lead from one position to another without a gap, and none of them is empty. -/
def Consecutive : Nat → List Span → Nat → Prop
  | first, [], last => first = last
  | first, s :: ss, last => s.start = first ∧ first < s.stop ∧ Consecutive s.stop ss last

theorem Consecutive.concat {ss : List Span} {first middle last : Nat} (h : Consecutive first ss middle)
    (hlt : middle < last) :
    Consecutive first (ss ++ [⟨middle, last⟩]) last := by
  induction ss generalizing first with
  | nil =>
    cases h
    exact ⟨rfl, hlt, rfl⟩
  | cons s ss ih => exact ⟨h.1, h.2.1, ih h.2.2⟩

end Span

namespace Region

/-- The try block and the handlers. -/
def blocks (r : Region) : List Span := r.tried :: r.handlers.map (·.span)

/-- From the start of the try block to the end of the last block. -/
def whole (r : Region) : Span := ⟨r.tried.start, (r.blocks.getLastD r.tried).stop⟩

/-- A region with handlers whose blocks follow one another. Each finally handler ends with the operation that
    resumes what it interrupted. -/
structure Sound (ops : Array Op) (r : Region) : Prop where
  handled : r.handlers ≠ []
  consecutive : Span.Consecutive r.tried.start r.blocks r.whole.stop
  finallies : ∀ h ∈ r.handlers, h.kind = .finally → ops[h.span.stop - 1]? = some .endFinally

/-- The regions have nothing in common, or the first lies in a single block of the second. -/
def Nested (r q : Region) : Prop := r.whole.Apart q.whole ∨ ∃ b ∈ q.blocks, r.whole.Within b

/-- The first region comes before the operation that ends the block. -/
def Inside (r q : Region) : Prop := r.whole.Apart q.whole ∨ ∃ b ∈ q.blocks, r.whole.Under b

theorem Inside.nested {q : Region} (h : r.Inside q) : r.Nested q :=
  h.imp_right fun ⟨b, hb, hunder⟩ => ⟨b, hb, hunder.1, Nat.le_of_lt hunder.2⟩

theorem Sound.push {ops : Array Op} (h : r.Sound ops) (op : Op) : r.Sound (ops.push op) where
  handled := h.handled
  consecutive := h.consecutive
  finallies handler hmem hkind := Program.getElem?_push_of_some (h.finallies handler hmem hkind)

end Region

/-- Labels lead into the body or to its end, and its regions are well nested. -/
structure Code.WellNested (c : Code) : Prop where
  labels : ∀ pc ∈ c.labels, pc ≤ c.ops.size
  sound : ∀ r ∈ c.regions, r.Sound c.ops
  nested : c.regions.Pairwise Region.Nested

/-! ## Open regions -/

namespace OpenRegion

/-- Where the block starts that is being collected. -/
def begun (o : OpenRegion) : Nat :=
  match o.handlers with
  | [] => o.start
  | last :: _ => last.span.start

/-- The blocks that were collected. -/
def done (o : OpenRegion) : List Span :=
  match o.handlers with
  | [] => []
  | _ :: earlier => ⟨o.start, o.tryEnd.getD 0⟩ :: earlier.reverse.map (·.span)

/-- One more handler, behind the block that ends at the position. -/
def begin (o : OpenRegion) (kind : HandlerKind) (pc : Nat) : OpenRegion :=
  { o.close pc with handlers := { kind, span := ⟨pc, pc⟩ } :: (o.close pc).handlers }

/-- The region with its last block ended at the position. -/
def sealed (o : OpenRegion) (pc : Nat) : Region := (o.close pc).finish pc

/-- An open region whose finished blocks follow one another. -/
structure Sound (ops : Array Op) (o : OpenRegion) : Prop where
  tried : o.tryEnd.isSome = !o.handlers.isEmpty
  consecutive : Span.Consecutive o.start o.done o.begun
  reached : o.begun ≤ ops.size
  finallies : ∀ h ∈ o.handlers.tail, h.kind = .finally → ops[h.span.stop - 1]? = some .endFinally

variable {ops : Array Op} {o : OpenRegion}

theorem sealed_blocks (h : o.tryEnd.isSome = !o.handlers.isEmpty) (pc : Nat) :
    (o.sealed pc).blocks = o.done ++ [⟨o.begun, pc⟩] := by
  obtain ⟨start, tryEnd, endLabel, handlers⟩ := o
  cases handlers with
  | nil =>
    cases tryEnd with
    | none => rfl
    | some e => cases h
  | cons last earlier =>
    cases tryEnd with
    | none => cases h
    | some e => simp [sealed, close, finish, Region.blocks, done, begun]

theorem sealed_whole (h : o.tryEnd.isSome = !o.handlers.isEmpty) (pc : Nat) : (o.sealed pc).whole = ⟨o.start, pc⟩ := by
  rw [Region.whole, sealed_blocks h, List.getLastD_concat]
  rfl

theorem begun_begin (o : OpenRegion) (kind : HandlerKind) (pc : Nat) : (o.begin kind pc).begun = pc := rfl

/-- Handlers are those that were finished before and the last one, which ends now. -/
theorem mem_close {h : Handler} {pc : Nat} (hmem : h ∈ (o.close pc).handlers) :
    h ∈ o.handlers.tail ∨ h.span.stop = pc ∧ (h.kind = .finally → o.inFinally) := by
  obtain ⟨start, tryEnd, endLabel, handlers⟩ := o
  cases handlers with
  | nil => cases hmem
  | cons last earlier =>
    rcases List.mem_cons.mp hmem with rfl | hmem
    · exact .inr ⟨rfl, fun hkind => by simpa [inFinally] using hkind⟩
    · exact .inl hmem

/-- The block that is being collected ends behind the operation that is put last. -/
theorem Sound.finallies_close (h : o.Sound ops) (hop : o.inFinally → op = .endFinally) :
    ∀ handler ∈ (o.close (ops.size + 1)).handlers, handler.kind = .finally →
      (ops.push op)[handler.span.stop - 1]? = some .endFinally := by
  intro handler hmem hkind
  rcases mem_close hmem with hmem | ⟨hstop, hfinally⟩
  · exact Program.getElem?_push_of_some (h.finallies handler hmem hkind)
  · rw [hstop, Nat.add_sub_cancel, Array.getElem?_push_size, hop (hfinally hkind)]

theorem Sound.consecutive_sealed (h : o.Sound ops) :
    Span.Consecutive o.start (o.sealed (ops.size + 1)).blocks (ops.size + 1) := by
  rw [sealed_blocks h.tried]
  exact h.consecutive.concat (Nat.lt_succ_of_le h.reached)

theorem Sound.push (h : o.Sound ops) (op : Op) : o.Sound (ops.push op) where
  tried := h.tried
  consecutive := h.consecutive
  reached := Nat.le_trans h.reached (by simp)
  finallies handler hmem hkind := Program.getElem?_push_of_some (h.finallies handler hmem hkind)

theorem Sound.begin (h : o.Sound ops) (hop : o.inFinally → op = .endFinally) (kind : HandlerKind) :
    (o.begin kind (ops.size + 1)).Sound (ops.push op) where
  tried := rfl
  consecutive := h.consecutive_sealed
  reached := by simp [begun_begin]
  finallies := h.finallies_close hop

theorem Sound.sealed (h : o.Sound ops) (hop : o.inFinally → op = .endFinally) (hne : o.handlers ≠ []) :
    (o.sealed (ops.size + 1)).Sound (ops.push op) where
  handled := by
    obtain ⟨start, tryEnd, endLabel, handlers⟩ := o
    cases handlers with
    | nil => exact (hne rfl).elim
    | cons last earlier => simp [OpenRegion.sealed, close, finish]
  consecutive := by
    rw [sealed_whole h.tried]
    exact h.consecutive_sealed
  finallies handler hmem := h.finallies_close hop handler (List.mem_reverse.mp hmem)

/-- A closed region in front of an open one, in one of its finished blocks, or in the block that is being collected. -/
def Meets (r : Region) (o : OpenRegion) : Prop :=
  r.whole.stop ≤ o.start ∨ (∃ b ∈ o.done, r.whole.Under b) ∨ o.begun ≤ r.whole.start

/-- When the block that is being collected ends, the regions in it are in a block. -/
theorem Meets.nested {pc : Nat} (h : o.Meets r) (ho : o.tryEnd.isSome = !o.handlers.isEmpty)
    (hr : r.whole.stop < pc) : r.whole.stop ≤ o.start ∨ ∃ b ∈ (o.sealed pc).blocks, r.whole.Under b := by
  rw [sealed_blocks ho]
  rcases h with hbefore | ⟨b, hb, hunder⟩ | hbehind
  · exact .inl hbefore
  · exact .inr ⟨b, List.mem_append_left _ hb, hunder⟩
  · exact .inr ⟨_, List.mem_append_right _ (List.mem_singleton_self _), hbehind, hr⟩

end OpenRegion

/-! ## Requests -/

namespace Draft

/-- What can be asked of a draft. -/
inductive Request where
  | defineLabel
  | markLabel (label : LabelId)
  | declareLocal (type : Ty)
  | beginTry
  | beginCatch (type : Ty)
  | beginFinally
  | endTry
  | emit (op : Stackwright.Op handles)

def Request.perform : Request → Effect Draft Unit
  | .defineLabel => do
    let _ ← machine.defineLabel
  | .markLabel label => machine.markLabel label
  | .declareLocal type => do
    let _ ← machine.declareLocal type
  | .beginTry => do
    let _ ← machine.beginTry
  | .beginCatch type => machine.beginCatch type
  | .beginFinally => machine.beginFinally
  | .endTry => machine.endTry
  | .emit op => machine.emit op

def performAll : List Request → Effect Draft Unit
  | [] => pure ()
  | request :: requests => do
    request.perform
    performAll requests

/-- What every request preserves. -/
structure Orderly (d : Draft) : Prop where
  labels : ∀ pc, some pc ∈ d.labels → pc ≤ d.ops.size
  sound : ∀ r ∈ d.regions, r.Sound d.ops ∧ r.whole.stop ≤ d.ops.size
  nested : d.regions.toList.Pairwise Region.Inside
  opened : ∀ o ∈ d.opened, o.Sound d.ops ∧ ∀ r ∈ d.regions, o.Meets r
  /-- An inner region starts in the block that its outer region collects. -/
  inside : d.opened.Pairwise fun inner outer => outer.begun ≤ inner.start

variable {d d' : Draft}

theorem of_leaveBlock (h : leaveBlock.exec d = (.ok (), d')) : ∃ o outer last, d.opened = o :: outer ∧
    (o.inFinally → last = .endFinally) ∧
    d' = { d with ops := d.ops.push last, opened := o.close (d.ops.size + 1) :: outer } := by
  obtain ⟨_, _, hget, h⟩ := Effect.exec_bind_ok.mp h
  cases hget
  split at h
  · cases h
  · rename_i o outer hopened
    cases h
    refine ⟨o, outer, if o.inFinally then .endFinally else .plain (.leave o.endLabel), hopened,
      fun hfinally => if_pos hfinally, ?_⟩
    rw [Array.size_push]

theorem of_beginHandler {kind : HandlerKind} (h : (beginHandler kind).exec d = (.ok (), d')) : ∃ o outer last,
    d.opened = o :: outer ∧ (o.inFinally → last = .endFinally) ∧
    d' = { d with ops := d.ops.push last, opened := o.begin kind (d.ops.size + 1) :: outer } := by
  obtain ⟨_, d₁, hleave, h⟩ := Effect.exec_bind_ok.mp h
  obtain ⟨o, outer, last, hopened, hlast, rfl⟩ := of_leaveBlock hleave
  cases h
  refine ⟨o, outer, last, hopened, hlast, ?_⟩
  simp only [OpenRegion.begin, pc, Array.size_push]

theorem of_endTry (h : endTry.exec d = (.ok (), d')) : ∃ o outer last, d.opened = o :: outer ∧ o.handlers ≠ [] ∧
    (o.inFinally → last = .endFinally) ∧
    d' = { d with
      ops := d.ops.push last
      opened := outer
      labels := d.labels.setIfInBounds o.endLabel.index (some (d.ops.size + 1))
      regions := d.regions.push (o.sealed (d.ops.size + 1)) } := by
  obtain ⟨_, _, hget, h⟩ := Effect.exec_bind_ok.mp h
  cases hget
  split at h
  · cases h
  · rename_i o outer hopened
    split at h
    · cases h
    · rename_i hhandlers
      obtain ⟨_, d₁, hleave, h⟩ := Effect.exec_bind_ok.mp h
      obtain ⟨o', outer', last, hopened', hlast, rfl⟩ := of_leaveBlock hleave
      cases hopened.symm.trans hopened'
      cases h
      refine ⟨o, outer, last, hopened, fun hnil => hhandlers (by rw [hnil]; rfl), hlast, ?_⟩
      simp only [OpenRegion.sealed, pc, Array.size_push, OpenRegion.close]

/-! ### What one request preserves -/

namespace Orderly

theorem empty : Orderly {} := ⟨by simp, by simp, .nil, by simp, .nil⟩

/-- Another operation is put at the end. -/
theorem push (h : d.Orderly) (op : Op) : Orderly { d with ops := d.ops.push op } where
  labels pc hpc := Nat.le_trans (h.labels pc hpc) (by simp)
  sound r hr := ⟨(h.sound r hr).1.push op, Nat.le_trans (h.sound r hr).2 (by simp)⟩
  nested := h.nested
  opened o ho := ⟨(h.opened o ho).1.push op, (h.opened o ho).2⟩
  inside := h.inside

/-- Labels that are added or placed. -/
theorem relabel (h : d.Orderly) {labels : Array (Option Nat)}
    (hlabels : ∀ pc, some pc ∈ labels → some pc ∈ d.labels ∨ pc ≤ d.ops.size) : Orderly { d with labels } :=
  { h with labels := fun pc hpc => (hlabels pc hpc).elim (h.labels pc) id }

theorem defineLabel (h : d.Orderly) : Orderly { d with labels := d.labels.push none } :=
  h.relabel fun pc hpc => .inl (by simpa using hpc)

theorem place (h : d.Orderly) (index : Nat) : Orderly { d with labels := d.labels.setIfInBounds index (some d.pc) } :=
  h.relabel fun pc hpc => by
    rcases Array.mem_or_eq_of_mem_setIfInBounds hpc with hold | hnew
    · exact .inl hold
    · exact .inr (Nat.le_of_eq (Option.some.inj hnew))

theorem beginTry (h : d.Orderly) (label : LabelId) :
    Orderly { d with opened := { start := d.pc, endLabel := label } :: d.opened } where
  labels := h.labels
  sound := h.sound
  nested := h.nested
  opened o ho := by
    rcases List.mem_cons.mp ho with rfl | ho
    · exact ⟨⟨rfl, rfl, Nat.le_refl _, by simp⟩, fun r hr => .inl (h.sound r hr).2⟩
    · exact h.opened o ho
  inside := List.pairwise_cons.mpr ⟨fun o ho => (h.opened o ho).1.reached, h.inside⟩

variable {o : OpenRegion} {outer : List OpenRegion} {last : Op}

theorem beginHandler (h : d.Orderly) (hopened : d.opened = o :: outer) (hlast : o.inFinally → last = .endFinally)
    (kind : HandlerKind) :
    Orderly { d with ops := d.ops.push last, opened := o.begin kind (d.ops.size + 1) :: outer } where
  labels := (h.push last).labels
  sound := (h.push last).sound
  nested := h.nested
  opened q hq := by
    have hpushed := (h.push last).opened
    rw [hopened] at hpushed
    rcases List.mem_cons.mp hq with rfl | hq
    · obtain ⟨ho, hmeets⟩ := h.opened o (hopened ▸ List.mem_cons_self)
      refine ⟨ho.begin hlast kind, fun r hr => ?_⟩
      rcases (hmeets r hr).nested ho.tried (Nat.lt_succ_of_le (h.sound r hr).2) with hbefore | hblock
      · exact .inl hbefore
      · exact .inr (.inl hblock)
    · exact hpushed q (List.mem_cons_of_mem _ hq)
  inside := by
    have hinside := h.inside
    rw [hopened] at hinside
    exact List.pairwise_cons.mpr (List.pairwise_cons.mp hinside)

theorem endTry (h : d.Orderly) (hopened : d.opened = o :: outer) (hlast : o.inFinally → last = .endFinally)
    (hne : o.handlers ≠ []) :
    Orderly { d with
      ops := d.ops.push last
      opened := outer
      labels := d.labels.setIfInBounds o.endLabel.index (some (d.ops.size + 1))
      regions := d.regions.push (o.sealed (d.ops.size + 1)) } := by
  obtain ⟨ho, hmeets⟩ := h.opened o (hopened ▸ List.mem_cons_self)
  have hinside := h.inside
  rw [hopened] at hinside
  have hwhole := OpenRegion.sealed_whole ho.tried (d.ops.size + 1)
  refine ⟨fun pc hpc => ?_, fun r hr => ?_, ?_, fun q hq => ?_, hinside.of_cons⟩
  · rw [Array.size_push]
    rcases Array.mem_or_eq_of_mem_setIfInBounds hpc with hold | hnew
    · exact Nat.le_succ_of_le (h.labels pc hold)
    · exact Nat.le_of_eq (Option.some.inj hnew)
  · rcases Array.mem_push.mp hr with hr | rfl
    · exact (h.push last).sound r hr
    · refine ⟨ho.sealed hlast hne, ?_⟩
      simp [hwhole]
  · rw [Array.toList_push, List.pairwise_append]
    refine ⟨h.nested, List.pairwise_singleton _ _, fun r hr q hq => ?_⟩
    rw [List.mem_singleton.mp hq]
    have hr := Array.mem_toList_iff.mp hr
    rcases (hmeets r hr).nested ho.tried (Nat.lt_succ_of_le (h.sound r hr).2) with hbefore | hblock
    · exact .inl (.inl (by rwa [hwhole]))
    · exact .inr hblock
  · obtain ⟨hq', hqmeets⟩ := h.opened q (hopened ▸ List.mem_cons_of_mem _ hq)
    refine ⟨hq'.push last, fun r hr => ?_⟩
    rcases Array.mem_push.mp hr with hr | rfl
    · exact hqmeets r hr
    · right; right
      rw [hwhole]
      exact (List.pairwise_cons.mp hinside).1 q hq

/-- One request keeps a draft orderly. -/
theorem perform (h : d.Orderly) {request : Request} (hrun : request.perform.exec d = (.ok (), d')) : d'.Orderly := by
  cases request with
  | defineLabel =>
    cases hrun
    exact h.defineLabel
  | markLabel label =>
    obtain ⟨_, _, hget, hrun⟩ := Effect.exec_bind_ok.mp hrun
    cases hget
    split at hrun
    · cases hrun
      exact h.place label.index
    · cases hrun
    · cases hrun
  | declareLocal type =>
    cases hrun
    exact ⟨h.labels, h.sound, h.nested, h.opened, h.inside⟩
  | beginTry =>
    cases hrun
    exact h.defineLabel.beginTry _
  | beginCatch type | beginFinally =>
    obtain ⟨o, outer, last, hopened, hlast, rfl⟩ := of_beginHandler hrun
    exact h.beginHandler hopened hlast _
  | endTry =>
    obtain ⟨o, outer, last, hopened, hne, hlast, rfl⟩ := of_endTry hrun
    exact h.endTry hopened hlast hne
  | emit op =>
    obtain ⟨_, _, hget, hrun⟩ := Effect.exec_bind_ok.mp hrun
    cases hget
    split at hrun
    · cases hrun
    · cases hrun
      exact h.push _

/-- Requests that all succeed keep a draft orderly. -/
theorem performAll (h : d.Orderly) {requests : List Request} (hrun : (performAll requests).exec d = (.ok (), d')) :
    d'.Orderly := by
  induction requests generalizing d with
  | nil =>
    cases hrun
    exact h
  | cons request requests ih =>
    obtain ⟨_, d₁, hfirst, hrest⟩ := Effect.exec_bind_ok.mp hrun
    exact ih (h.perform hfirst) hrest

end Orderly

/-! ## Finished bodies -/

/-- All labels have been placed. -/
theorem of_placed {labels : List (Option Nat)} : ∀ {index : Nat} {places : List Nat}, placed index labels = .ok places →
    labels = places.map some := by
  induction labels with
  | nil =>
    intro index places h
    cases h
    rfl
  | cons label labels ih =>
    intro index places h
    cases label with
    | none => cases h
    | some pc =>
      obtain ⟨more, hmore, h⟩ := except_bind_ok.mp h
      cases h
      rw [ih hmore, List.map_cons]

/-- Whatever is asked of an empty draft, when all of it succeeds and the draft can be finished, the body is well
    nested: the blocks of each region follow one another and none is empty, finally handlers end as they have to,
    labels lead into the body or to its end, and of two regions the one that comes first lies apart from the other or
    in one of its blocks. -/
theorem finish_wellNested {requests : List Request} {d : Draft} {code : Code}
    (hrun : (performAll requests).exec {} = (.ok (), d)) (hfinish : d.finish = .ok code) : code.WellNested := by
  have h : d.Orderly := Orderly.empty.performAll hrun
  unfold finish at hfinish
  split at hfinish
  · obtain ⟨places, hplaces, hfinish⟩ := except_bind_ok.mp hfinish
    cases hfinish
    refine ⟨fun pc hpc => h.labels pc ?_, fun r hr => (h.sound r (Array.mem_toList_iff.mp hr)).1,
      h.nested.imp Region.Inside.nested⟩
    rw [← Array.mem_toList_iff, of_placed hplaces]
    exact List.mem_map_of_mem (List.mem_toArray.mp hpc)
  · cases hfinish

/-- A region with a finally handler in the try block of another, whose handler has a region of its own. -/
def nestedRegions : List Request :=
  [.beginTry, .beginTry, .emit (.op .nop), .beginFinally, .endTry, .beginCatch .object, .emit (.op .pop), .beginTry,
    .beginCatch .object, .beginFinally, .endTry, .endTry, .emit (.op .ret)]

theorem nestedRegions_wellNested : ∃ d code, (performAll nestedRegions).exec {} = (.ok (), d) ∧ d.finish = .ok code ∧
    code.regions.map Region.whole = [⟨0, 3⟩, ⟨5, 8⟩, ⟨0, 9⟩] ∧ code.WellNested := by
  have hwhole : ((performAll nestedRegions).exec {}).2.finish.toOption.map (·.regions.map Region.whole) =
      some [⟨0, 3⟩, ⟨5, 8⟩, ⟨0, 9⟩] := by decide +kernel
  have hok : ((performAll nestedRegions).exec {}).1.isOk = true := by decide +kernel
  rcases hrun : (performAll nestedRegions).exec {} with ⟨answer, d⟩
  rw [hrun] at hwhole hok
  cases answer with
  | error e => cases hok
  | ok u =>
    cases hfinish : d.finish with
    | error e => simp [hfinish, Except.toOption] at hwhole
    | ok code =>
      simp only [hfinish, Except.toOption, Option.map_some, Option.some.injEq] at hwhole
      exact ⟨d, code, rfl, hfinish, hwhole, finish_wellNested hrun hfinish⟩

end Draft

end Stackwright.Machine
