import Stackwright.Proofs.Lasting

/-
  Stackwright.Proofs.Rendering — which values have a text.

  The text of a cell or a box is the text of what is inside, so looking for it ends unless there is a circle of cells
  on the way (`acc_iff_no_circle`). A run makes a circle only where an operation of it gives a cell a value that leads
  to this cell: all other rounds keep all ways finite (`ends_advance`).
-/

namespace Stackwright.Machine

open Relation (ReflTransGen TransGen)
open Value (Inside)

variable {h h' : Heap} {u v : Value} {a : Nat}

/-! ## Circles -/

theorem not_acc_of_circle (hcircle : TransGen (Inside h) v v) : ¬ Acc (Inside h) v := by
  intro hacc
  induction hacc.transGen with
  | intro v _ ih => exact ih v hcircle hcircle (acc_transGen_iff.mp (.intro v ‹_›))

/-- Following what is inside of the value, one comes to a value that is inside of itself. -/
def Heap.RunsInCircle (h : Heap) (v : Value) : Prop := ∃ u, ReflTransGen (Inside h) u v ∧ TransGen (Inside h) u u

open Classical in
/-- The cells that a value leads to. -/
noncomputable def Heap.below (h : Heap) (v : Value) : Finset Nat :=
  (Finset.range h.cells.size).filter fun a => ReflTransGen (Inside h) (.cell a) v

theorem Heap.mem_below : a ∈ h.below v ↔ a < h.cells.size ∧ ReflTransGen (Inside h) (.cell a) v := by
  simp [below]

theorem Heap.below_subset (hv : Inside h v u) : h.below v ⊆ h.below u := by
  intro a ha
  obtain ⟨ha, hleads⟩ := mem_below.mp ha
  exact mem_below.mpr ⟨ha, hleads.tail hv⟩

theorem acc_null : Acc (Inside h) .null := .intro _ fun v hv => by cases hv

/-- Without a circle each cell on the way is one that the rest of the way does not come back to, and a box is larger
    than what is inside. -/
theorem acc_of_card_below {n : Nat} (hn : (h.below v).card < n) (hcircle : ¬ h.RunsInCircle v) : Acc (Inside h) v := by
  have hdown {u v : Value} (hv : Inside h v u) (hu : ¬ h.RunsInCircle u) : ¬ h.RunsInCircle v :=
    fun ⟨x, hx, hback⟩ => hu ⟨x, hx.tail hv, hback⟩
  induction n generalizing v with
  | zero => omega
  | succ n ih =>
    induction v with
    | cell a =>
      refine .intro _ fun v hv => ?_
      have hrest := hdown hv hcircle
      have hsubset := Heap.below_subset hv
      cases hv
      by_cases ha : a < h.cells.size
      · have hself : a ∈ h.below (.cell a) := Heap.mem_below.mpr ⟨ha, .refl⟩
        have hgone : a ∉ h.below (h.cell a) := fun hback =>
          hcircle ⟨_, .refl, .tail' (Heap.mem_below.mp hback).2 (.cell a)⟩
        have hless := Finset.card_lt_card ((Finset.ssubset_iff_of_subset hsubset).mpr ⟨a, hself, hgone⟩)
        exact ih (by omega) hrest
      · have hnull : h.cell a = .null := by
          rw [Heap.cell, Array.getD_eq_getD_getElem?, Array.getElem?_eq_none (Nat.le_of_not_lt ha)]
          rfl
        exact hnull ▸ acc_null
    | boxed serial type content ihcontent =>
      refine .intro _ fun v hv => ?_
      have hrest := hdown hv hcircle
      have hle := Finset.card_le_card (Heap.below_subset hv)
      cases hv
      exact ihcontent (by omega) hrest
    | _ => exact .intro _ fun v hv => by cases hv

/-- Looking for the text of a value ends unless it runs in a circle. -/
theorem acc_iff_no_circle : Acc (Inside h) v ↔ ¬ h.RunsInCircle v := by
  refine ⟨fun hacc hcircle => ?_, acc_of_card_below (Nat.lt_succ_self _)⟩
  obtain ⟨u, hu, hback⟩ := hcircle
  induction hu with
  | refl => exact not_acc_of_circle hback hacc
  | tail _ hstep ih => exact ih (hacc.inv hstep)

/-! ## Changes of the heap -/

/-- Every value has a text. -/
def Heap.Ends (h : Heap) : Prop := WellFounded (Inside h)

/-- The values in `P` hold what they held before the change, or what has a text. -/
theorem Heap.Ends.acc (hends : h.Ends) (P : Value → Prop)
    (hstep : ∀ u v, P u → Inside h' v u → Acc (Inside h') v ∨ Inside h v u ∧ P v) (u : Value) (hu : P u) :
    Acc (Inside h') u := by
  induction hends.apply u with
  | intro u _ ih =>
    refine .intro u fun v hv => ?_
    rcases hstep u v hu hv with hacc | ⟨hbefore, hv⟩
    · exact hacc
    · exact ih v hbefore hv

theorem Heap.Ends.congr (hends : h.Ends) (hsame : ∀ b, h'.cell b = h.cell b) : h'.Ends := by
  refine ⟨fun u => hends.acc (fun _ => True) (fun u v _ hv => .inr ⟨?_, trivial⟩) u trivial⟩
  cases hv with
  | cell b => exact hsame b ▸ .cell b
  | boxed => exact .boxed ..

theorem inside_of_others (hothers : ∀ b ≠ a, h'.cell b = h.cell b) (hv : Inside h' v u) (hu : u ≠ .cell a) :
    Inside h v u := by
  cases hv with
  | cell b => exact hothers b (fun hb => hu (hb ▸ rfl)) ▸ .cell b
  | boxed => exact .boxed ..

/-- What leads to a cell leads to it still when this cell holds something else. -/
theorem leads_of_others (hothers : ∀ b ≠ a, h'.cell b = h.cell b) (hv : ReflTransGen (Inside h) (.cell a) v) :
    ReflTransGen (Inside h') (.cell a) v := by
  induction hv with
  | refl => exact .refl
  | @tail u v _ hstep ih =>
    by_cases hcell : v = .cell a
    · exact hcell ▸ .refl
    · exact ih.tail (inside_of_others (fun b hb => (hothers b hb).symm) hstep hcell)

/-- Where only one cell holds something else, texts still end, or there is a circle through the cell. -/
theorem Heap.Ends.write (hends : h.Ends) (hothers : ∀ b ≠ a, h'.cell b = h.cell b) :
    h'.Ends ∨ TransGen (Inside h') (.cell a) (.cell a) := by
  by_cases hback : ReflTransGen (Inside h) (.cell a) (h'.cell a)
  · exact .inr (.tail' (leads_of_others hothers hback) (.cell a))
  have hbefore {u v : Value} (hv : Inside h' v u) (hu : u ≠ .cell a) : Inside h v u := inside_of_others hothers hv hu
  have hnew : Acc (Inside h') (h'.cell a) := by
    refine hends.acc (fun u => ¬ ReflTransGen (Inside h) (.cell a) u) (fun u v hu hv => ?_) _ hback
    have hheld := hbefore hv fun heq => hu (heq ▸ .refl)
    exact .inr ⟨hheld, fun hleads => hu (hleads.tail hheld)⟩
  refine .inl ⟨fun u => hends.acc (fun _ => True) (fun u v _ hv => ?_) u trivial⟩
  by_cases hu : u = .cell a
  · subst hu
    cases hv
    exact .inl hnew
  · exact .inr ⟨hbefore hv hu, trivial⟩

theorem Heap.cell_newCell (h : Heap) (v : Value) (a : Nat) :
    (h.newCell v).2.cell a = if a = h.cells.size then v else h.cell a := by
  simp only [cell, newCell, Array.getD_eq_getD_getElem?, Array.getElem?_push]
  split <;> rfl

theorem Heap.cell_setCell (ha : a < h.cells.size) (v : Value) (c : Nat) :
    (h.setCell a v).cell c = if c = a then v else h.cell c := by
  unfold cell setCell
  simp only [Array.getD_eq_getD_getElem?]
  by_cases hc : c = a
  · subst hc
    rw [if_pos rfl, Array.getElem?_setIfInBounds_self_of_lt ha]
    rfl
  · rw [if_neg hc, Array.getElem?_setIfInBounds_ne (Ne.symm hc)]

/-- Cells that were never made hold nothing. -/
theorem Heap.ends_empty : ({} : Heap).Ends := by
  refine ⟨fun u => ?_⟩
  induction u with
  | cell a =>
    refine .intro _ fun v hv => ?_
    cases hv
    simpa [Heap.cell] using acc_null
  | boxed serial type content ih =>
    refine .intro _ fun v hv => ?_
    cases hv
    exact ih
  | _ => exact .intro _ fun v hv => by cases hv

instance : Heap.Steady fun h h' => h.Ends → h'.Ends where
  refl _ := id
  trans hab hbc hends := hbc (hab hends)
  change _ hcells hends := hends.congr fun b => by rw [Heap.cell, Heap.cell, hcells]

/-! ## Rounds -/

/-- The next operation of the frame puts a value into a cell. -/
inductive Frame.Puts (f : Frame) (h : Heap) : Nat → Value → Heap → Prop
  | store {type a v rest} : f.code.ops[f.pc]? = some (.plain (.typeOp .storeCell type)) →
    f.stack = v :: .cell a :: rest →
      a < h.cells.size → Puts f h a v (h.setCell a v)
  | make {type v rest} : f.code.ops[f.pc]? = some (.plain (.typeOp .newCell type)) → f.stack = v :: rest →
      Puts f h h.cells.size v (h.newCell v).2

theorem Frame.Puts.closes {f : Frame} (hputs : f.Puts h a v h') (hends : h.Ends) :
    h'.Ends ∨ TransGen (Inside h') (.cell a) (.cell a) := by
  cases hputs with
  | store _ _ ha =>
    refine hends.write fun b hb => ?_
    rw [Heap.cell_setCell ha, if_neg hb]
  | make =>
    refine hends.write fun b hb => ?_
    rw [Heap.cell_newCell, if_neg hb]

theorem world_advance_typeOp {p : Program} {natives : Natives} {f : Frame} {o : TypeOp} {type : Ty}
    (hop : f.code.ops[f.pc]? = some (.plain (.typeOp o type))) (rest : List Frame) (w : World) :
    ((advance p natives (f :: rest)).exec w).2 = ((typeStep p { f with pc := f.pc + 1 } o type).exec w).2 := by
  have hstep : step p f = Flow.next <$> typeStep p { f with pc := f.pc + 1 } o type := by
    rw [step, hop]
    rfl
  rw [advance, Act.exec_bind, hstep, Act.exec_map]
  rcases (typeStep p { f with pc := f.pc + 1 } o type).exec w with ⟨r, w'⟩
  cases r <;> rfl

/-- What is put into a cell is on the stack; a cell that was never made keeps nothing. -/
theorem puts_of_typeStep {p : Program} {f : Frame} {o : TypeOp} {type : Ty}
    (hop : f.code.ops[f.pc]? = some (.plain (.typeOp o type))) (ho : o.puts) (w : World) :
    ((typeStep p { f with pc := f.pc + 1 } o type).exec w).2.heap = w.heap ∨
      ∃ a v, f.Puts w.heap a v ((typeStep p { f with pc := f.pc + 1 } o type).exec w).2.heap := by
  cases hstack : f.stack with
  | nil =>
    left
    simp only [typeStep, Frame.pop]
    rfl
  | cons v rest =>
    cases o with
    | newCell =>
      right
      refine ⟨w.heap.cells.size, v, ?_⟩
      simp only [typeStep, Frame.pop]
      exact .make hop hstack
    | storeCell =>
      simp only [typeStep, Frame.pop]
      cases rest with
      | nil => exact .inl rfl
      | cons target rest =>
        cases target with
        | cell a =>
          by_cases ha : a < w.heap.cells.size
          · exact .inr ⟨a, v, .store hop hstack ha⟩
          · left
            show w.heap.setCell a v = w.heap
            rw [Heap.setCell, Array.setIfInBounds_eq_of_size_le (Nat.le_of_not_lt ha)]
        | _ => exact .inl rfl
    | _ => cases ho

/-- After a round every value still has a text, unless an operation has closed a circle. -/
theorem ends_advance {natives : Natives} (hnatives : natives.Keep fun h h' => h.Ends → h'.Ends) (p : Program)
    (frames : List Frame) {w : World} (hends : w.heap.Ends) :
    ((advance p natives frames).exec w).2.heap.Ends ∨
      ∃ f rest a v, frames = f :: rest ∧ f.Puts w.heap a v ((advance p natives frames).exec w).2.heap ∧
        TransGen (Inside ((advance p natives frames).exec w).2.heap) (.cell a) (.cell a) := by
  by_cases hputs : ∃ f ∈ frames.head?, f.IsPutting
  · obtain ⟨f, hf, o, type, hop, ho⟩ := hputs
    obtain ⟨rest, rfl⟩ := List.head?_eq_some_iff.mp hf
    rw [world_advance_typeOp hop]
    rcases puts_of_typeStep hop ho w with hsame | ⟨a, v, hputs⟩
    · exact .inl (hsame ▸ hends)
    · exact (hputs.closes hends).imp_right fun hcircle => ⟨f, rest, a, v, rfl, hputs, hcircle⟩
  · exact .inl (keeps_advance hnatives p frames (fun f hf hput => absurd ⟨f, hf, hput⟩ hputs) w hends)

/-! ## Runs -/

/-- The frames and the world after a round. There are no frames when nothing is left to do. -/
def Progress.after : Except Fault Progress × World → List Frame × World
  | (.ok (.running frames), w) => (frames, w)
  | (_, w) => ([], w)

@[simp] theorem Progress.after_world (r : Except Fault Progress × World) : (after r).2 = r.2 := by
  unfold after
  split <;> rfl

namespace Loaded

variable {m : Loaded} {frames : List Frame} {w : World} {s t : List Frame × World}

/-- The work that runs start with. -/
inductive Begins (m : Loaded) : Act Call → Prop
  | call (id : MethodId) (args : List Value) :
      Begins m (pure { method := id, args, onReturn := m.program.onReturnOf id, tail := false })
  | construct (ctor : MethodId) (args : List Value) : Begins m (m.program.construction ctor args)

/-- A round of a run, or the start of another one. -/
inductive Round (m : Loaded) : List Frame × World → List Frame × World → Prop
  | start {frames w prepare} : m.Begins prepare →
      Round m (frames, w) (Progress.after ((prepare >>= invoke m.program m.natives []).exec w))
  | advance (frames : List Frame) (w : World) :
      Round m (frames, w) (Progress.after ((Machine.advance m.program m.natives frames).exec w))

/-- Any number of rounds. -/
abbrev Rounds (m : Loaded) : List Frame × World → List Frame × World → Prop := ReflTransGen m.Round

theorem rounds_runFrames (m : Loaded) (fuel : Nat) (frames : List Frame) (w : World) :
    ∃ left, m.Rounds (frames, w) (left, (runFrames m.program m.natives fuel frames w).2) := by
  induction fuel generalizing frames w with
  | zero => exact ⟨frames, .refl⟩
  | succ fuel ih =>
    have hround : m.Round (frames, w) _ := .advance frames w
    rw [runFrames]
    split <;> rename_i hadvance <;> rw [hadvance] at hround
    · obtain ⟨left, hrest⟩ := ih ..
      exact ⟨left, .head hround hrest⟩
    · exact ⟨[], .single hround⟩
    · exact ⟨[], .single hround⟩

/-- Calling a method and making an object are rounds. -/
theorem Begins.rounds {prepare : Act Call} (hbegins : m.Begins prepare) (fuel : Nat) (frames : List Frame) (w : World) :
    ∃ left, m.Rounds (frames, w) (left, (m.start fuel prepare w).2) := by
  have hround : m.Round (frames, w) _ := .start hbegins
  unfold start
  dsimp only
  split <;> rename_i hinvoke <;> rw [hinvoke] at hround
  · obtain ⟨left, hrest⟩ := m.rounds_runFrames fuel ..
    exact ⟨left, .head hround hrest⟩
  · exact ⟨[], .single hround⟩
  · exact ⟨[], .single hround⟩

/-- In one round an operation puts a value into a cell, and from then on the cell leads to itself. -/
def Closes (m : Loaded) (s t : List Frame × World) : Prop :=
  ∃ f rest a v, s.1 = f :: rest ∧ t = Progress.after ((Machine.advance m.program m.natives s.1).exec s.2) ∧
    f.Puts s.2.heap a v t.2.heap ∧ TransGen (Inside t.2.heap) (.cell a) (.cell a)

theorem Round.ends {p : Program} (hround : (Loaded.mk p .standard).Round s t) (hends : s.2.heap.Ends) :
    t.2.heap.Ends ∨ (Loaded.mk p .standard).Closes s t := by
  have hnatives : Natives.standard.Keep fun h h' => h.Ends → h'.Ends := Natives.standard_keep
  cases hround with
  | start hbegins =>
    rw [Progress.after_world]
    refine .inl (Act.Keeps.bind ?_ (keeps_invoke hnatives p []) _ hends)
    cases hbegins with
    | call => exact .pure _
    | construct ctor args => exact keeps_construction p ctor args
  | advance frames w =>
    simp only [Closes, Progress.after_world]
    refine (ends_advance hnatives p frames hends).imp_right fun ⟨f, rest, a, v, hframes, hputs, hcircle⟩ => ?_
    exact ⟨f, rest, a, v, hframes, trivial, hputs, hcircle⟩

theorem Rounds.ends {p : Program} (hrounds : (Loaded.mk p .standard).Rounds s t) (hends : s.2.heap.Ends) :
    t.2.heap.Ends ∨
      ∃ x y, (Loaded.mk p .standard).Rounds s x ∧ (Loaded.mk p .standard).Closes x y ∧
        (Loaded.mk p .standard).Rounds y t := by
  induction hrounds with
  | refl => exact .inl hends
  | @tail b c hfirst hlast ih =>
    rcases ih with hends | ⟨x, y, hx, hcloses, hy⟩
    · exact (hlast.ends hends).imp_right fun hcloses => ⟨b, c, hfirst, hcloses, .refl⟩
    · exact .inr ⟨x, y, hx, hcloses, hy.tail hlast⟩

end Loaded

/-- Looking for the text of a value ends, in the middle of a run and after it, until a round puts a value into a cell
    and the cell then leads to itself. It ends exactly where it does not run in a circle, and then a cell or a box has
    the text of what it holds. -/
theorem Loaded.rendering_ends_without_circles {p : Program} {frames : List Frame} {w : World}
    (hw : (Loaded.mk p .standard).Rounds ([], {}) (frames, w)) :
    ((∀ v, Acc (Inside w.heap) v) ∨ ∃ s t, (Loaded.mk p .standard).Rounds ([], {}) s ∧
      (Loaded.mk p .standard).Closes s t ∧ (Loaded.mk p .standard).Rounds t (frames, w)) ∧
    (∀ v, Acc (Inside w.heap) v ↔ ¬ w.heap.RunsInCircle v) ∧
    ∀ u v, Acc (Inside w.heap) u → Inside w.heap v u → u.text w.heap = v.text w.heap := by
  refine ⟨(Rounds.ends hw Heap.ends_empty).imp_left WellFounded.apply, fun v => acc_iff_no_circle,
    fun u v hacc hv => ?_⟩
  unfold Value.text Value.render
  rw [WellFounded.partialExtrinsicFix_eq_apply_of_acc hacc]
  cases hv <;> rfl

/-- A method that puts a cell into itself and returns it. -/
def wrapsItself : Module where
  types := [{ key := ⟨"Program"⟩, members := [.method
    { name := "run", attributes := { isStatic := true }, returnType := .cell .object
      body := .code [] ⟨[⟨.named "c", .cell .object⟩], [.loadNull, .typeOp .newCell .object, .storeLocal (.named "c"),
        .loadLocal (.named "c"), .loadLocal (.named "c"), .typeOp .storeCell .object, .loadLocal (.named "c"),
          .op .ret]⟩ }] }]

namespace wrapsItself

def program : Program := BuildState.program ((wrapsItself.build machine ∅ {}).exec ⟨{}, {}⟩).2

/-- The answer of the method, and what there is afterwards. -/
def answer := Loaded.call ⟨program, .standard⟩ 10 ⟨0, "Program::run"⟩ [] {}

/-- The method has returned a cell that holds itself. -/
def returnsCircle : Bool :=
  match answer with
  | (some (.ok (.cell 0)), w) =>
    match w.heap.cell 0 with
    | .cell 0 => true
    | _ => false
  | _ => false

theorem returns : answer.1 = some (.ok (.cell 0)) ∧ answer.2.heap.cell 0 = .cell 0 := by
  have hreturns : returnsCircle = true := by decide +kernel
  unfold returnsCircle at hreturns
  split at hreturns
  · rename_i w hanswer
    rw [hanswer]
    split at hreturns
    · rename_i hcell
      exact ⟨rfl, hcell⟩
    · cases hreturns
  · cases hreturns

theorem circle : TransGen (Inside answer.2.heap) (.cell 0) (.cell 0) := by
  have hinside : Inside answer.2.heap (answer.2.heap.cell 0) (.cell 0) := .cell 0
  rw [returns.2] at hinside
  exact .single hinside

/-- The method returns, and one of its rounds has closed a circle. -/
theorem closes_circle : answer.1 = some (.ok (.cell 0)) ∧ ∃ left s t, (Loaded.mk program .standard).Rounds ([], {}) s ∧
    (Loaded.mk program .standard).Closes s t ∧ (Loaded.mk program .standard).Rounds t (left, answer.2) := by
  obtain ⟨left, hrounds⟩ := (Loaded.Begins.call (m := ⟨program, .standard⟩) ⟨0, "Program::run"⟩ []).rounds 10 [] {}
  obtain ⟨hends | ⟨s, t, hs, hcloses, ht⟩, -, -⟩ := Loaded.rendering_ends_without_circles hrounds
  · exact absurd (hends _) (not_acc_of_circle circle)
  · exact ⟨returns.1, left, s, t, hs, hcloses, ht⟩

/-- Looking for the text of the cell that the method returns never ends. -/
theorem result_has_no_text : answer.1 = some (.ok (.cell 0)) ∧ ¬ Acc (Inside answer.2.heap) (.cell 0) :=
  ⟨returns.1, not_acc_of_circle circle⟩

end wrapsItself

end Stackwright.Machine
