import Mathlib.Order.FixedPoints
import Mathlib.Order.CompletePartialOrder
import Stackwright.Proofs.Schedule

/-
  Stackwright.Proofs.Stuck — what planning reports when there is no schedule.

  Of the tasks of a phase, those can run that need nothing but what earlier phases and tasks that
  can run make: the least fixed point of `enabled`. Draining a phase runs exactly these, whatever
  the order, so what is left over does not depend on how the ready tasks were picked.

  - `rescan_left`, `rescan_available`: a drained phase, against the least fixed point.
-/

namespace Stackwright

variable {i : Nat} {p : Placed} {left : List Placed} {e : BuildError}
variable {key : ItemKey} {t : Task}

namespace Task

/-! ## Tasks that can run -/

/-- The key is there once all phases before the given one and the tasks at the places have run. -/
def Supplied (tasks : List Task) (phase : Nat) (places : Set Nat) (key : ItemKey) : Prop :=
  (∃ t ∈ tasks, t.phase < phase ∧ key ∈ t.outputs) ∨ ∃ i ∈ places, ∃ t, tasks[i]? = some t ∧ key ∈ t.outputs

theorem Supplied.mono {tasks : List Task} {phase : Nat} {a b : Set Nat} (hab : a ≤ b) (h : Supplied tasks phase a key)
    : Supplied tasks phase b key :=
  h.imp id fun ⟨i, hi, hmade⟩ => ⟨i, hab hi, hmade⟩

/-- The tasks of a phase that need nothing but what earlier phases and the tasks at the places make. -/
def enabled (tasks : List Task) (phase : Nat) : Set Nat →o Set Nat where
  toFun places := {i | ∃ t, tasks[i]? = some t ∧ t.phase = phase ∧ ∀ key ∈ t.inputs, Supplied tasks phase places key}
  monotone' _ _ hab _ := fun ⟨t, ht, hphase, hinputs⟩ => ⟨t, ht, hphase, fun key hk => (hinputs key hk).mono hab⟩

/-- The tasks of a phase that can run once all earlier phases have. -/
def runnable (tasks : List Task) (phase : Nat) : Set Nat := (enabled tasks phase).lfp

variable {tasks : List Task} {phase n : Nat} {available : KeySet} {pending : List Placed}

theorem runnable_of_supplied (ht : tasks[i]? = some t) (hphase : t.phase = phase)
    (h : ∀ key ∈ t.inputs, Supplied tasks phase (runnable tasks phase) key) : i ∈ runnable tasks phase := by
  have hmem : i ∈ enabled tasks phase (runnable tasks phase) := ⟨t, ht, hphase, h⟩
  rwa [runnable, (enabled tasks phase).map_lfp] at hmem

theorem phase_of_runnable (hi : i ∈ runnable tasks phase) (ht : tasks[i]? = some t) : t.phase = phase := by
  rw [runnable, ← (enabled tasks phase).map_lfp] at hi
  obtain ⟨u, hu, hphase, -⟩ := hi
  rw [ht] at hu
  cases hu
  exact hphase

/-! ## Draining a phase -/

theorem rescan_left_of_next : p ∉ (rescan n available (without pending p.2)).left := fun h =>
  (mem_without.mp (rescan_left_sublist.subset h)).2 rfl

/-- What there is in the end was there, or was made by a task that ran. -/
theorem mem_rescan_available (hs : Sorted pending) : key ∈ (rescan n available pending).available ↔
    key ∈ available ∨ ∃ p ∈ pending, p ∉ (rescan n available pending).left ∧ key ∈ p.1.outputs := by
  induction n generalizing available pending with
  | zero =>
    refine ⟨.inl, fun h => h.elim id ?_⟩
    rintro ⟨p, hp, hleft, -⟩
    exact absurd hp hleft
  | succ n ih =>
    cases hf : pending.find? fun p => p.1.isReady available with
    | none =>
      simp only [rescan, hf]
      refine ⟨.inl, fun h => h.elim id ?_⟩
      rintro ⟨p, hp, hleft, -⟩
      exact absurd hp hleft
    | some p =>
      rw [rescan_succ hf]
      simp only [ih (hs.filter _), KeySet.mem_insertMany, Std.TreeSet.mem_toList]
      constructor
      · rintro ((hk | hk) | ⟨q, hq, hleft, hk⟩)
        · exact .inl hk
        · exact .inr ⟨p, List.mem_of_find?_eq_some hf, rescan_left_of_next, hk⟩
        · exact .inr ⟨q, (mem_without.mp hq).1, hleft, hk⟩
      · rintro (hk | ⟨q, hq, hleft, hk⟩)
        · exact .inl (.inl hk)
        · by_cases e : q.2 = p.2
          · obtain rfl := hs.eq_of_place hq (List.mem_of_find?_eq_some hf) e
            exact .inl (.inr hk)
          · exact .inr ⟨q, mem_without.mpr ⟨hq, e⟩, hleft, hk⟩

/-- Only tasks that can run do. -/
theorem rescan_runs_runnable (hpending : ∀ p ∈ pending, tasks[p.2]? = some p.1 ∧ p.1.phase = phase)
    (havailable : ∀ key ∈ available, Supplied tasks phase (runnable tasks phase) key) :
    ∀ p ∈ pending, p ∉ (rescan n available pending).left → p.2 ∈ runnable tasks phase := by
  induction n generalizing available pending with
  | zero => exact fun p hp hleft => absurd hp hleft
  | succ n ih =>
    cases hf : pending.find? fun p => p.1.isReady available with
    | none =>
      simp only [rescan, hf]
      exact fun p hp hleft => absurd hp hleft
    | some p =>
      obtain ⟨ht, hphase⟩ := hpending p (List.mem_of_find?_eq_some hf)
      have hready := List.find?_some hf
      rw [isReady_iff] at hready
      have hp : p.2 ∈ runnable tasks phase := runnable_of_supplied ht hphase fun key hk =>
        havailable key (hready key hk)
      rw [rescan_succ hf]
      intro q hq hleft
      by_cases e : q.2 = p.2
      · rwa [e]
      · refine ih (fun r hr => hpending r (mem_without.mp hr).1) (fun key hk => ?_) q (mem_without.mpr ⟨hq, e⟩) hleft
        rcases KeySet.mem_insertMany.mp hk with hk | hk
        · exact havailable key hk
        · exact .inr ⟨p.2, hp, p.1, ht, Std.TreeSet.mem_toList.mp hk⟩

theorem mem_ofPhase : p ∈ ofPhase tasks.zipIdx phase ↔ tasks[p.2]? = some p.1 ∧ p.1.phase = phase := by
  rw [ofPhase, List.mem_filter, mem_zipIdx, beq_iff_eq]

theorem ofPhase_place_inj {q : Placed} (hp : p ∈ ofPhase tasks.zipIdx phase) (hq : q ∈ ofPhase tasks.zipIdx phase)
    (h : p.2 = q.2) : p = q :=
  Sorted.eq_of_place ((sorted_zipIdx tasks).filter _) hp hq h

section

variable (havailable : ∀ key, key ∈ available ↔ ∃ t ∈ tasks, t.phase < phase ∧ key ∈ t.outputs)

include havailable

/-- The tasks that are left over are those that cannot run. -/
theorem rescan_left : p ∈ (firstPhase tasks available phase).left ↔
    p ∈ ofPhase tasks.zipIdx phase ∧ p.2 ∉ runnable tasks phase := by
  have hpending : ∀ q ∈ ofPhase tasks.zipIdx phase, tasks[q.2]? = some q.1 ∧ q.1.phase = phase := fun q hq =>
    mem_ofPhase.mp hq
  have hsub : (firstPhase tasks available phase).left ⊆ ofPhase tasks.zipIdx phase := rescan_left_sublist.subset
  -- What ran is closed under `enabled`: a task whose needs are met is not left over.
  have hclosed : enabled tasks phase {i | ∃ q ∈ ofPhase tasks.zipIdx phase, q.2 = i ∧ q ∉ (firstPhase tasks available
    phase).left} ≤
      {i | ∃ q ∈ ofPhase tasks.zipIdx phase, q.2 = i ∧ q ∉ (firstPhase tasks available phase).left} := by
    rintro i ⟨t, ht, hphase, hinputs⟩
    refine ⟨(t, i), mem_ofPhase.mpr ⟨ht, hphase⟩, rfl, fun hleft => ?_⟩
    have hblocked := rescan_left_blocked (Nat.le_refl _) _ hleft
    have hready : t.isReady (firstPhase tasks available phase).available := by
      refine isReady_iff.mpr fun key hk => (mem_rescan_available ((sorted_zipIdx tasks).filter _)).mpr ?_
      rcases hinputs key hk with hearlier | ⟨j, ⟨q, hq, rfl, hqleft⟩, u, hu, hku⟩
      · exact .inl ((havailable key).mpr hearlier)
      · rw [(hpending q hq).1] at hu
        cases hu
        exact .inr ⟨q, hq, hqleft, hku⟩
    exact absurd hready (by rw [firstPhase, hblocked]; exact Bool.false_ne_true)
  have hleast := (enabled tasks phase).lfp_le hclosed
  constructor
  · intro hp
    refine ⟨hsub hp, fun hrun => ?_⟩
    obtain ⟨q, hq, hqp, hqleft⟩ := hleast hrun
    rw [ofPhase_place_inj hq (hsub hp) hqp] at hqleft
    exact hqleft hp
  · rintro ⟨hp, hrun⟩
    by_contra hleft
    exact hrun (rescan_runs_runnable hpending (fun key hk => .inl ((havailable key).mp hk)) p hp hleft)

/-- What there is in the end is what earlier phases and the tasks that can run make. -/
theorem rescan_available : key ∈ (firstPhase tasks available phase).available ↔
    Supplied tasks phase (runnable tasks phase) key := by
  have hran {p : Placed} (hp : p ∈ ofPhase tasks.zipIdx phase) :
      p ∉ (firstPhase tasks available phase).left ↔ p.2 ∈ runnable tasks phase := by
    rw [rescan_left havailable, not_and, not_not]
    exact ⟨fun h => h hp, fun h _ => h⟩
  rw [firstPhase, mem_rescan_available ((sorted_zipIdx tasks).filter _), havailable]
  refine or_congr Iff.rfl ⟨?_, ?_⟩
  · rintro ⟨p, hp, hleft, hk⟩
    exact ⟨p.2, (hran hp).mp hleft, p.1, (mem_ofPhase.mp hp).1, hk⟩
  · rintro ⟨i, hi, t, ht, hk⟩
    have hp : (t, i) ∈ ofPhase tasks.zipIdx phase := mem_ofPhase.mpr ⟨ht, phase_of_runnable hi ht⟩
    exact ⟨(t, i), hp, (hran hp).mpr hi, hk⟩

end

/-! ## The first phase that cannot be completed -/

/-- All tasks of the phase can run once all earlier phases have. -/
def CanComplete (tasks : List Task) (phase : Nat) : Prop :=
  ∀ (i : Nat) (t : Task), tasks[i]? = some t → t.phase = phase → i ∈ runnable tasks phase

/-- The tasks of a phase that cannot run, in the order of their places. -/
structure LeftOver (tasks : List Task) (phase : Nat) (left : List Placed) : Prop where
  sorted : Sorted left
  mem : ∀ p, p ∈ left ↔ p ∈ ofPhase tasks.zipIdx phase ∧ p.2 ∉ runnable tasks phase

theorem LeftOver.nil_iff (h : LeftOver tasks phase left) : left = [] ↔ CanComplete tasks phase := by
  constructor
  · rintro rfl i t ht hphase
    by_contra hrun
    have hmem := (h.mem (t, i)).mpr ⟨mem_ofPhase.mpr ⟨ht, hphase⟩, hrun⟩
    cases hmem
  · intro hall
    refine List.eq_nil_iff_forall_not_mem.mpr fun p hp => ?_
    obtain ⟨hp, hrun⟩ := (h.mem p).mp hp
    obtain ⟨ht, hphase⟩ := mem_ofPhase.mp hp
    exact hrun (hall p.2 p.1 ht hphase)

/-- After a phase that can be completed there is all that it and earlier phases make. -/
theorem CanComplete.supplied_iff (h : CanComplete tasks phase) :
    Supplied tasks phase (runnable tasks phase) key ↔ ∃ t ∈ tasks, t.phase ≤ phase ∧ key ∈ t.outputs := by
  constructor
  · rintro (⟨t, ht, hless, hk⟩ | ⟨i, hi, t, ht, hk⟩)
    · exact ⟨t, ht, Nat.le_of_lt hless, hk⟩
    · exact ⟨t, List.mem_of_getElem? ht, Nat.le_of_eq (phase_of_runnable hi ht), hk⟩
  · rintro ⟨t, ht, hle, hk⟩
    rcases Nat.lt_or_eq_of_le hle with hless | hphase
    · exact .inl ⟨t, ht, hless, hk⟩
    · obtain ⟨i, hi⟩ := List.mem_iff_getElem?.mp ht
      exact .inr ⟨i, h i t hi hphase, t, hi, hk⟩

theorem rescanPhases_cons_error {phases : List Nat} (h : rescanPhases tasks available (phase :: phases) = .error e) :
    (firstPhase tasks available phase).left = [] ∧
        rescanPhases tasks (firstPhase tasks available phase).available phases = .error e ∨
      (firstPhase tasks available phase).left ≠ [] ∧ e = .scheduling phase
        ((firstPhase tasks available phase).left.map fun p => stuck tasks
          (firstPhase tasks available phase).available p.1) := by
  simp only [rescanPhases] at h
  change (if (firstPhase tasks available phase).left.isEmpty = true then
    rescanPhases tasks (firstPhase tasks available phase).available phases >>= _ else _) = _ at h
  split at h
  · rename_i hleft
    refine .inl ⟨List.isEmpty_iff.mp hleft, ?_⟩
    cases hrest : rescanPhases tasks (firstPhase tasks available phase).available phases with
    | ok order => rw [hrest] at h; cases h
    | error e' => rw [hrest] at h; cases h; rfl
  · rename_i hleft
    cases h
    exact .inr ⟨fun hnil => hleft (List.isEmpty_iff.mpr hnil), rfl⟩

/-- Planning stops at the first phase that cannot be completed, with what is left over there. -/
theorem rescanPhases_error {phases : List Nat} (hp : phases.Pairwise (· < ·))
    (hearlier : ∀ t ∈ tasks, t.phase ∉ phases → ∀ q ∈ phases, t.phase < q)
    (havailable : ∀ key, key ∈ available ↔ ∃ t ∈ tasks, t.phase ∉ phases ∧ key ∈ t.outputs)
    (h : rescanPhases tasks available phases = .error e) :
    ∃ phase made left, e = .scheduling phase (left.map fun p => stuck tasks made p.1) ∧ left ≠ [] ∧
      LeftOver tasks phase left ∧ (∀ key, key ∈ made ↔ Supplied tasks phase (runnable tasks phase) key) ∧
      ∀ q ∈ phases, q < phase → CanComplete tasks q := by
  induction phases generalizing available with
  | nil => cases h
  | cons phase phases ih =>
    obtain ⟨hlt, hp⟩ := List.pairwise_cons.mp hp
    -- Phases that are still to come are those that are not lower.
    have hlisted {t : Task} (ht : t ∈ tasks) : t.phase ∉ phase :: phases ↔ t.phase < phase := by
      refine ⟨fun hnot => hearlier t ht hnot phase List.mem_cons_self, fun hless hmem => ?_⟩
      rcases List.mem_cons.mp hmem with e | hmem
      · omega
      · have := hlt _ hmem
        omega
    have hrest {t : Task} (ht : t ∈ tasks) : t.phase ∉ phases ↔ t.phase ≤ phase := by
      refine ⟨fun hnot => ?_, fun hle hmem => ?_⟩
      · by_cases e : t.phase = phase
        · omega
        · have := (hlisted ht).mp (by simp [e, hnot])
          omega
      · have := hlt _ hmem
        omega
    have hbefore (key : ItemKey) : key ∈ available ↔ ∃ t ∈ tasks, t.phase < phase ∧ key ∈ t.outputs := by
      rw [havailable]
      exact exists_congr fun t => and_congr_right fun ht => and_congr_left fun _ => hlisted ht
    have hleft : LeftOver tasks phase (firstPhase tasks available phase).left :=
      ⟨((sorted_zipIdx tasks).filter _).sublist rescan_left_sublist, fun p => rescan_left hbefore⟩
    rcases rescanPhases_cons_error h with ⟨hnil, h⟩ | ⟨hne, rfl⟩
    · have hall := hleft.nil_iff.mp hnil
      have hsupply (key : ItemKey) : key ∈ (firstPhase tasks available phase).available ↔
          ∃ t ∈ tasks, t.phase ∉ phases ∧ key ∈ t.outputs := by
        rw [rescan_available hbefore, hall.supplied_iff]
        exact exists_congr fun t => and_congr_right fun ht => and_congr_left fun _ => (hrest ht).symm
      have hlow (t : Task) (ht : t ∈ tasks) (hnot : t.phase ∉ phases) (q : Nat) (hq : q ∈ phases) : t.phase < q := by
        have := (hrest ht).mp hnot
        have := hlt q hq
        omega
      obtain ⟨q, made, left, he, hne, hq, hmade, hbelow⟩ := ih hp hlow hsupply h
      refine ⟨q, made, left, he, hne, hq, hmade, fun r hr hrq => ?_⟩
      rcases List.mem_cons.mp hr with rfl | hr
      · exact hall
      · exact hbelow r hr hrq
    · refine ⟨phase, _, _, rfl, hne, hleft, fun key => rescan_available hbefore, fun q hq hless => ?_⟩
      rcases List.mem_cons.mp hq with rfl | hq
      · omega
      · have := hlt q hq
        omega

/-! ## What is reported -/

/-- Why a key is not there for the tasks of a phase of which those at the places are stuck. -/
structure Explains (tasks : List Task) (phase : Nat) (places : List Nat) (key : ItemKey) (reason : UnmetReason) :
    Prop where
  noProducer : reason = .noProducer ↔ ∀ t ∈ tasks, key ∉ t.outputs
  laterPhase : ∀ q, reason = .laterPhase q ↔ phase < q ∧ ∃ t ∈ tasks, t.phase = q ∧ key ∈ t.outputs
  blocked : reason = .blocked ↔ ∃ i ∈ places, ∃ t, tasks[i]? = some t ∧ key ∈ t.outputs

/-- The report on the task at a place: it lists, in order, what the task needs and cannot get. -/
structure Reports (tasks : List Task) (phase : Nat) (places : List Nat) (t : Task) (s : StuckStep) : Prop where
  description : s.description = t.description
  nonempty : s.unmet ≠ []
  sorted : (s.unmet.map (·.1)).Pairwise fun a b => a.order b = .lt
  keys : ∀ key, key ∈ s.unmet.map (·.1) ↔ key ∈ t.inputs ∧ ¬ Supplied tasks phase (runnable tasks phase) key
  reasons : ∀ key reason, (key, reason) ∈ s.unmet → Explains tasks phase places key reason

/-- With one maker for each key, the reason that is given is the one that applies. -/
theorem explains_unmetReason (hone : OneMaker tasks) (hleft : LeftOver tasks phase left)
    (hkey : ¬ Supplied tasks phase (runnable tasks phase) key) :
    Explains tasks phase (left.map (·.2)) key (unmetReason tasks phase key) := by
  have hplaces {i : Nat} {t : Task} (ht : tasks[i]? = some t) :
      i ∈ left.map (·.2) ↔ t.phase = phase ∧ i ∉ runnable tasks phase := by
    constructor
    · intro hi
      obtain ⟨p, hp, rfl⟩ := List.mem_map.mp hi
      obtain ⟨hp, hrun⟩ := (hleft.mem p).mp hp
      obtain ⟨ht', hphase⟩ := mem_ofPhase.mp hp
      rw [ht] at ht'
      cases ht'
      exact ⟨hphase, hrun⟩
    · rintro ⟨hphase, hrun⟩
      exact List.mem_map.mpr ⟨(t, i), (hleft.mem _).mpr ⟨mem_ofPhase.mpr ⟨ht, hphase⟩, hrun⟩, rfl⟩
  unfold unmetReason
  cases hfind : tasks.find? fun t => t.outputs.contains key with
  | none =>
    have hnone : ∀ t ∈ tasks, key ∉ t.outputs := fun t ht => by simpa using List.find?_eq_none.mp hfind t ht
    refine ⟨by simpa using hnone, fun q => ?_, ?_⟩
    · simp only [reduceCtorEq, false_iff]
      rintro ⟨-, t, ht, -, hk⟩
      exact hnone t ht hk
    · simp only [reduceCtorEq, false_iff]
      rintro ⟨i, -, t, ht, hk⟩
      exact hnone t (List.mem_of_getElem? ht) hk
  | some maker =>
    have hmaker := List.mem_of_find?_eq_some hfind
    have hmakes : key ∈ maker.outputs := by simpa using List.find?_some hfind
    obtain ⟨j, hj⟩ := List.mem_iff_getElem?.mp hmaker
    have honly {i : Nat} {t : Task} (ht : tasks[i]? = some t) (hk : key ∈ t.outputs) : i = j ∧ t = maker := by
      obtain rfl := hone i j t maker key ht hj hk hmakes
      rw [ht] at hj
      cases hj
      exact ⟨rfl, rfl⟩
    have hnot : ¬ ∀ t ∈ tasks, key ∉ t.outputs := fun hall => hall maker hmaker hmakes
    have hlow : ¬ maker.phase < phase := fun hless => hkey (.inl ⟨maker, hmaker, hless, hmakes⟩)
    by_cases hlater : maker.phase > phase
    · simp only [if_pos hlater]
      refine ⟨by simpa using hnot, fun q => ?_, ?_⟩
      · constructor
        · rintro h
          cases h
          exact ⟨hlater, maker, hmaker, rfl, hmakes⟩
        · rintro ⟨-, t, ht, rfl, hk⟩
          obtain ⟨i, hi⟩ := List.mem_iff_getElem?.mp ht
          rw [(honly hi hk).2]
      · simp only [reduceCtorEq, false_iff]
        rintro ⟨i, hi, t, ht, hk⟩
        have hphase := ((hplaces ht).mp hi).1
        rw [(honly ht hk).2] at hphase
        omega
    · simp only [if_neg hlater]
      refine ⟨by simpa using hnot, fun q => ?_, ?_⟩
      · simp only [reduceCtorEq, false_iff]
        rintro ⟨hless, t, ht, rfl, hk⟩
        obtain ⟨i, hi⟩ := List.mem_iff_getElem?.mp ht
        rw [(honly hi hk).2] at hless
        exact hlater hless
      · simp only [true_iff]
        exact ⟨j, (hplaces hj).mpr ⟨by omega, fun hrun => hkey (.inr ⟨j, hrun, maker, hj, hmakes⟩)⟩, maker, hj, hmakes⟩

theorem reports_stuck (hone : OneMaker tasks) (hleft : LeftOver tasks phase left) {made : KeySet}
    (hmade : ∀ key, key ∈ made ↔ Supplied tasks phase (runnable tasks phase) key) (hp : p ∈ left) :
    Reports tasks phase (left.map (·.2)) p.1 (stuck tasks made p.1) := by
  obtain ⟨hp, hrun⟩ := (hleft.mem p).mp hp
  obtain ⟨ht, hphase⟩ := mem_ofPhase.mp hp
  have hunmet (key : ItemKey) : key ∈ p.1.inputs.toList.filter (fun key => !made.contains key) ↔
      key ∈ p.1.inputs ∧ ¬ Supplied tasks phase (runnable tasks phase) key := by
    rw [List.mem_filter, Std.TreeSet.mem_toList, Bool.not_eq_true', ← Bool.not_eq_true,
      Std.TreeSet.contains_iff_mem, hmade]
  have hkeys : (stuck tasks made p.1).unmet.map (·.1) = p.1.inputs.toList.filter fun key => !made.contains key := by
    rw [stuck, List.map_map]
    exact List.map_id _
  refine ⟨rfl, fun hnil => ?_, ?_, fun key => by rw [hkeys, hunmet], fun key reason hmem => ?_⟩
  · -- A task that needs nothing more could run.
    rw [hnil, List.map_nil] at hkeys
    refine hrun (runnable_of_supplied ht hphase fun key hk => ?_)
    by_contra hsupplied
    have hmem := (hunmet key).mpr ⟨hk, hsupplied⟩
    rw [← hkeys] at hmem
    cases hmem
  · rw [hkeys]
    exact Std.TreeSet.ordered_toList.filter _
  · obtain ⟨_, hkey, heq⟩ := List.mem_map.mp hmem
    cases heq
    rw [hphase]
    exact explains_unmetReason hone hleft ((hunmet key).mp hkey).2

/-- When no key is made twice and there is no schedule, planning reports the first phase that cannot be completed, with
    its tasks that cannot run, by place, and what each of them waits for. -/
theorem plan_reports_stuck (tasks : List Task) (hone : OneMaker tasks) (hnone : ¬ ∃ order, Schedule tasks order) :
    ∃ phase reports places, plan tasks = .error (.scheduling phase reports) ∧
      ¬ CanComplete tasks phase ∧ (∀ q < phase, CanComplete tasks q) ∧
      places.Pairwise (· < ·) ∧
      (∀ i, i ∈ places ↔ (∃ t, tasks[i]? = some t ∧ t.phase = phase) ∧ i ∉ runnable tasks phase) ∧
      List.Forall₂ (fun i s => ∃ t, tasks[i]? = some t ∧ Reports tasks phase places t s) places reports := by
  have hplan := plan_eq_rescan (madeTwice?_eq_none_iff_oneMaker.mpr hone)
  cases h : rescanPhases tasks ∅ (phases tasks) with
  | ok order => exact absurd ⟨order, (plan_completes (hplan.trans h)).2⟩ hnone
  | error e =>
    have hlisted {t : Task} (ht : t ∈ tasks) : t.phase ∈ phases tasks := mem_phases.mpr ⟨t, ht, rfl⟩
    obtain ⟨phase, made, left, rfl, hne, hleft, hmade, hbelow⟩ := rescanPhases_error (phases_ascending tasks)
      (fun t ht hnot => absurd (hlisted ht) hnot)
      (fun key => by
        refine ⟨fun hk => absurd hk Std.TreeSet.not_mem_emptyc, ?_⟩
        rintro ⟨t, ht, hnot, -⟩
        exact absurd (hlisted ht) hnot) h
    refine ⟨phase, _, left.map (·.2), hplan.trans h, fun hall => hne (hleft.nil_iff.mpr hall),
      fun q hq i t ht hphase => ?_, List.pairwise_map.mpr hleft.sorted, fun i => ?_, ?_⟩
    · exact hbelow q (hphase ▸ hlisted (List.mem_of_getElem? ht)) hq i t ht hphase
    · constructor
      · intro hi
        obtain ⟨p, hp, rfl⟩ := List.mem_map.mp hi
        obtain ⟨hp, hrun⟩ := (hleft.mem p).mp hp
        exact ⟨⟨p.1, mem_ofPhase.mp hp⟩, hrun⟩
      · rintro ⟨⟨t, ht⟩, hrun⟩
        exact List.mem_map.mpr ⟨(t, i), (hleft.mem _).mpr ⟨mem_ofPhase.mpr ht, hrun⟩, rfl⟩
    · rw [List.forall₂_map_left_iff, List.forall₂_map_right_iff]
      exact List.forall₂_same.mpr fun p hp =>
        ⟨p.1, (mem_ofPhase.mp ((hleft.mem p).mp hp).1).1, reports_stuck hone hleft hmade hp⟩

/-- Two tasks of phase 1 wait for each other; one of them also waits for a later phase and for a key that nothing
    makes. -/
def deadlock : List Task :=
  [⟨0, "base", ∅, .ofList [key "A"] _⟩, ⟨1, "left", .ofList [key "A", key "C"] _, .ofList [key "B"] _⟩,
   ⟨1, "right", .ofList [key "B", key "D", key "E"] _, .ofList [key "C"] _⟩, ⟨1, "free", .ofList [key "A"] _, ∅⟩,
   ⟨2, "late", ∅, .ofList [key "D"] _⟩]
where
  key (name : String) : ItemKey := .type ⟨name⟩

theorem deadlock_reported : OneMaker deadlock ∧ (¬ ∃ order, Schedule deadlock order) ∧
    ∃ reports places, plan deadlock = .error (.scheduling 1 reports) ∧
      ¬ CanComplete deadlock 1 ∧ (∀ q < 1, CanComplete deadlock q) ∧ places.Pairwise (· < ·) ∧
      (∀ i, i ∈ places ↔ (∃ t, deadlock[i]? = some t ∧ t.phase = 1) ∧ i ∉ runnable deadlock 1) ∧
      List.Forall₂ (fun i s => ∃ t, deadlock[i]? = some t ∧ Reports deadlock 1 places t s) places reports := by
  have hone : OneMaker deadlock := by
    have hnone : (madeTwice? ∅ deadlock).isNone = true := by decide +kernel
    exact madeTwice?_eq_none_iff_oneMaker.mp (Option.isNone_iff_eq_none.mp hnone)
  have hphase : (match plan deadlock with | .error (.scheduling phase _) => phase | _ => 0) = 1 := by decide +kernel
  have hnone : ¬ ∃ order, Schedule deadlock order := by
    rintro ⟨order, h⟩
    obtain ⟨least, hplan, -⟩ := plan_least hone h
    rw [hplan] at hphase
    cases hphase
  obtain ⟨phase, reports, places, hplan, hrest⟩ := plan_reports_stuck deadlock hone hnone
  rw [hplan] at hphase
  obtain rfl : phase = 1 := hphase
  exact ⟨hone, hnone, reports, places, hplan, hrest⟩

end Task

end Stackwright
