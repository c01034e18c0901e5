import Stackwright.Proofs.Worklist

/-
  Stackwright.Proofs.Schedule — planning finds the least schedule, or there is none.

  A schedule is a permutation of the tasks' places along which phases never decrease and
  every input is made strictly earlier. `Completes` says the same one task at a time: which
  task may come next depends on what is available and on what is still pending. Its exchange
  law (`Completes.front`) moves any task that may run to the front, so picking the first ready
  task never loses a schedule and never makes the order larger.

  - `rescan_completes` / `rescan_least`: what one phase of planning gives.
  - `schedule_iff_completes`: schedules are what completes all tasks.
-/

namespace Stackwright

variable {key : ItemKey} {a available b : KeySet} {t : Task} {p : Placed} {n phase : Nat}
variable {pending : List Placed} {order : List Nat} {tasks : List Task}

namespace Task

/-- Some task at one of the places makes the key. -/
def Makes (tasks : List Task) (places : List Nat) (key : ItemKey) : Prop :=
  ∃ i ∈ places, ∃ t, tasks[i]? = some t ∧ key ∈ t.outputs

/-- The phase of the first place is at most that of the second. -/
def PhaseLE (tasks : List Task) (i j : Nat) : Prop :=
  ∀ t u, tasks[i]? = some t → tasks[j]? = some u → t.phase ≤ u.phase

/-- An order in which all tasks can run. -/
structure Schedule (tasks : List Task) (order : List Nat) : Prop where
  perm : order.Perm (List.range tasks.length)
  ascending : order.Pairwise (PhaseLE tasks)
  fed : ∀ before i after t, order = before ++ i :: after → tasks[i]? = some t →
    ∀ key ∈ t.inputs, Makes tasks before key

/-- No key is made by two tasks. -/
def OneMaker (tasks : List Task) : Prop :=
  ∀ (i j : Nat) (t u : Task) (key : ItemKey), tasks[i]? = some t → tasks[j]? = some u →
    key ∈ t.outputs → key ∈ u.outputs → i = j

/-- Lexicographic order on sequences of places. -/
def AtMost : List Nat → List Nat → Prop
  | [], _ => True
  | _ :: _, [] => False
  | i :: order, j :: other => i < j ∨ i = j ∧ AtMost order other

/-! ## One task at a time -/

/-- A pending task that may run now: it is ready and no pending task has a lower phase. -/
structure Next (available : KeySet) (pending : List Placed) (p : Placed) : Prop where
  mem : p ∈ pending
  ready : p.1.isReady available = true
  low : ∀ q ∈ pending, p.1.phase ≤ q.1.phase

/-- The pending tasks can run in this order. -/
def Completes : KeySet → List Placed → List Nat → Prop
  | _, pending, [] => pending = []
  | available, pending, i :: order =>
    ∃ p, Next available pending p ∧ p.2 = i ∧ Completes (afterRun available p) (without pending i) order

theorem isReady_mono (h : ∀ key ∈ a, key ∈ b) (ht : t.isReady a) : t.isReady b :=
  isReady_iff.mpr fun key hk => h key (isReady_iff.mp ht key hk)

theorem afterRun_mono (h : ∀ key ∈ a, key ∈ b) (p : Placed) : ∀ key ∈ afterRun a p, key ∈ afterRun b p := by
  intro key hk
  rcases KeySet.mem_insertMany.mp hk with hk | hk
  · exact KeySet.mem_insertMany.mpr (.inl (h key hk))
  · exact KeySet.mem_insertMany.mpr (.inr hk)

theorem mem_afterRun (p : Placed) : ∀ key ∈ a, key ∈ afterRun a p :=
  fun _ hk => KeySet.mem_insertMany.mpr (.inl hk)

theorem without_comm (pending : List Placed) (i j : Nat) :
    without (without pending i) j = without (without pending j) i := by
  simp only [without, List.filter_filter, Bool.and_comm]

theorem Sorted.eq_of_place (hs : Sorted pending) {q : Placed} (hp : p ∈ pending) (hq : q ∈ pending) (h : p.2 = q.2) :
    p = q := by
  induction hs with
  | nil => cases hp
  | cons hlt _ ih =>
    rcases List.mem_cons.mp hp with rfl | hp' <;> rcases List.mem_cons.mp hq with rfl | hq'
    · rfl
    · have := hlt q hq'; omega
    · have := hlt p hp'; omega
    · exact ih hp' hq'

theorem Next.mono (hab : ∀ key ∈ a, key ∈ b) (h : Next a pending p) {place : Nat} (hne : p.2 ≠ place) :
    Next b (without pending place) p :=
  ⟨mem_without.mpr ⟨h.mem, hne⟩, isReady_mono hab h.ready, fun q hq => h.low q (mem_without.mp hq).1⟩

theorem Completes.mono (hab : ∀ key ∈ a, key ∈ b) (h : Completes a pending order) : Completes b pending order := by
  induction order generalizing a b pending with
  | nil => exact h
  | cons i order ih =>
    obtain ⟨p, hp, rfl, hrest⟩ := h
    exact ⟨p, ⟨hp.mem, isReady_mono hab hp.ready, hp.low⟩, rfl, ih (afterRun_mono hab p) hrest⟩

/-- Exchange: a task that may run now can be moved to the front of any order. -/
theorem Completes.front (hs : Sorted pending) (h : Completes available pending order) (hp : Next available pending p) :
    Completes (afterRun available p) (without pending p.2) (order.erase p.2) := by
  induction order generalizing available pending with
  | nil => rw [Completes] at h; subst h; cases hp.mem
  | cons i order ih =>
    obtain ⟨q, hq, rfl, hrest⟩ := h
    by_cases e : p.2 = q.2
    · obtain rfl := hs.eq_of_place hp.mem hq.mem e
      rw [List.erase_cons_head]
      exact hrest
    · rw [List.erase_cons_tail (by simpa using Ne.symm e)]
      have hp' : Next (afterRun available q) (without pending q.2) p := hp.mono (mem_afterRun q) e
      have hq' : Next (afterRun available p) (without pending p.2) q := hq.mono (mem_afterRun p) (Ne.symm e)
      refine ⟨q, hq', rfl, ?_⟩
      rw [without_comm]
      refine (ih (hs.filter _) hrest hp').mono fun key hk => ?_
      simp only [KeySet.mem_insertMany] at hk ⊢
      rcases hk with (hk | hk) | hk
      · exact .inl (.inl hk)
      · exact .inr hk
      · exact .inl (.inr hk)

/-! ## One phase -/

/-- The pending tasks of a phase. -/
abbrev ofPhase (pending : List Placed) (phase : Nat) : List Placed := pending.filter fun p => p.1.phase == phase

/-- The pending tasks of all other phases. -/
abbrev otherPhases (pending : List Placed) (phase : Nat) : List Placed :=
  pending.filter fun p => p.1.phase != phase

theorem ofPhase_without (pending : List Placed) (phase place : Nat) :
    ofPhase (without pending place) phase = without (ofPhase pending phase) place := by
  simp only [ofPhase, without, List.filter_filter, Bool.and_comm]

theorem otherPhases_without (hs : Sorted pending) (hp : p ∈ ofPhase pending phase) :
    otherPhases (without pending p.2) phase = otherPhases pending phase := by
  simp only [otherPhases, without, List.filter_filter]
  refine List.filter_congr fun q hq => ?_
  obtain ⟨hp, hphase⟩ := List.mem_filter.mp hp
  by_cases e : q.2 = p.2
  · obtain rfl := hs.eq_of_place hq hp e
    simp_all
  · simp [e]

theorem otherPhases_eq_self (h : ofPhase pending phase = []) : otherPhases pending phase = pending := by
  refine List.filter_eq_self.mpr fun p hp => ?_
  have := List.filter_eq_nil_iff.mp h p hp
  simpa using this

/-- A phase that leaves nothing over has run all its tasks, in an order in which they can run. -/
theorem rescan_completes (hs : Sorted pending) (low : ∀ p ∈ pending, phase ≤ p.1.phase)
    (hleft : (rescan n available (ofPhase pending phase)).left = []) {rest : List Nat}
    (hrest : Completes (rescan n available (ofPhase pending phase)).available (otherPhases pending phase) rest) :
    Completes available pending ((rescan n available (ofPhase pending phase)).order ++ rest) := by
  induction n generalizing available pending with
  | zero =>
    simp only [rescan] at hleft hrest ⊢
    rwa [otherPhases_eq_self hleft] at hrest
  | succ n ih =>
    cases hf : (ofPhase pending phase).find? fun p => p.1.isReady available with
    | none =>
      simp only [rescan, hf] at hleft hrest ⊢
      rwa [otherPhases_eq_self hleft] at hrest
    | some p =>
      have hp := List.mem_of_find?_eq_some hf
      have hready := List.find?_some hf
      rw [rescan_succ hf] at hleft hrest ⊢
      simp only [← ofPhase_without] at hleft hrest ⊢
      rw [← otherPhases_without hs hp] at hrest
      obtain ⟨hmem, hphase⟩ := List.mem_filter.mp hp
      refine ⟨p, ⟨hmem, hready, fun q hq => ?_⟩, rfl, ?_⟩
      · have := low q hq
        simp only [beq_iff_eq] at hphase
        omega
      · exact ih (hs.filter _) (fun q hq => low q (mem_without.mp hq).1) hleft hrest

/-- When the pending tasks can run in some order, a phase leaves nothing over, and what it
    runs is the least start of such an order. -/
theorem rescan_least (hs : Sorted pending) (low : ∀ p ∈ pending, phase ≤ p.1.phase)
    (hn : (ofPhase pending phase).length ≤ n) (h : Completes available pending order) :
    (rescan n available (ofPhase pending phase)).left = [] ∧
      ∃ rest, Completes (rescan n available (ofPhase pending phase)).available (otherPhases pending phase) rest ∧
        ∀ more, AtMost more rest → AtMost ((rescan n available (ofPhase pending phase)).order ++ more) order := by
  induction n generalizing available pending order with
  | zero =>
    have hnil : ofPhase pending phase = [] := List.eq_nil_of_length_eq_zero (by omega)
    simp only [rescan, hnil, otherPhases_eq_self hnil]
    exact ⟨trivial, order, h, fun more hm => hm⟩
  | succ n ih =>
    cases hf : (ofPhase pending phase).find? fun p => p.1.isReady available with
    | none =>
      -- A task of the phase would make the head of `order` one of them, and it is ready.
      have hnil : ofPhase pending phase = [] := by
        rcases hmem : ofPhase pending phase with _ | ⟨m, ms⟩
        · rfl
        have hm : m ∈ ofPhase pending phase := by rw [hmem]; exact List.mem_cons_self
        obtain ⟨hmp, hmphase⟩ := List.mem_filter.mp hm
        cases order with
        | nil => rw [Completes] at h; subst h; cases hmp
        | cons i order =>
          obtain ⟨q, hq, -, -⟩ := h
          have hqm := hq.low m hmp
          have hlow := low q hq.mem
          simp only [beq_iff_eq] at hmphase
          have hqin : q ∈ ofPhase pending phase :=
            List.mem_filter.mpr ⟨hq.mem, by simp only [beq_iff_eq]; omega⟩
          exact absurd hq.ready (by simpa using List.find?_eq_none.mp hf q hqin)
      simp only [rescan, hf, otherPhases_eq_self hnil]
      exact ⟨hnil, order, h, fun more hm => hm⟩
    | some p =>
      have hp := List.mem_of_find?_eq_some hf
      obtain ⟨hmem, hphase⟩ := List.mem_filter.mp hp
      simp only [beq_iff_eq] at hphase
      have hready := List.find?_some hf
      have hnext : Next available pending p :=
        ⟨hmem, hready, fun q hq => by have := low q hq; omega⟩
      have hlen : (ofPhase (without pending p.2) phase).length ≤ n := by
        rw [ofPhase_without]
        have : (without (ofPhase pending phase) p.2).length < (ofPhase pending phase).length :=
          List.length_filter_lt_length_iff_exists.mpr ⟨p, hp, by simp⟩
        omega
      obtain ⟨hleft, rest, hrest, hle⟩ := ih (hs.filter _) (fun q hq => low q (mem_without.mp hq).1) hlen
        (h.front hs hnext)
      rw [otherPhases_without hs hp] at hrest
      rw [rescan_succ hf]
      simp only [← ofPhase_without]
      refine ⟨hleft, rest, hrest, fun more hm => ?_⟩
      have hmore := hle more hm
      cases order with
      | nil => rw [Completes] at h; subst h; cases hmem
      | cons i order =>
        obtain ⟨q, hq, rfl, -⟩ := h
        have hqphase : q ∈ ofPhase pending phase := by
          have := hq.low p hmem
          have := low q hq.mem
          exact List.mem_filter.mpr ⟨hq.mem, by simp only [beq_iff_eq]; omega⟩
        rw [List.cons_append, AtMost]
        -- `p` is the first ready task, so it does not stand after the head of `order`.
        by_cases e : p.2 = q.2
        · have herase : (q.2 :: order).erase p.2 = order := by rw [e, List.erase_cons_head]
          rw [herase] at hmore
          exact .inr ⟨e, hmore⟩
        · refine .inl (Nat.lt_of_le_of_ne ?_ e)
          obtain ⟨-, before, after, hsplit, hbefore⟩ := List.find?_eq_some_iff_append.mp hf
          rw [hsplit] at hqphase
          rcases List.mem_append.mp hqphase with hq' | hq'
          · exact absurd hq.ready (by simpa using hbefore q hq')
          · rcases List.mem_cons.mp hq' with rfl | hq'
            · exact Nat.le_refl _
            · have hsorted : Sorted (before ++ p :: after) := hsplit ▸ hs.filter _
              exact Nat.le_of_lt ((List.pairwise_cons.mp (List.pairwise_append.mp hsorted).2.1).1 q hq')

/-! ## All phases -/

/-- The tasks of the listed phases with their places. -/
def ofPhases (tasks : List Task) (phases : List Nat) : List Placed :=
  tasks.zipIdx.filter fun p => phases.contains p.1.phase

theorem ofPhase_ofPhases (tasks : List Task) (phase : Nat) (phases : List Nat) :
    ofPhase (ofPhases tasks (phase :: phases)) phase = ofPhase tasks.zipIdx phase := by
  simp only [ofPhase, ofPhases, List.filter_filter]
  refine List.filter_congr fun p _ => ?_
  by_cases e : p.1.phase = phase <;> simp [e]

theorem otherPhases_ofPhases {phases : List Nat} (h : ∀ q ∈ phases, phase < q) :
    otherPhases (ofPhases tasks (phase :: phases)) phase = ofPhases tasks phases := by
  simp only [otherPhases, ofPhases, List.filter_filter]
  refine List.filter_congr fun p _ => ?_
  by_cases e : p.1.phase = phase
  · have : phase ∉ phases := fun hm => Nat.lt_irrefl _ (h phase hm)
    simp [e, this]
  · simp [e]

theorem ofPhases_low {phases : List Nat} (h : ∀ q ∈ phases, phase < q) :
    ∀ p ∈ ofPhases tasks (phase :: phases), phase ≤ p.1.phase := by
  intro p hp
  have hmem := (List.mem_filter.mp hp).2
  simp only [List.contains_iff_mem, List.mem_cons] at hmem
  rcases hmem with e | e
  · omega
  · exact Nat.le_of_lt (h _ e)

theorem sorted_ofPhases (tasks : List Task) (phases : List Nat) : Sorted (ofPhases tasks phases) :=
  (sorted_zipIdx tasks).filter _

/-- What planning does with the first phase. -/
def firstPhase (tasks : List Task) (available : KeySet) (phase : Nat) : Progress :=
  rescan (ofPhase tasks.zipIdx phase).length available (ofPhase tasks.zipIdx phase)

theorem rescanPhases_cons_ok {phases : List Nat} :
    rescanPhases tasks available (phase :: phases) = .ok order ↔
      (firstPhase tasks available phase).left = [] ∧
        ∃ rest, rescanPhases tasks (firstPhase tasks available phase).available phases = .ok rest ∧
          order = (firstPhase tasks available phase).order ++ rest := by
  simp only [rescanPhases]
  show (if (firstPhase tasks available phase).left.isEmpty = true then _ else _) = _ ↔ _
  split
  · rename_i hleft
    cases hr : rescanPhases tasks (firstPhase tasks available phase).available phases with
    | error e =>
      simp only [firstPhase] at hr
      simp [hr, bind, Except.bind]
    | ok rest =>
      simp only [firstPhase] at hr
      simp only [hr, bind, Except.bind, List.isEmpty_iff.mp hleft, Except.ok.injEq, true_and, exists_eq_left']
      exact eq_comm
  · rename_i hleft
    simp only [reduceCtorEq, false_iff, not_and]
    intro h
    simp [h] at hleft

theorem rescanPhases_completes {phases : List Nat} (hp : phases.Pairwise (· < ·))
    (h : rescanPhases tasks available phases = .ok order) : Completes available (ofPhases tasks phases) order := by
  induction phases generalizing available order with
  | nil =>
    cases h
    simp [Completes, ofPhases]
  | cons phase phases ih =>
    obtain ⟨hlt, hp⟩ := List.pairwise_cons.mp hp
    obtain ⟨hleft, rest, hr, rfl⟩ := rescanPhases_cons_ok.mp h
    have hrest := ih hp hr
    rw [firstPhase, ← ofPhase_ofPhases tasks phase phases] at hleft hrest ⊢
    rw [← otherPhases_ofPhases hlt] at hrest
    exact rescan_completes (sorted_ofPhases tasks _) (ofPhases_low hlt) hleft hrest

theorem rescanPhases_least {phases : List Nat} (hp : phases.Pairwise (· < ·))
    (h : Completes available (ofPhases tasks phases) order) :
    ∃ least, rescanPhases tasks available phases = .ok least ∧ AtMost least order := by
  induction phases generalizing available order with
  | nil => exact ⟨[], rfl, trivial⟩
  | cons phase phases ih =>
    obtain ⟨hlt, hp⟩ := List.pairwise_cons.mp hp
    obtain ⟨hleft, rest, hrest, hle⟩ := rescan_least (sorted_ofPhases tasks _) (ofPhases_low hlt)
      (Nat.le_refl _) h
    rw [otherPhases_ofPhases hlt] at hrest
    obtain ⟨least, hplan, hmore⟩ := ih hp hrest
    have hbound := hle least hmore
    rw [ofPhase_ofPhases] at hleft hplan hbound
    exact ⟨_, rescanPhases_cons_ok.mpr ⟨hleft, least, hplan, rfl⟩, hbound⟩

theorem mem_phases : phase ∈ phases tasks ↔ ∃ t ∈ tasks, t.phase = phase := by
  have key : ∀ (l : List Task) (s : Std.TreeSet Nat),
      phase ∈ l.foldl (fun s t => s.insert t.phase) s ↔ phase ∈ s ∨ ∃ t ∈ l, t.phase = phase := by
    intro l
    induction l with
    | nil => simp
    | cons t l ih =>
      intro s
      rw [List.foldl_cons, ih]
      simp only [Std.TreeSet.mem_insert, Std.compare_eq_iff_eq, List.mem_cons, exists_eq_or_imp]
      rw [or_comm (a := t.phase = phase), or_assoc]
  rw [phases, Std.TreeSet.mem_toList, key]
  simp

theorem phases_ascending (tasks : List Task) : (phases tasks).Pairwise (· < ·) := by
  refine Std.TreeSet.ordered_toList.imp fun {a b} h => ?_
  exact Std.compare_eq_lt.mp h

theorem ofPhases_phases (tasks : List Task) : ofPhases tasks (phases tasks) = tasks.zipIdx := by
  refine List.filter_eq_self.mpr fun p hp => ?_
  rw [List.contains_iff_mem, mem_phases]
  exact ⟨p.1, List.mem_of_getElem? (mem_zipIdx.mp hp), rfl⟩

/-! ## Schedules complete all tasks -/

/-- What an order has to satisfy to complete the pending tasks. -/
structure Fits (tasks : List Task) (available : KeySet) (pending : List Placed) (order : List Nat) : Prop where
  perm : order.Perm (pending.map (·.2))
  ascending : order.Pairwise (PhaseLE tasks)
  fed : ∀ before i after t, order = before ++ i :: after → tasks[i]? = some t →
    ∀ key ∈ t.inputs, key ∈ available ∨ Makes tasks before key

theorem Sorted.map_without (hs : Sorted pending) (hp : p ∈ pending) :
    (pending.map (·.2)).Perm (p.2 :: (without pending p.2).map (·.2)) := by
  induction hs with
  | nil => cases hp
  | cons hlt hs ih =>
    rename_i q rest
    rcases List.mem_cons.mp hp with rfl | hp'
    · have : without rest p.2 = rest :=
        List.filter_eq_self.mpr fun r hr => by simpa using Nat.ne_of_gt (hlt r hr)
      simp only [without, List.filter_cons, bne_self_eq_false, Bool.false_eq_true, if_false, List.map_cons]
      rw [show List.filter _ rest = rest from this]
    · have : q.2 ≠ p.2 := Nat.ne_of_lt (hlt p hp')
      simp only [without, List.filter_cons, bne_iff_ne, ne_eq, this, not_false_eq_true, if_true, List.map_cons]
      exact ((ih hp').cons _).trans (.swap _ _ _)

theorem completes_iff_fits (hs : Sorted pending) (hin : ∀ p ∈ pending, tasks[p.2]? = some p.1) :
    Completes available pending order ↔ Fits tasks available pending order := by
  induction order generalizing available pending with
  | nil =>
    rw [Completes]
    constructor
    · rintro rfl
      exact ⟨.refl _, .nil, fun before i after t h => by simp at h⟩
    · intro h
      simpa using h.perm.symm.eq_nil
  | cons i order ih =>
    have hin' : ∀ p ∈ without pending i, tasks[p.2]? = some p.1 := fun p hp => hin p (mem_without.mp hp).1
    constructor
    · rintro ⟨p, hp, rfl, hrest⟩
      have hfit := (ih (hs.filter _) hin').mp hrest
      refine ⟨(hfit.perm.cons _).trans (hs.map_without hp.mem).symm, ?_, ?_⟩
      · refine List.pairwise_cons.mpr ⟨fun j hj t u ht hu => ?_, hfit.ascending⟩
        obtain ⟨q, hq, rfl⟩ := List.mem_map.mp (hfit.perm.mem_iff.mp hj)
        have hq := (mem_without.mp hq).1
        rw [hin p hp.mem] at ht
        rw [hin q hq] at hu
        cases ht; cases hu
        exact hp.low q hq
      · intro before j after t hsplit ht key hk
        cases before with
        | nil =>
          obtain ⟨rfl, -⟩ := List.cons.inj hsplit
          rw [hin p hp.mem] at ht
          cases ht
          exact .inl (isReady_iff.mp hp.ready key hk)
        | cons b before =>
          obtain ⟨rfl, htail⟩ := List.cons.inj hsplit
          rcases hfit.fed before j after t htail ht key hk with h | ⟨i, hi, u, hu, hku⟩
          · rcases KeySet.mem_insertMany.mp h with h | h
            · exact .inl h
            · exact .inr ⟨p.2, List.mem_cons_self, p.1, hin p hp.mem, Std.TreeSet.mem_toList.mp h⟩
          · exact .inr ⟨i, List.mem_cons_of_mem _ hi, u, hu, hku⟩
    · intro h
      obtain ⟨p, hp, rfl⟩ := List.mem_map.mp (h.perm.mem_iff.mp List.mem_cons_self)
      obtain ⟨hhead, htail⟩ := List.pairwise_cons.mp h.ascending
      refine ⟨p, ⟨hp, isReady_iff.mpr fun key hk => ?_, fun q hq => ?_⟩, rfl, ?_⟩
      · rcases h.fed [] p.2 order p.1 rfl (hin p hp) key hk with h | ⟨j, hj, -⟩
        · exact h
        · cases hj
      · have hmem := h.perm.mem_iff.mpr (List.mem_map_of_mem (f := (·.2)) hq)
        rcases List.mem_cons.mp hmem with e | e
        · exact Nat.le_of_eq (by rw [hs.eq_of_place hq hp e])
        · exact hhead _ e _ _ (hin p hp) (hin q hq)
      · refine (ih (hs.filter _) hin').mpr ⟨?_, htail, fun before j after t hsplit ht key hk => ?_⟩
        · exact (h.perm.trans (hs.map_without hp)).cons_inv
        · rcases h.fed (p.2 :: before) j after t (by rw [hsplit]; rfl) ht key hk with h | ⟨i, hi, u, hu, hku⟩
          · exact .inl (KeySet.mem_insertMany.mpr (.inl h))
          · rcases List.mem_cons.mp hi with rfl | hi
            · rw [hin p hp] at hu
              cases hu
              exact .inl (KeySet.mem_insertMany.mpr (.inr (Std.TreeSet.mem_toList.mpr hku)))
            · exact .inr ⟨i, hi, u, hu, hku⟩

theorem schedule_iff_completes : Schedule tasks order ↔ Completes ∅ tasks.zipIdx order := by
  rw [completes_iff_fits (sorted_zipIdx tasks) fun p hp => mem_zipIdx.mp hp]
  have hplaces : tasks.zipIdx.map (·.2) = List.range tasks.length := by
    rw [List.zipIdx_map_snd, List.range_eq_range']
  constructor
  · intro h
    exact ⟨hplaces ▸ h.perm, h.ascending, fun b i a t e ht k hk => .inr (h.fed b i a t e ht k hk)⟩
  · intro h
    refine ⟨hplaces ▸ h.perm, h.ascending, fun b i a t e ht k hk => ?_⟩
    rcases h.fed b i a t e ht k hk with h | h
    · simp at h
    · exact h

/-! ## Keys made twice -/

theorem madeTwice?_eq_none {made : KeySet} :
    madeTwice? made tasks = none ↔
      (∀ t ∈ tasks, ∀ key ∈ t.outputs, key ∉ made) ∧
        tasks.Pairwise fun t u => ∀ key ∈ t.outputs, key ∉ u.outputs := by
  induction tasks generalizing made with
  | nil => simp [madeTwice?]
  | cons t ts ih =>
    cases hf : t.outputs.toList.find? made.contains with
    | some key =>
      have hmade := List.find?_some hf
      have hmem := List.mem_of_find?_eq_some hf
      simp only [madeTwice?, hf, reduceCtorEq, false_iff, not_and]
      intro h
      exact absurd hmade (by simpa using h t List.mem_cons_self key (Std.TreeSet.mem_toList.mp hmem))
    | none =>
      have hnone : ∀ key ∈ t.outputs, key ∉ made := by
        intro key hk
        simpa using List.find?_eq_none.mp hf key (Std.TreeSet.mem_toList.mpr hk)
      simp only [madeTwice?, hf, ih, KeySet.mem_insertMany, Std.TreeSet.mem_toList, not_or, List.pairwise_cons,
        List.forall_mem_cons]
      constructor
      · rintro ⟨h, hp⟩
        exact ⟨⟨hnone, fun u hu key hk => (h u hu key hk).1⟩,
          fun u hu key hk hku => (h u hu key hku).2 hk, hp⟩
      · rintro ⟨⟨-, h⟩, hd, hp⟩
        exact ⟨fun u hu key hk => ⟨h u hu key hk, fun hkt => hd u hu key hkt hk⟩, hp⟩

theorem oneMaker_iff_pairwise : OneMaker tasks ↔ tasks.Pairwise fun t u => ∀ key ∈ t.outputs, key ∉ u.outputs := by
  rw [List.pairwise_iff_getElem]
  constructor
  · intro h i j hi hj hij key hk hku
    have := h i j _ _ key (List.getElem?_eq_getElem hi) (List.getElem?_eq_getElem hj) hk hku
    omega
  · intro h i j t u key ht hu hkt hku
    obtain ⟨hi, rfl⟩ := List.getElem?_eq_some_iff.mp ht
    obtain ⟨hj, rfl⟩ := List.getElem?_eq_some_iff.mp hu
    rcases Nat.lt_trichotomy i j with hij | hij | hij
    · exact absurd hku (h i j hi hj hij key hkt)
    · exact hij
    · exact absurd hkt (h j i hj hi hij key hku)

theorem madeTwice?_eq_none_iff_oneMaker : madeTwice? ∅ tasks = none ↔ OneMaker tasks := by
  simp [madeTwice?_eq_none, oneMaker_iff_pairwise]

/-- The key that is reported is made by two tasks, or by one task and was made before. -/
theorem madeTwice?_eq_some {made : KeySet} (h : madeTwice? made tasks = some key) :
    (key ∈ made ∧ ∃ t ∈ tasks, key ∈ t.outputs) ∨
      ∃ (i j : Nat) (t u : Task), i < j ∧ tasks[i]? = some t ∧ tasks[j]? = some u ∧
        key ∈ t.outputs ∧ key ∈ u.outputs := by
  induction tasks generalizing made with
  | nil => simp [madeTwice?] at h
  | cons t ts ih =>
    cases hf : t.outputs.toList.find? made.contains with
    | some found =>
      simp only [madeTwice?, hf, Option.some.injEq] at h
      subst h
      have hmade := List.find?_some hf
      have hmem := List.mem_of_find?_eq_some hf
      exact .inl ⟨by simpa using hmade, t, List.mem_cons_self, Std.TreeSet.mem_toList.mp hmem⟩
    | none =>
      simp only [madeTwice?, hf] at h
      rcases ih h with ⟨hmade, u, hu, hku⟩ | ⟨i, j, u, v, hij, hu, hv, hku, hkv⟩
      · rcases KeySet.mem_insertMany.mp hmade with hmade | hkt
        · exact .inl ⟨hmade, u, List.mem_cons_of_mem _ hu, hku⟩
        · obtain ⟨j, hj⟩ := List.mem_iff_getElem?.mp hu
          exact .inr ⟨0, j + 1, t, u, by omega, rfl, by simpa using hj, Std.TreeSet.mem_toList.mp hkt, hku⟩
      · exact .inr ⟨i + 1, j + 1, u, v, by omega, by simpa using hu, by simpa using hv, hku, hkv⟩

/-! ## Planning -/

theorem plan_eq_rescan (h : madeTwice? ∅ tasks = none) : plan tasks = rescanPhases tasks ∅ (phases tasks) := by
  rw [plan, h]
  exact planPhases_eq (fun _ => Iff.rfl) _

theorem plan_completes (h : plan tasks = .ok order) : OneMaker tasks ∧ Schedule tasks order := by
  cases hnone : madeTwice? ∅ tasks with
  | some key =>
    rw [plan, hnone] at h
    cases h
  | none =>
    rw [plan_eq_rescan hnone] at h
    refine ⟨madeTwice?_eq_none_iff_oneMaker.mp hnone, schedule_iff_completes.mpr ?_⟩
    rw [← ofPhases_phases]
    exact rescanPhases_completes (phases_ascending tasks) h

theorem plan_least (hone : OneMaker tasks) (h : Schedule tasks order) :
    ∃ least, plan tasks = .ok least ∧ AtMost least order := by
  rw [schedule_iff_completes, ← ofPhases_phases] at h
  obtain ⟨least, hplan, hle⟩ := rescanPhases_least (phases_ascending tasks) h
  exact ⟨least, by rw [plan_eq_rescan (madeTwice?_eq_none_iff_oneMaker.mpr hone), hplan], hle⟩

/-- Planning succeeds exactly when no key is made twice and a schedule exists; its answer is the schedule that is
    least in lexicographic order. A key that two tasks make is reported, whatever else is wrong. -/
theorem plan_finds_least_schedule (tasks : List Task) :
    ((∃ order, plan tasks = .ok order) ↔ OneMaker tasks ∧ ∃ order, Schedule tasks order) ∧
      (∀ order, plan tasks = .ok order → Schedule tasks order ∧ ∀ other, Schedule tasks other → AtMost order other) ∧
      (¬ OneMaker tasks → ∃ key, plan tasks = .error (.singleAssignment key) ∧
        ∃ (i j : Nat) (t u : Task), i ≠ j ∧ tasks[i]? = some t ∧ tasks[j]? = some u ∧
          key ∈ t.outputs ∧ key ∈ u.outputs) := by
  refine ⟨⟨?_, ?_⟩, ?_, ?_⟩
  · rintro ⟨order, h⟩
    obtain ⟨hone, hs⟩ := plan_completes h
    exact ⟨hone, order, hs⟩
  · rintro ⟨hone, order, hs⟩
    obtain ⟨least, h, -⟩ := plan_least hone hs
    exact ⟨least, h⟩
  · intro order h
    obtain ⟨hone, hs⟩ := plan_completes h
    refine ⟨hs, fun other ho => ?_⟩
    obtain ⟨least, hl, hle⟩ := plan_least hone ho
    rw [h] at hl
    cases hl
    exact hle
  · intro hone
    cases hm : madeTwice? ∅ tasks with
    | none => exact absurd (madeTwice?_eq_none_iff_oneMaker.mp hm) hone
    | some key =>
      refine ⟨key, by rw [plan, hm], ?_⟩
      rcases madeTwice?_eq_some hm with ⟨hk, -⟩ | ⟨i, j, t, u, hij, ht, hu, hkt, hku⟩
      · simp at hk
      · exact ⟨i, j, t, u, Nat.ne_of_lt hij, ht, hu, hkt, hku⟩

end Task

end Stackwright
