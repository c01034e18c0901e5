import Mathlib.Data.List.Sort
import Stackwright.Plan.Order

/-
  Stackwright.Proofs.Worklist — the counts of a phase are right.

  A phase could look through all its tasks for the first one that is ready, each time one has run
  (`rescan`). The worklist looks at none but those that wait for the key just made. Its counts are what
  its pending tasks lack (`Worklist.Tracks`), so the ready set holds the tasks that the search would
  find, and what still has a count in the end is what the search would leave over.

  - `drain_eq_rescan`: a phase runs the same tasks, in the same order, and leaves over the same.
-/

namespace Stackwright

variable {key : ItemKey} {available : KeySet} {t : Task} {p : Placed} {n i : Nat}
variable {pending left : List Placed} {tasks : List Task} {w : Worklist}

@[simp] theorem KeySet.mem_insertMany {s : KeySet} {keys : List ItemKey} :
    key ∈ s.insertMany keys ↔ key ∈ s ∨ key ∈ keys := by
  simp [Std.TreeSet.mem_insertMany_list]

@[simp] theorem KeySet.contains_eq_false {s : KeySet} : s.contains key = false ↔ key ∉ s := by
  rw [← Std.TreeSet.contains_iff_mem, Bool.not_eq_true]

namespace Task

/-! ## Looking for ready tasks again and again -/

def isReady (available : KeySet) (t : Task) : Bool := t.inputs.toList.all available.contains

/-- What running the ready tasks of a phase led to. -/
structure Progress where
  order : List Nat
  available : KeySet
  /-- Tasks that never became ready. -/
  left : List Placed

/-- Runs ready tasks, first one first, at most as many as the number given. -/
def rescan : Nat → KeySet → List Placed → Progress
  | 0, available, pending => ⟨[], available, pending⟩
  | n + 1, available, pending =>
    match pending.find? fun p => p.1.isReady available with
    | none => ⟨[], available, pending⟩
    | some next =>
      let rest := rescan n (available.insertMany next.1.outputs.toList)
        (pending.filter fun p => p.2 != next.2)
      { rest with order := next.2 :: rest.order }

/-- What is available once the task has run. -/
abbrev afterRun (available : KeySet) (p : Placed) : KeySet := available.insertMany p.1.outputs.toList

/-- What is pending once the task at the place has run. -/
abbrev without (pending : List Placed) (place : Nat) : List Placed := pending.filter fun q => q.2 != place

/-- Places are listed in increasing order. -/
abbrev Sorted (pending : List Placed) : Prop := pending.Pairwise fun p q => p.2 < q.2

theorem isReady_iff : t.isReady available ↔ ∀ key ∈ t.inputs, key ∈ available := by
  simp [isReady]

theorem mem_without {place : Nat} : p ∈ without pending place ↔ p ∈ pending ∧ p.2 ≠ place := by
  simp [without]

theorem rescan_succ (h : (pending.find? fun p => p.1.isReady available) = some p) :
    rescan (n + 1) available pending =
      { rescan n (afterRun available p) (without pending p.2) with
        order := p.2 :: (rescan n (afterRun available p) (without pending p.2)).order } := by
  simp only [rescan, h]

theorem rescan_left_sublist : (rescan n available pending).left.Sublist pending := by
  induction n generalizing available pending with
  | zero => exact .refl _
  | succ n ih =>
    cases hf : pending.find? fun p => p.1.isReady available with
    | none => simp only [rescan, hf]; exact .refl _
    | some p =>
      rw [rescan_succ hf]
      exact ih.trans List.filter_sublist

/-- What is left over is not ready. -/
theorem rescan_left_blocked (hn : pending.length ≤ n) :
    ∀ p ∈ (rescan n available pending).left, p.1.isReady (rescan n available pending).available = false := by
  induction n generalizing available pending with
  | zero =>
    rw [List.eq_nil_of_length_eq_zero (by omega : pending.length = 0)]
    exact fun p hp => by cases hp
  | succ n ih =>
    cases hf : pending.find? fun p => p.1.isReady available with
    | none =>
      simp only [rescan, hf]
      exact fun p hp => by simpa using List.find?_eq_none.mp hf p hp
    | some p =>
      rw [rescan_succ hf]
      refine ih ?_
      have hlt : (without pending p.2).length < pending.length :=
        List.length_filter_lt_length_iff_exists.mpr ⟨p, List.mem_of_find?_eq_some hf, by simp⟩
      omega

/-! ## What a task lacks -/

theorem mem_unmet : key ∈ t.unmet available ↔ key ∈ t.inputs ∧ key ∉ available := by
  simp [unmet]

theorem nodup_unmet : (t.unmet available).Nodup := by
  refine List.Nodup.filter _ (Std.TreeSet.distinct_toList.imp fun {a b} hne heq => hne ?_)
  rw [heq]
  exact Std.ReflCmp.compare_self

theorem isReady_iff_unmet : t.isReady available ↔ t.unmet available = [] := by
  simp [isReady_iff, unmet]

theorem unmet_congr {b : KeySet} (h : ∀ key, key ∈ available ↔ key ∈ b) : t.unmet available = t.unmet b := by
  refine List.filter_congr fun key _ => ?_
  rw [Bool.eq_iff_iff, Bool.not_eq_true', Bool.not_eq_true', KeySet.contains_eq_false, KeySet.contains_eq_false, h]

/-- A new key is taken off what is lacked. -/
theorem length_unmet_insert (h : key ∉ available) : (t.unmet (available.insert key)).length =
    if key ∈ t.inputs then (t.unmet available).length - 1 else (t.unmet available).length := by
  have herase : t.unmet (available.insert key) = (t.unmet available).erase key := by
    rw [nodup_unmet.erase_eq_filter, unmet, unmet, List.filter_filter]
    refine List.filter_congr fun other _ => ?_
    rw [Bool.eq_iff_iff, Bool.and_eq_true, Bool.not_eq_true', Bool.not_eq_true', bne_iff_ne, KeySet.contains_eq_false,
      KeySet.contains_eq_false, Std.TreeSet.mem_insert, Std.LawfulEqCmp.compare_eq_iff_eq, not_or, ne_comm]
  rw [herase, List.length_erase]
  simp [mem_unmet, h]

end Task

/-! ## One key -/

namespace Worklist

open Stackwright.Task

/-- The counts, the lists of those that wait and the ready set are those of the pending tasks. -/
structure Tracks (w : Worklist) (pending : List Placed) : Prop where
  ready : ∀ p ∈ pending, p.2 ∈ w.ready ↔ (p.1.unmet w.available).length = 0
  missing : ∀ p ∈ pending, w.missing[p.2]? =
    if (p.1.unmet w.available).length = 0 then none else some (p.1.unmet w.available).length
  waiting : ∀ p ∈ pending, ∀ key, key ∉ w.available → (p.2 ∈ w.waiting.getD key [] ↔ key ∈ p.1.inputs)
  nodup : ∀ key, key ∉ w.available → (w.waiting.getD key []).Nodup
  only : ∀ i, i ∈ w.ready ∨ w.missing[i]?.isSome → ∃ p ∈ pending, p.2 = i

/-- What is left of a count. -/
def less (count : Nat) : Option Nat := if count - 1 = 0 then none else some (count - 1)

theorem missing_countDown (w : Worklist) (waiter i : Nat) :
    (w.countDown waiter).missing[i]? = if i = waiter then w.missing[i]?.bind less else w.missing[i]? := by
  unfold countDown less
  split
  · rename_i hnone
    split
    · rename_i hi
      rw [hi, hnone]
      rfl
    · rfl
  · rename_i count hcount
    by_cases hi : i = waiter
    · subst hi
      by_cases hlast : count - 1 = 0 <;> simp [hlast, hcount]
    · by_cases hlast : count - 1 = 0 <;>
        simp [hlast, hi, Std.TreeMap.getElem?_erase, Std.TreeMap.getElem?_insert, Ne.symm hi]

theorem mem_ready_countDown (w : Worklist) (waiter i : Nat) :
    i ∈ (w.countDown waiter).ready ↔ i ∈ w.ready ∨ i = waiter ∧ ∃ count, w.missing[i]? = some count ∧
      less count = none := by
  unfold countDown less
  split
  · rename_i hnone
    refine ⟨.inl, fun h => h.elim id ?_⟩
    rintro ⟨rfl, count, hcount, -⟩
    cases hnone.symm.trans hcount
  · rename_i count hcount
    by_cases hlast : count - 1 = 0
    · simp only [hlast, beq_self_eq_true, if_true, Std.TreeSet.mem_insert, Std.compare_eq_iff_eq]
      grind
    · simp only [beq_iff_eq, hlast, if_false]
      grind

theorem same_countDown (w : Worklist) (waiter : Nat) :
    (w.countDown waiter).available = w.available ∧ (w.countDown waiter).waiting = w.waiting := by
  unfold countDown
  split
  · exact ⟨rfl, rfl⟩
  · split <;> exact ⟨rfl, rfl⟩

theorem same_foldl_countDown (ws : List Nat) (w : Worklist) :
    (ws.foldl countDown w).available = w.available ∧ (ws.foldl countDown w).waiting = w.waiting := by
  induction ws generalizing w with
  | nil => exact ⟨rfl, rfl⟩
  | cons waiter ws ih =>
    rw [List.foldl_cons, (ih _).1, (ih _).2]
    exact same_countDown w waiter

/-- Each of the tasks that wait for a key is counted down once. -/
theorem foldl_countDown {ws : List Nat} (hws : ws.Nodup) (w : Worklist) :
    (∀ i : Nat, (ws.foldl countDown w).missing[i]? = if i ∈ ws then w.missing[i]?.bind less else w.missing[i]?) ∧
    ∀ i, i ∈ (ws.foldl countDown w).ready ↔ i ∈ w.ready ∨ i ∈ ws ∧ ∃ count, w.missing[i]? = some count ∧
      less count = none := by
  induction ws generalizing w with
  | nil => simp
  | cons waiter ws ih =>
    obtain ⟨hwaiter, hws⟩ := List.nodup_cons.mp hws
    obtain ⟨hmissing, hready⟩ := ih hws (w.countDown waiter)
    refine ⟨fun i => ?_, fun i => ?_⟩
    · rw [List.foldl_cons, hmissing, missing_countDown]
      grind
    · rw [List.foldl_cons, hready, mem_ready_countDown, missing_countDown]
      grind

theorem mem_available_supply (w : Worklist) (key other : ItemKey) :
    other ∈ (w.supply key).available ↔ other ∈ w.available ∨ other = key := by
  unfold supply
  split
  · rename_i hold
    refine ⟨.inl, fun h => h.elim id ?_⟩
    rintro rfl
    exact hold
  · rw [(same_foldl_countDown _ _).1, Std.TreeSet.mem_insert, Std.LawfulEqCmp.compare_eq_iff_eq, or_comm, eq_comm]

theorem Tracks.supply (h : w.Tracks pending) (key : ItemKey) : (w.supply key).Tracks pending := by
  unfold Worklist.supply
  split
  · exact h
  rename_i hnew
  have hnew : key ∉ w.available := hnew
  obtain ⟨hmissing, hready⟩ := foldl_countDown (h.nodup key hnew)
    { w with available := w.available.insert key, waiting := w.waiting.erase key }
  obtain ⟨havailable, hwaiting⟩ := same_foldl_countDown (w.waiting.getD key [])
    { w with available := w.available.insert key, waiting := w.waiting.erase key }
  have hlater {other : ItemKey} (hother : other ∉ w.available.insert key) : other ∉ w.available ∧ key ≠ other := by
    rw [Std.TreeSet.mem_insert, Std.LawfulEqCmp.compare_eq_iff_eq, not_or] at hother
    exact hother.symm
  have hlacks {p : Placed} (hk : key ∈ p.1.inputs) : (p.1.unmet w.available).length ≠ 0 := by
    rw [Ne, List.length_eq_zero_iff]
    exact List.ne_nil_of_mem (mem_unmet.mpr ⟨hk, hnew⟩)
  have hstill {other : ItemKey} (hne : key ≠ other) :
      (w.waiting.erase key).getD other [] = w.waiting.getD other [] := by
    rw [Std.TreeMap.getD_erase, if_neg (by rwa [Std.LawfulEqCmp.compare_eq_iff_eq])]
  constructor
  · intro p hp
    rw [hready, havailable, length_unmet_insert hnew, h.waiting p hp key hnew, h.ready p hp, h.missing p hp]
    by_cases hk : key ∈ p.1.inputs <;> simp [hk, hlacks, less]
  · intro p hp
    rw [hmissing, havailable, length_unmet_insert hnew]
    simp only [h.waiting p hp key hnew, h.missing p hp]
    by_cases hk : key ∈ p.1.inputs <;> simp [hk, hlacks, less]
  · intro p hp other hother
    rw [havailable] at hother
    obtain ⟨hold, hne⟩ := hlater hother
    rw [hwaiting, hstill hne, h.waiting p hp other hold]
  · intro other hother
    rw [havailable] at hother
    obtain ⟨hold, hne⟩ := hlater hother
    rw [hwaiting, hstill hne]
    exact h.nodup other hold
  · intro i hi
    refine h.only i ?_
    rw [hready, hmissing] at hi
    rcases hi with (hi | ⟨-, count, hcount, -⟩) | hi
    · exact .inl hi
    · exact .inr (by rw [hcount]; rfl)
    · refine .inr ?_
      split at hi
      · exact Option.isSome_of_isSome_bind hi
      · exact hi

/-! ## One task -/

theorem getD_foldl_insert {place : Nat} {keys : List ItemKey} (hkeys : keys.Nodup)
    (waiting : Std.TreeMap ItemKey (List Nat) ItemKey.order) (key : ItemKey) :
    (keys.foldl (fun waiting key => waiting.insert key (waiting.getD key [] ++ [place])) waiting).getD key [] =
      waiting.getD key [] ++ if key ∈ keys then [place] else [] := by
  induction keys generalizing waiting with
  | nil => simp
  | cons first keys ih =>
    obtain ⟨hfirst, hkeys⟩ := List.nodup_cons.mp hkeys
    rw [List.foldl_cons, ih hkeys, Std.TreeMap.getD_insert]
    simp only [Std.LawfulEqCmp.compare_eq_iff_eq, List.mem_cons]
    by_cases hkey : first = key
    · subst hkey
      simp [hfirst]
    · simp [hkey, Ne.symm hkey]

theorem enroll_available (w : Worklist) (p : Placed) : (w.enroll p).available = w.available := by
  unfold enroll
  split <;> rfl

theorem mem_ready_enroll (w : Worklist) (p : Placed) (i : Nat) :
    i ∈ (w.enroll p).ready ↔ i ∈ w.ready ∨ i = p.2 ∧ (p.1.unmet w.available).length = 0 := by
  unfold enroll
  split
  · rename_i hempty
    rw [Std.TreeSet.mem_insert, Std.compare_eq_iff_eq, hempty, or_comm, eq_comm, List.length_nil]
    exact ⟨Or.imp_right fun hi => ⟨hi, rfl⟩, Or.imp_right And.left⟩
  · rename_i hsome
    exact ⟨.inl, fun hi => hi.elim id fun hi => absurd (List.length_eq_zero_iff.mp hi.2) hsome⟩

theorem missing_enroll (w : Worklist) (p : Placed) (i : Nat) : (w.enroll p).missing[i]? =
    if i = p.2 ∧ (p.1.unmet w.available).length ≠ 0 then some (p.1.unmet w.available).length else w.missing[i]? := by
  unfold enroll
  split
  · rename_i hempty
    simp [hempty]
  · rename_i hsome
    have hlength : (p.1.unmet w.available).length ≠ 0 := fun hzero => hsome (List.length_eq_zero_iff.mp hzero)
    rw [Std.TreeMap.getElem?_insert]
    by_cases hi : i = p.2
    · simp [hi, hlength]
    · simp [hi, Ne.symm hi]

theorem getD_waiting_enroll (w : Worklist) (p : Placed) (key : ItemKey) : (w.enroll p).waiting.getD key [] =
    w.waiting.getD key [] ++ if key ∈ p.1.unmet w.available then [p.2] else [] := by
  unfold enroll
  split
  · rename_i hnone
    simp [hnone]
  · exact getD_foldl_insert nodup_unmet w.waiting key

/-- The tasks of a phase are enrolled in the order of their places, so each is new to the lists. -/
theorem Tracks.enroll (h : w.Tracks pending) (hwaits : ∀ key, ∀ i ∈ w.waiting.getD key [], ∃ q ∈ pending, q.2 = i)
    (hp : ∀ q ∈ pending, q.2 < p.2) : (w.enroll p).Tracks (pending ++ [p]) ∧
      ∀ key, ∀ i ∈ (w.enroll p).waiting.getD key [], ∃ q ∈ pending ++ [p], q.2 = i := by
  have hnew (key : ItemKey) : p.2 ∉ w.waiting.getD key [] := by
    intro hmem
    obtain ⟨q, hq, hplace⟩ := hwaits key _ hmem
    exact absurd (hp q hq) (by omega)
  have hnone : p.2 ∉ w.ready ∧ w.missing[p.2]? = none := by
    constructor
    · intro hmem
      obtain ⟨q, hq, hplace⟩ := h.only p.2 (.inl hmem)
      exact absurd (hp q hq) (by omega)
    · rw [← Option.not_isSome_iff_eq_none]
      intro hsome
      obtain ⟨q, hq, hplace⟩ := h.only p.2 (.inr hsome)
      exact absurd (hp q hq) (by omega)
  refine ⟨⟨?_, ?_, ?_, ?_, ?_⟩, ?_⟩
  · intro q hq
    rw [mem_ready_enroll, enroll_available]
    rcases List.mem_append.mp hq with hq | hq
    · have hne : q.2 ≠ p.2 := Nat.ne_of_lt (hp q hq)
      simp [hne, h.ready q hq]
    · cases List.mem_singleton.mp hq
      simp [hnone.1]
  · intro q hq
    rw [missing_enroll, enroll_available]
    rcases List.mem_append.mp hq with hq | hq
    · have hne : q.2 ≠ p.2 := Nat.ne_of_lt (hp q hq)
      simp [hne, h.missing q hq]
    · cases List.mem_singleton.mp hq
      by_cases hempty : (p.1.unmet w.available).length = 0 <;> simp [hempty, hnone.2]
  · intro q hq key hkey
    rw [enroll_available] at hkey
    rw [getD_waiting_enroll, List.mem_append]
    rcases List.mem_append.mp hq with hq | hq
    · have hne : q.2 ≠ p.2 := Nat.ne_of_lt (hp q hq)
      rw [h.waiting q hq key hkey]
      split <;> simp [hne]
    · cases List.mem_singleton.mp hq
      by_cases hk : key ∈ p.1.inputs <;> simp [hnew, mem_unmet, hk, hkey]
  · intro key hkey
    rw [enroll_available] at hkey
    rw [getD_waiting_enroll]
    split
    · rw [← List.concat_eq_append]
      exact .concat (hnew key) (h.nodup key hkey)
    · simpa using h.nodup key hkey
  · intro i hi
    rw [mem_ready_enroll, missing_enroll] at hi
    by_cases hplace : i = p.2
    · exact ⟨p, by simp, hplace.symm⟩
    · obtain ⟨q, hq, hi⟩ := h.only i (by simpa [hplace] using hi)
      exact ⟨q, List.mem_append_left _ hq, hi⟩
  · intro key i hi
    rw [getD_waiting_enroll, List.mem_append] at hi
    rcases hi with hi | hi
    · obtain ⟨q, hq, hi⟩ := hwaits key i hi
      exact ⟨q, List.mem_append_left _ hq, hi⟩
    · split at hi
      · exact ⟨p, by simp, (List.mem_singleton.mp hi).symm⟩
      · cases hi

theorem Tracks.run (h : w.Tracks pending) (hp : p ∈ pending) (hready : p.2 ∈ w.ready) (htask : tasks[p.2]? = some p.1) :
    (w.run tasks p.2).Tracks (without pending p.2) ∧
      ∀ key, key ∈ (w.run tasks p.2).available ↔ key ∈ afterRun w.available p := by
  have hsupplied (keys : List ItemKey) (w : Worklist) (h : w.Tracks (without pending p.2)) :
      (keys.foldl Worklist.supply w).Tracks (without pending p.2) ∧
        ∀ key, key ∈ (keys.foldl Worklist.supply w).available ↔ key ∈ w.available ∨ key ∈ keys := by
    induction keys generalizing w with
    | nil => simpa using h
    | cons first keys ih =>
      obtain ⟨htracks, havailable⟩ := ih _ (h.supply first)
      refine ⟨htracks, fun key => ?_⟩
      rw [List.foldl_cons, havailable, mem_available_supply, List.mem_cons, or_assoc]
  have hcounts : w.missing[p.2]? = none := by rw [h.missing p hp, if_pos ((h.ready p hp).mp hready)]
  rw [Worklist.run, htask]
  simp only [KeySet.mem_insertMany]
  refine hsupplied p.1.outputs.toList _ ⟨?_, ?_, ?_, h.nodup, ?_⟩
  · intro q hq
    obtain ⟨hq, hne⟩ := mem_without.mp hq
    rw [Std.TreeSet.mem_erase, h.ready q hq]
    exact and_iff_right (by simpa using Ne.symm hne)
  · exact fun q hq => h.missing q (mem_without.mp hq).1
  · exact fun q hq => h.waiting q (mem_without.mp hq).1
  · intro i hi
    simp only [Std.TreeSet.mem_erase, Std.compare_eq_iff_eq, ne_eq] at hi
    have hne : i ≠ p.2 := by grind
    obtain ⟨q, hq, rfl⟩ := h.only i (hi.imp_left And.right)
    exact ⟨q, mem_without.mpr ⟨hq, hne⟩, rfl⟩

/-! ## A whole phase -/

/-- The first ready task is the ready one with the least place. -/
theorem Tracks.next (h : w.Tracks pending) (hs : Sorted pending) :
    w.ready.toList.head? = (pending.find? fun p => p.1.isReady w.available).map (·.2) := by
  rw [Std.TreeSet.head?_toList]
  have hready {p : Placed} (hp : p ∈ pending) : p.2 ∈ w.ready ↔ p.1.isReady w.available = true := by
    rw [h.ready p hp, isReady_iff_unmet, List.length_eq_zero_iff]
  cases hfind : pending.find? fun p => p.1.isReady w.available with
  | none =>
    rw [Option.map_none, Std.TreeSet.min?_eq_none_iff, Std.TreeSet.isEmpty_iff_forall_not_mem]
    intro i hi
    obtain ⟨p, hp, rfl⟩ := h.only i (.inl hi)
    exact List.find?_eq_none.mp hfind p hp ((hready hp).mp hi)
  | some p =>
    rw [Option.map_some, Std.TreeSet.min?_eq_some_iff_mem_and_forall]
    have hfirst : p.1.isReady w.available = true := by simpa using List.find?_some hfind
    refine ⟨(hready (List.mem_of_find?_eq_some hfind)).mpr hfirst, fun i hi => ?_⟩
    obtain ⟨q, hq, rfl⟩ := h.only i (.inl hi)
    obtain ⟨-, before, after, rfl, hbefore⟩ := List.find?_eq_some_iff_append.mp hfind
    rw [Nat.isLE_compare]
    rcases List.mem_append.mp hq with hq' | hq'
    · exact absurd ((hready hq).mp hi) (by simpa using hbefore q hq')
    · rcases List.mem_cons.mp hq' with rfl | hq'
      · exact Nat.le_refl _
      · exact Nat.le_of_lt ((List.pairwise_cons.mp (List.pairwise_append.mp hs).2.1).1 q hq')

/-- The worklist runs the same tasks as the search, in the same order. -/
theorem Tracks.drain (h : w.Tracks pending) (hs : Sorted pending) (hin : ∀ p ∈ pending, tasks[p.2]? = some p.1)
    (havailable : ∀ key, key ∈ w.available ↔ key ∈ available) :
    (Worklist.drain tasks n w).1 = (rescan n available pending).order ∧
      (Worklist.drain tasks n w).2.Tracks (rescan n available pending).left ∧
      ∀ key, key ∈ (Worklist.drain tasks n w).2.available ↔ key ∈ (rescan n available pending).available := by
  induction n generalizing w pending available with
  | zero => exact ⟨rfl, h, havailable⟩
  | succ n ih =>
    have hsame : (fun p : Placed => p.1.isReady w.available) = fun p => p.1.isReady available := by
      funext p
      rw [Bool.eq_iff_iff, isReady_iff, isReady_iff]
      simp only [havailable]
    have hnext := h.next hs
    rw [hsame] at hnext
    cases hfind : pending.find? fun p => p.1.isReady available with
    | none =>
      rw [hfind] at hnext
      simp only [Worklist.drain, hnext, rescan, hfind, Option.map_none]
      exact ⟨trivial, h, havailable⟩
    | some p =>
      rw [hfind] at hnext
      have hp := List.mem_of_find?_eq_some hfind
      have hready : p.2 ∈ w.ready := Std.TreeSet.mem_toList.mp (List.mem_of_head? hnext)
      obtain ⟨htracks, hmade⟩ := h.run hp hready (hin p hp)
      have hafter (key : ItemKey) : key ∈ (w.run tasks p.2).available ↔ key ∈ afterRun available p := by
        rw [hmade, KeySet.mem_insertMany, KeySet.mem_insertMany, havailable]
      obtain ⟨horder, hrest⟩ := ih htracks (hs.filter _) (fun q hq => hin q (mem_without.mp hq).1) hafter
      rw [rescan_succ hfind]
      simp only [Worklist.drain, hnext, Option.map_some, horder]
      exact ⟨trivial, hrest⟩

/-- Where none of the pending tasks is ready, the counted ones are the pending ones. -/
theorem Tracks.keys_missing (h : w.Tracks left) (hs : Sorted left)
    (hblocked : ∀ p ∈ left, p.1.isReady w.available = false) :
    w.missing.keys = left.map (·.2) := by
  have hkeys : w.missing.keys.Pairwise (· < ·) := Std.TreeMap.ordered_keys.imp fun hlt => Nat.compare_eq_lt.mp hlt
  refine hkeys.eq_of_mem_iff (List.pairwise_map.mpr hs) fun i => ?_
  rw [Std.TreeMap.mem_keys, Std.TreeMap.mem_iff_isSome_getElem?, List.mem_map]
  refine ⟨fun hi => h.only i (.inr hi), ?_⟩
  rintro ⟨p, hp, rfl⟩
  have hlacks : (p.1.unmet w.available).length ≠ 0 := by
    rw [Ne, List.length_eq_zero_iff, ← isReady_iff_unmet, hblocked p hp]
    exact Bool.false_ne_true
  rw [h.missing p hp, if_neg hlacks]
  rfl

end Worklist

namespace Task

theorem sorted_zipIdx (tasks : List Task) : Sorted tasks.zipIdx := by
  rw [Sorted, List.pairwise_iff_getElem]
  intro i j hi hj hij
  simpa using hij

theorem mem_zipIdx : p ∈ tasks.zipIdx ↔ tasks[p.2]? = some p.1 := by
  simpa using List.mem_zipIdx_iff_getElem? (x := p) (l := tasks)

/-- All tasks of a phase are enrolled. -/
theorem tracks_foldl_enroll {members : List Placed} (h : w.Tracks pending) (hs : Sorted (pending ++ members))
    (hwaits : ∀ key, ∀ i ∈ w.waiting.getD key [], ∃ q ∈ pending, q.2 = i) :
    (members.foldl Worklist.enroll w).Tracks (pending ++ members) ∧
      (members.foldl Worklist.enroll w).available = w.available := by
  induction members generalizing w pending with
  | nil => exact ⟨by rwa [List.append_nil], rfl⟩
  | cons p members ih =>
    have hp : ∀ q ∈ pending, q.2 < p.2 := fun q hq => (List.pairwise_append.mp hs).2.2 q hq p List.mem_cons_self
    obtain ⟨htracks, hwaits⟩ := h.enroll hwaits hp
    rw [List.append_cons] at hs ⊢
    obtain ⟨hall, havailable⟩ := ih htracks hs hwaits
    exact ⟨hall, havailable.trans (w.enroll_available p)⟩

/-- Planning phase by phase, each by looking for ready tasks. -/
def rescanPhases (tasks : List Task) (available : KeySet) : List Nat → Except BuildError (List Nat)
  | [] => .ok []
  | phase :: phases => do
    let members := tasks.zipIdx.filter fun p => p.1.phase == phase
    let progress := rescan members.length available members
    if progress.left.isEmpty then
      let rest ← rescanPhases tasks progress.available phases
      .ok (progress.order ++ rest)
    else
      .error (.scheduling phase (progress.left.map fun p => stuck tasks progress.available p.1))

/-- What is left over by the worklist of a phase is what the search leaves over. -/
theorem drain_eq_rescan {members : List Placed} {available b : KeySet} (hs : Sorted members)
    (hin : ∀ p ∈ members, tasks[p.2]? = some p.1) (h : ∀ key, key ∈ available ↔ key ∈ b) :
    let drained := Worklist.drain tasks members.length (members.foldl Worklist.enroll { available })
    let progress := rescan members.length b members
    drained.1 = progress.order ∧ (∀ key, key ∈ drained.2.available ↔ key ∈ progress.available) ∧
      drained.2.missing.keys = progress.left.map (·.2) := by
  intro drained progress
  have hnone : Worklist.Tracks { available } [] := ⟨by simp, by simp, by simp, by simp, by simp⟩
  obtain ⟨htracks, havailable⟩ := tracks_foldl_enroll hnone hs (by simp)
  have hsame (key : ItemKey) : key ∈ (members.foldl Worklist.enroll { available }).available ↔ key ∈ b := by
    rw [havailable, h]
  obtain ⟨horder, hleft, hmade⟩ := htracks.drain (n := members.length) hs hin hsame
  refine ⟨horder, hmade, hleft.keys_missing (hs.sublist rescan_left_sublist) fun p hp => ?_⟩
  have hblocked := rescan_left_blocked (Nat.le_refl _) p hp
  rwa [Bool.eq_false_iff, Ne, isReady_iff_unmet, unmet_congr hmade, ← isReady_iff_unmet, ← Ne, ← Bool.eq_false_iff]

theorem planPhases_eq {a b : KeySet} (h : ∀ key, key ∈ a ↔ key ∈ b) (phases : List Nat) :
    planPhases tasks a phases = rescanPhases tasks b phases := by
  induction phases generalizing a b with
  | nil => rfl
  | cons phase phases ih =>
    have hin : ∀ p ∈ tasks.zipIdx.filter fun p => p.1.phase == phase, tasks[p.2]? = some p.1 :=
      fun p hp => mem_zipIdx.mp (List.mem_filter.mp hp).1
    obtain ⟨horder, hmade, hkeys⟩ := drain_eq_rescan ((sorted_zipIdx tasks).filter _) hin h
    have hempty := congrArg List.isEmpty hkeys
    rw [Std.TreeMap.isEmpty_keys, List.isEmpty_map] at hempty
    simp only [planPhases, rescanPhases, hempty, horder, ih hmade, hkeys, List.filterMap_map]
    congr 3
    refine List.filterMap_eq_map_iff_forall_eq_some.mpr fun p hp => ?_
    rw [Function.comp_apply, hin p (rescan_left_sublist.subset hp), Option.map_some]
    simp only [stuck, unmet_congr hmade]

end Task

end Stackwright
