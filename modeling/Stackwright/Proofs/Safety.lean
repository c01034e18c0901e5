import Stackwright.Proofs.Steps

/-
  Stackwright.Proofs.Safety — carrying out steps that may misbehave.

  Nothing is known of the actions here but that slots are write-once: an action may fail, may
  leave out what it promised and may write what is not its own, but what is written stays. Even
  so no step starts before its inputs are written, and none starts after a failure.
-/

namespace Stackwright.Step

open Effect

variable {key : ItemKey}

variable {T : Target} {steps : List (Step T)} {step : Step T}

/-- What is written when the action starts is still there, and the same, when it ends. -/
def WritesOnce (step : Step T) : Prop :=
  ∀ (w : Workspace T) (key : ItemKey), w.slots.isWritten key →
    (step.action.exec w).2.slots.get? key = w.slots.get? key

theorem WritesOnce.isWritten (h : step.WritesOnce) {w : Workspace T} (hkey : w.slots.isWritten key) :
    (step.action.exec w).2.slots.isWritten key := by
  rw [Slots.isWritten, h w key hkey]
  exact hkey

/-- The steps at some places are carried out one after another. Each starts with its inputs
written, in the workspace that the one before has left, and ends well with its outputs written. -/
inductive Carries (steps : List (Step T)) : List Nat → Workspace T → Workspace T → Prop
  | nil {w : Workspace T} : Carries steps [] w w
  | cons {i : Nat} {places : List Nat} {step : Step T} {w w₁ w₂ : Workspace T} : steps[i]? = some step →
      (∀ key ∈ step.inputs, w.slots.isWritten key) → step.action.exec w = (.ok (), w₁) →
      (∀ key ∈ step.outputs, w₁.slots.isWritten key) → Carries steps places w₁ w₂ →
      Carries steps (i :: places) w w₂

/-- The action fails, or it leaves out an output and the first one left out is reported. -/
def Breaks (step : Step T) (w : Workspace T) (e : BuildError) (w' : Workspace T) : Prop :=
  step.action.exec w = (.error e, w') ∨
    step.action.exec w = (.ok (), w') ∧ ∃ key,
      (step.outputs.toList.find? fun key => !w'.slots.isWritten key) = some key ∧
      e = .structural (.unproduced step.description key)

/-- What running one step can lead to. -/
theorem exec_run_cases (step : Step T) (w : Workspace T) :
    (∃ w', step.run.exec w = (.ok (), w') ∧ step.action.exec w = (.ok (), w') ∧
      ∀ key ∈ step.outputs, w'.slots.isWritten key) ∨
    ∃ e w', step.run.exec w = (.error e, w') ∧ step.Breaks w e w' := by
  rcases haction : step.action.exec w with ⟨r, w'⟩
  cases r with
  | error e => exact .inr ⟨e, w', exec_bind_error.mpr (.inl haction), .inl haction⟩
  | ok =>
    cases hfind : step.outputs.toList.find? fun key => !w'.slots.isWritten key with
    | some key =>
      refine .inr ⟨_, w', ?_, .inr ⟨haction, key, hfind, rfl⟩⟩
      simp only [run, exec_bind, haction, exec_get, hfind]
      rfl
    | none =>
      refine .inl ⟨w', ?_, rfl, fun key hkey => ?_⟩
      · simp only [run, exec_bind, haction, exec_get, hfind]
        rfl
      · simpa using List.find?_eq_none.mp hfind key (Std.TreeSet.mem_toList.mpr hkey)

/-- What the steps at some places make is written. -/
def Written (steps : List (Step T)) (places : List Nat) (w : Workspace T) : Prop :=
  ∀ key, Task.Makes (tasks steps) places key → w.slots.isWritten key = true

/-- A step that ends well adds its outputs to what is written. -/
theorem Written.snoc {before : List Nat} {i : Nat} {w w' : Workspace T} (hw : Written steps before w)
    (hstep : steps[i]? = some step) (honce : step.WritesOnce) (haction : step.action.exec w = (.ok (), w'))
    (hmade : ∀ key ∈ step.outputs, w'.slots.isWritten key) : Written steps (before ++ [i]) w' := by
  rintro key ⟨j, hj, t, ht, hkey⟩
  rcases List.mem_append.mp hj with hj | hj
  · have hkept := honce.isWritten (hw key ⟨j, hj, t, ht, hkey⟩)
    rwa [haction] at hkept
  · obtain rfl := List.mem_singleton.mp hj
    obtain rfl : step.toTask = t := by simpa [hstep] using ht
    exact hmade key hkey

/-- The rest of a schedule is carried out to its end, or up to a step that breaks. -/
theorem exec_runAll_carries (honce : ∀ step ∈ steps, step.WritesOnce) {order : List Nat}
    (hschedule : Task.Schedule (tasks steps) order) : ∀ {after before : List Nat} {w : Workspace T},
      order = before ++ after → Written steps before w →
      (∃ w', Carries steps after w w' ∧ Written steps order w' ∧
        (runAll steps.toArray after).exec w = (.ok (after.filterMap fun i => steps[i]?.map (·.description)), w')) ∨
      ∃ done i rest step w₁ e w₂, after = done ++ i :: rest ∧ Carries steps done w w₁ ∧ steps[i]? = some step ∧
        (∀ key ∈ step.inputs, w₁.slots.isWritten key) ∧ step.Breaks w₁ e w₂ ∧
        (runAll steps.toArray after).exec w = (.error e, w₂)
  | [], before, w, horder, hw => by
    rw [List.append_nil] at horder
    exact .inl ⟨w, .nil, horder ▸ hw, rfl⟩
  | i :: after, before, w, horder, hw => by
    obtain ⟨step, hstep, hnext⟩ := runAll_next hschedule horder
    have hinputs : ∀ key ∈ step.inputs, w.slots.isWritten key := fun key hkey =>
      hw key (hschedule.fed before i after step.toTask horder (by simp [hstep]) key hkey)
    rw [hnext]
    rcases exec_run_cases step w with ⟨w₁, hfirst, haction, hmade⟩ | ⟨e, w₁, hfirst, hbreaks⟩
    · have hw₁ := hw.snoc hstep (honce _ (List.mem_of_getElem? hstep)) haction hmade
      have hsplit : order = before ++ [i] ++ after := by simpa using horder
      rcases exec_runAll_carries honce hschedule hsplit hw₁ with
        ⟨w', hcarries, hwritten, hrest⟩ | ⟨done, j, rest, step, w₂, e, w₃, rfl, hcarries, hj, hready, hbreaks, hrest⟩
      · refine .inl ⟨w', .cons hstep hinputs haction hmade hcarries, hwritten, ?_⟩
        rw [exec_bind_ok]
        refine ⟨(), w₁, hfirst, exec_bind_ok.mpr ⟨_, w', hrest, ?_⟩⟩
        simp [hstep]
      · refine .inr ⟨i :: done, j, rest, step, w₂, e, w₃, rfl, .cons hstep hinputs haction hmade hcarries, hj, hready,
          hbreaks, ?_⟩
        exact exec_bind_error.mpr (.inr ⟨(), w₁, hfirst, exec_bind_error.mpr (.inl hrest)⟩)
    · exact .inr ⟨[], i, after, step, w, e, w₁, rfl, .nil, hstep, hinputs, hbreaks, exec_bind_error.mpr (.inl hfirst)⟩

/-- Steps that cannot be planned change nothing. Steps that can be are carried out in the planned
order, which has each of them once. Either all of them end well; then every output is written, and
the answer is their descriptions. Or one of them breaks; then the workspace is as that step left it. -/
theorem execute_is_safe (steps : List (Step T)) (honce : ∀ step ∈ steps, step.WritesOnce) (w : Workspace T) :
    (∀ e, Task.plan (tasks steps) = .error e → (execute steps).exec w = (.error e, w)) ∧
    ∀ order, Task.plan (tasks steps) = .ok order → order.Perm (List.range steps.length) ∧
      ((∃ w', Carries steps order { w with slots := createSlots steps w.slots } w' ∧
          (execute steps).exec w = (.ok (order.filterMap fun i => steps[i]?.map (·.description)), w') ∧
          ∀ step ∈ steps, ∀ key ∈ step.outputs, w'.slots.isWritten key = true) ∨
        ∃ before i after step w₁ e w₂, order = before ++ i :: after ∧
          Carries steps before { w with slots := createSlots steps w.slots } w₁ ∧ steps[i]? = some step ∧
          (∀ key ∈ step.inputs, w₁.slots.isWritten key = true) ∧ step.Breaks w₁ e w₂ ∧
          (execute steps).exec w = (.error e, w₂)) := by
  refine ⟨fun e hplan => ?_, fun order hplan => ?_⟩
  · rw [execute, hplan]
    rfl
  · obtain ⟨-, hschedule⟩ := Task.plan_completes hplan
    have hperm : order.Perm (List.range steps.length) := by simpa using hschedule.perm
    have hexecute : (execute steps).exec w =
        (runAll steps.toArray order).exec { w with slots := createSlots steps w.slots } := by
      rw [execute, hplan]
      rfl
    have hstart : Written steps [] { w with slots := createSlots steps w.slots } := by
      rintro key ⟨i, hi, -⟩
      cases hi
    rw [hexecute]
    refine ⟨hperm, ?_⟩
    rcases exec_runAll_carries honce hschedule rfl hstart with ⟨w', hcarries, hwritten, hrun⟩ | hbreaks
    · refine .inl ⟨w', hcarries, hrun, fun step hstep key hkey => ?_⟩
      obtain ⟨i, hi, hget⟩ := List.mem_iff_getElem.mp hstep
      refine hwritten key ⟨i, hperm.mem_iff.mpr (List.mem_range.mpr hi), step.toTask, ?_, hkey⟩
      simp [List.getElem?_eq_getElem hi, hget]
    · exact .inr hbreaks

/-- Slots are write-once: writing changes none that is written. -/
theorem writesOnce_write {v : T.At key} (haction : step.action = Workspace.write key v) : step.WritesOnce := by
  intro w k hk
  rw [haction]
  cases hwrite : w.slots.write key v with
  | error e =>
    have : (Workspace.write key v).exec w = (.error e, w) := by simp [Workspace.write, exec_bind, hwrite]
    rw [this]
  | ok slots =>
    have : (Workspace.write key v).exec w = (.ok (), { w with slots }) := by simp [Workspace.write, exec_bind, hwrite]
    rw [this]
    unfold Slots.write at hwrite
    cases hslot : w.slots.get? key with
    | none => simp [hslot] at hwrite
    | some slot =>
      rw [hslot] at hwrite
      obtain ⟨slot', hslot', hinsert⟩ := except_bind_ok.mp hwrite
      cases hinsert
      rw [Std.DTreeMap.get?_insert, dif_neg]
      -- A slot that can still be written is not the one that was written before.
      intro hcompare
      obtain rfl := Std.LawfulEqCmp.eq_of_compare hcompare
      obtain ⟨name, content⟩ := slot
      cases content with
      | none => simp [Slots.isWritten, hslot, Slot.isWritten] at hk
      | some v => cases hslot'

/-- A type is used, another is made, and a third is promised and forgotten. -/
def forgetful : List (Step recorder) := [
  { phase := 1, description := "use A", inputs := .single (.type ⟨"A"⟩), outputs := ∅, action := pure () },
  { phase := 1, description := "make A", inputs := ∅, outputs := .single (.type ⟨"A"⟩)
    action := Workspace.write (T := recorder) (.type ⟨"A"⟩) "A" },
  { phase := 1, description := "forget B", inputs := ∅, outputs := .single (.type ⟨"B"⟩), action := pure () },
  { phase := 2, description := "use B", inputs := .single (.type ⟨"B"⟩), outputs := ∅, action := pure () }]

theorem forgetful_stops : (∀ step ∈ forgetful, step.WritesOnce) ∧ Task.plan (tasks forgetful) = .ok [1, 0, 2, 3] ∧
    ∃ before i after step w₁ e w₂, [1, 0, 2, 3] = before ++ i :: after ∧
      Carries forgetful before { program := {}, slots := createSlots forgetful ∅ } w₁ ∧ forgetful[i]? = some step ∧
      (∀ key ∈ step.inputs, w₁.slots.isWritten key = true) ∧ step.Breaks w₁ e w₂ ∧
      (execute forgetful).exec { program := {} } = (.error e, w₂) := by
  have hidle {step : Step recorder} (haction : step.action = pure ()) : step.WritesOnce := by
    intro w key _
    rw [haction]
    rfl
  have honce : ∀ step ∈ forgetful, step.WritesOnce := by
    simp only [forgetful, List.forall_mem_cons]
    exact ⟨hidle rfl, writesOnce_write rfl, hidle rfl, hidle rfl, by simp⟩
  have hplan : Task.plan (tasks forgetful) = .ok [1, 0, 2, 3] := rfl
  have hfails : ((execute forgetful).exec { program := {} }).1.isOk = false := by decide +kernel
  refine ⟨honce, hplan, ?_⟩
  rcases ((execute_is_safe forgetful honce { program := {} }).2 _ hplan).2 with ⟨w', -, hok, -⟩ | hbreaks
  · rw [hok] at hfails
    cases hfails
  · exact hbreaks

end Stackwright.Step
