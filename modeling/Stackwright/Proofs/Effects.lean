import Stackwright.Effect

/-
  Stackwright.Proofs.Effects — opening work that may fail.

  One equation per way of building work, and the inversion of a sequence that succeeded.
-/

namespace Stackwright.Effect

variable {e : BuildError}

variable {σ τ α β : Type}

@[simp] theorem exec_pure (a : α) (s : σ) : (pure a : Effect σ α).exec s = (.ok a, s) := rfl

@[simp] theorem exec_throw (e : BuildError) (s : σ) : (throw e : Effect σ α).exec s = (.error e, s) := rfl

@[simp] theorem exec_fail (e : BuildError) (s : σ) : (fail e : Effect σ α).exec s = (.error e, s) := rfl

@[simp] theorem exec_lift (x : Except BuildError α) (s : σ) : (liftM x : Effect σ α).exec s = (x, s) := rfl

@[simp] theorem exec_get (s : σ) : (get : Effect σ σ).exec s = (.ok s, s) := rfl

@[simp] theorem exec_set (t s : σ) : (set t : Effect σ PUnit).exec s = (.ok ⟨⟩, t) := rfl

@[simp] theorem exec_modify (f : σ → σ) (s : σ) : (modify f : Effect σ PUnit).exec s = (.ok ⟨⟩, f s) := rfl

@[simp] theorem exec_zoom (view : σ → τ) (put : τ → σ → σ) (x : Effect τ α) (s : σ) :
    (zoom view put x).exec s = ((x.exec (view s)).1, put (x.exec (view s)).2 s) := rfl

theorem exec_bind (x : Effect σ α) (f : α → Effect σ β) (s : σ) :
    (x >>= f).exec s =
      match x.exec s with
      | (.ok a, t) => (f a).exec t
      | (.error e, t) => (.error e, t) := by
  simp only [exec, ExceptT.run_bind, StateT.run_bind]
  cases h : x.run.run s with
  | mk r t => cases r <;> rfl

@[simp] theorem exec_map (f : α → β) (x : Effect σ α) (s : σ) :
    (f <$> x).exec s =
      match x.exec s with
      | (.ok a, t) => (.ok (f a), t)
      | (.error e, t) => (.error e, t) := by
  rw [map_eq_pure_bind, exec_bind]
  rfl

/-- A sequence succeeds when both parts do. -/
theorem exec_bind_ok {x : Effect σ α} {f : α → Effect σ β} {s u : σ} {b : β} :
    (x >>= f).exec s = (.ok b, u) ↔ ∃ a t, x.exec s = (.ok a, t) ∧ (f a).exec t = (.ok b, u) := by
  rw [exec_bind]
  constructor
  · intro h
    split at h
    · rename_i a t hx
      exact ⟨a, t, hx, h⟩
    · cases h
  · rintro ⟨a, t, hx, hf⟩
    rw [hx]
    exact hf

/-- Work that starts with a plain answer succeeds when the answer is there. -/
theorem exec_lift_bind_ok {x : Except BuildError α} {f : α → Effect σ β} {s u : σ} {b : β} :
    ((liftM x : Effect σ α) >>= f).exec s = (.ok b, u) ↔ ∃ a, x = .ok a ∧ (f a).exec s = (.ok b, u) := by
  rw [exec_bind, exec_lift]
  cases x <;> simp

/-- A sequence fails when one of its parts does. -/
theorem exec_bind_error {x : Effect σ α} {f : α → Effect σ β} {s u : σ} :
    (x >>= f).exec s = (.error e, u) ↔
      x.exec s = (.error e, u) ∨ ∃ a t, x.exec s = (.ok a, t) ∧ (f a).exec t = (.error e, u) := by
  rw [exec_bind]
  cases h : x.exec s with
  | mk r t =>
    cases r with
    | ok a =>
      simp only [Prod.mk.injEq, Except.ok.injEq, reduceCtorEq, false_and, false_or]
      constructor
      · intro hf
        exact ⟨a, t, ⟨rfl, rfl⟩, hf⟩
      · rintro ⟨_, _, ⟨rfl, rfl⟩, hf⟩
        exact hf
    | error e' => simp

/-- Work that leaves the state as it is. -/
def Keeps (x : Effect σ α) : Prop := ∀ s, (x.exec s).2 = s

theorem Keeps.bind {x : Effect σ α} {f : α → Effect σ β} (hx : x.Keeps) (hf : ∀ a, (f a).Keeps) : (x >>= f).Keeps := by
  intro s
  have hs := hx s
  rw [exec_bind]
  cases h : x.exec s with
  | mk r t =>
    rw [h] at hs
    cases r with
    | ok a => exact (hf a t).trans hs
    | error e => exact hs

end Stackwright.Effect

namespace Stackwright

variable {α β : Type}

/-- A sequence succeeds when both parts do. -/
theorem except_bind_ok {x : Except BuildError α} {f : α → Except BuildError β} {b : β} :
    (x >>= f) = .ok b ↔ ∃ a, x = .ok a ∧ f a = .ok b := by
  cases x <;> simp [bind, Except.bind]

theorem except_bind_error {x : Except BuildError α} {f : α → Except BuildError β} :
    (x >>= f) = .error e ↔ x = .error e ∨ ∃ a, x = .ok a ∧ f a = .error e := by
  cases x <;> simp [bind, Except.bind]

end Stackwright
