import Stackwright.Error

/-
  Stackwright.Effect — work that may fail and changes a state on the way.

  A failing piece of work still leaves the state it had reached. `zoom` runs work on a part
  of a larger state.
-/

namespace Stackwright

abbrev Effect (σ α : Type) := ExceptT BuildError (StateM σ) α

namespace Effect

variable {σ τ α : Type}

/-- The outcome and the state left behind. -/
def exec (x : Effect σ α) (s : σ) : Except BuildError α × σ := x.run.run s

def zoom (view : σ → τ) (put : τ → σ → σ) (x : Effect τ α) : Effect σ α :=
  fun s => let (r, t) := x.exec (view s); (r, put t s)

/-- Work that cannot fail. -/
def total (x : StateM σ α) : Effect σ α := fun s => let (a, s) := x.run s; (.ok a, s)

def fail (e : BuildError) : Effect σ α := throw e

end Effect

end Stackwright
