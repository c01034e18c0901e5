import Mathlib.Logic.Relation
import Stackwright.Proofs.Emitted
import Stackwright.Proofs.Execution

/-
  Stackwright.Proofs.Rounds — work in a world, and the rounds of a run.
-/

namespace Stackwright

open Machine

variable {p : Program} {natives : Natives} {g : Frame}

/-! ## Work in a world -/

namespace Machine.Act

variable {α β : Type} {w : World}

@[simp] theorem exec_pure (a : α) : (pure a : Act α).exec w = (.ok a, w) := rfl

@[simp] theorem exec_lift (x : Except Fault α) : (liftM x : Act α).exec w = (x, w) := rfl

@[simp] theorem exec_heap : Act.heap.exec w = (.ok w.heap, w) := rfl

@[simp] theorem exec_map (g : α → β) (x : Act α) : (g <$> x).exec w =
    match x.exec w with
    | (.ok a, w) => (.ok (g a), w)
    | (.error e, w) => (.error e, w) := by
  rw [map_eq_pure_bind, exec_bind]
  rfl

end Machine.Act

section

variable {p : Program} {f : Frame} {pc n address : Nat} {v : Value} {stack : List Value} {field : FieldId} {w : World}

theorem exec_loadField (hslot : p.fieldSlot field = .ok n) (hv : (w.heap.object address).fields[n]? = some v) :
    (loadField p (f.moved pc (.object address :: stack)) field).exec w = (.ok (f.moved pc (v :: stack)), w) := by
  simp only [loadField, Act.exec_bind, Act.exec_lift, Frame.pop, Frame.moved_stack, hslot, fieldOwner,
    Act.exec_heap, hv, Act.exec_pure]
  rfl

end

/-! ## Rounds -/

/-- One round leads from some frames in a world to others. -/
def Advances (p : Program) (natives : Natives) (a b : List Frame × World) : Prop :=
  (advance p natives a.1).exec a.2 = (.ok (.running b.1), b.2)

/-- Some rounds lead there. -/
abbrev Leads (p : Program) (natives : Natives) : List Frame × World → List Frame × World → Prop :=
  Relation.ReflTransGen (Advances p natives)

theorem Advances.of_next {f : Frame} {rest : List Frame} {w w' : World} (h : (step p f).exec w = (.ok (.next g), w'))
    : Advances p natives (f :: rest, w) (g :: rest, w') := by
  show (advance p natives (f :: rest)).exec w = _
  rw [advance, Act.exec_bind, h]
  rfl

end Stackwright
