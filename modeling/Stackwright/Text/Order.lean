/-
  Stackwright.Text.Order — the order of names.

  Names are compared by the bytes of their UTF-8 form. The order is total and lawful
  (`TransCmp`, `LawfulEqCmp`), so it can drive ordered maps and sets.
-/

namespace Stackwright.Text

def bytes (s : String) : List UInt8 := s.toByteArray.data.toList

theorem bytes_inj {s t : String} : bytes s = bytes t ↔ s = t := by
  refine ⟨fun h => String.toByteArray_inj.1 ?_, fun h => h ▸ rfl⟩
  have h' := Array.toList_inj.1 h
  cases hs : s.toByteArray; cases ht : t.toByteArray
  simp_all

def order (s t : String) : Ordering := compare (bytes s) (bytes t)

instance : Std.TransCmp order where
  eq_swap {_ _} := Std.OrientedOrd.eq_swap
  isLE_trans {_ _ _} := Std.TransOrd.isLE_trans

instance : Std.LawfulEqCmp order where
  compare_self {_} := Std.ReflOrd.compare_self
  eq_of_compare {_ _} h := bytes_inj.1 (Std.LawfulEqOrd.eq_of_compare h)

end Stackwright.Text
