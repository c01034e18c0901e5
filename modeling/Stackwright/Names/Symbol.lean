import Stackwright.Text.Order

/-
  Stackwright.Names.Symbol — names of variables, labels and locals.

  A symbol is either written by hand (`named`) or drawn from a supply (`generated`). A
  generated symbol is known by its number alone: the hint is for readers and takes no
  part in comparison, so `==` is coarser than `=`. Named symbols come before generated
  ones. A `Supply` hands out numbers in increasing order and never repeats one: numbers
  are natural numbers here, without the bound of a 64-bit counter, which would come back
  to 0 after 2^64 symbols.
-/

namespace Stackwright

inductive Symbol where
  | named (name : String)
  | generated (id : Nat) (hint : Option String)
  deriving DecidableEq, Repr, Inhabited

namespace Symbol

def text : Symbol → String
  | .named name => name
  | .generated id hint => hint.getD "" ++ "#" ++ toString id

/-- The form used where a symbol stands for itself: a named symbol gets a quote mark. -/
def quoted : Symbol → String
  | .named name => "'" ++ name
  | .generated id hint => hint.getD "" ++ "#" ++ toString id

/-- The readable part: the name, or the hint if there is one. -/
def hint? : Symbol → Option String
  | .named name => some name
  | .generated _ hint => hint

def isGenerated : Symbol → Bool
  | .named _ => false
  | .generated _ _ => true

def order : Symbol → Symbol → Ordering
  | .named a, .named b => Text.order a b
  | .named _, .generated _ _ => .lt
  | .generated _ _, .named _ => .gt
  | .generated i _, .generated j _ => compare i j

instance : Ord Symbol := ⟨order⟩

instance : BEq Symbol := ⟨fun a b => a.order b == .eq⟩

instance : Std.TransCmp order where
  eq_swap {a b} := by
    cases a <;> cases b <;> simp only [order]
    · exact Std.OrientedCmp.eq_swap
    · rfl
    · rfl
    · exact Std.OrientedOrd.eq_swap
  isLE_trans {a b c} hab hbc := by
    cases a <;> cases b <;> cases c <;> simp only [order] at *
    all_goals first
      | exact Std.TransCmp.isLE_trans hab hbc
      | exact Std.TransOrd.isLE_trans hab hbc
      | contradiction
      | rfl

end Symbol

/-- Where generated symbols come from: the number the next one gets. -/
structure Supply where
  next : Nat := 0
  deriving DecidableEq, Repr, Inhabited

namespace Supply

def fresh (hint : Option String) (s : Supply) : Symbol × Supply :=
  (.generated s.next hint, { next := s.next + 1 })

def text (s : Supply) : String := "SymbolGenerator(isolated @ " ++ toString s.next ++ ")"

end Supply

end Stackwright
