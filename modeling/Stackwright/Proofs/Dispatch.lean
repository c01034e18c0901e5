import Stackwright.Proofs.Execution
import Stackwright.Proofs.Meaning

/-
  Stackwright.Proofs.Dispatch — choosing a case of a switch.

  A table has an entry for each number up to the largest one that a case claims, unless these are all
  the numbers of 32 bits. Numbers past the table fall through to the fallback, which stands right
  after the table; so do 32-bit numbers whose top bit is set, whatever the table. Wider numbers are
  compared with the table's size before they are cut.
-/

namespace Stackwright

open Machine

variable {fallback : Symbol}
variable {bound : Nat} {cases : List CaseValues}

/-- The label of the first case that claims a number. -/
def chosenLabel? (v : Int) : List CaseValues → List Symbol → Option Symbol
  | values :: cases, label :: labels => if values.claims v then some label else chosenLabel? v cases labels
  | _, _ => none

/-- The label that a number leads to. -/
def destination (v : Int) (cases : List CaseValues) (labels : List Symbol) (fallback : Symbol) : Symbol :=
  if bounded (tableSize cases) v then (chosenLabel? v cases labels).getD fallback else fallback

/-! ## Tables -/

section Tables

variable {cases : List CaseValues} {values : CaseValues} {v : Int} {n : Nat}

theorem CaseValues.claims_iff : values.claims v ↔ ∃ u ∈ values, (u.toNat : Int) = v := by
  simp [claims, List.any_eq_true, Std.TreeSet.mem_toList]

theorem CaseValues.claims_natCast (hn : n < 2 ^ 32) : values.claims n = values.contains (UInt32.ofNat n) := by
  rw [Bool.eq_iff_iff, claims_iff, Std.TreeSet.contains_iff_mem]
  have htoNat : (UInt32.ofNat n).toNat = n := UInt32.toNat_ofNat_of_lt' hn
  constructor
  · rintro ⟨u, hu, hun⟩
    have hu' : u = UInt32.ofNat n := UInt32.toNat_inj.mp (by rw [htoNat]; exact Int.ofNat_inj.mp hun)
    exact hu' ▸ hu
  · intro hmem
    exact ⟨_, hmem, by rw [htoNat]⟩

theorem foldl_max_le_iff {us : List UInt32} {n : Nat} :
    us.foldl (fun n u => max n (u.toNat + 1)) n ≤ bound ↔ n ≤ bound ∧ ∀ u ∈ us, u.toNat + 1 ≤ bound := by
  induction us generalizing n with
  | nil => simp
  | cons u us ih =>
    rw [List.foldl_cons, ih, List.forall_mem_cons, Nat.max_le]
    exact and_assoc

theorem tableSize_le_iff {claims : List CaseValues} :
    tableSize claims ≤ bound ↔ ∀ values ∈ claims, ∀ v ∈ values, v.toNat + 1 ≤ bound := by
  suffices hfrom : ∀ n, claims.foldl (fun n values => values.toList.foldl (fun n u => max n (u.toNat + 1)) n)
    n ≤ bound ↔
      n ≤ bound ∧ ∀ values ∈ claims, ∀ v ∈ values, v.toNat + 1 ≤ bound by
    rw [tableSize, hfrom 0]
    exact and_iff_right (Nat.zero_le _)
  induction claims with
  | nil => simp
  | cons values claims ih =>
    intro n
    rw [List.foldl_cons, ih, foldl_max_le_iff, List.forall_mem_cons, and_assoc]
    simp only [Std.TreeSet.mem_toList]

theorem tableSize_le (cases : List CaseValues) : tableSize cases ≤ 2 ^ 32 := tableSize_le_iff.mpr fun _ _ v _ =>
    v.toNat_lt

/-- Nothing past the table is claimed. -/
theorem lt_tableSize (hvalues : values ∈ cases) (hv : values.claims v) : v < tableSize cases := by
  obtain ⟨u, hu, rfl⟩ := CaseValues.claims_iff.mp hv
  have := tableSize_le_iff.mp (Nat.le_refl (tableSize cases)) _ hvalues u hu
  omega

theorem chosenLabel?_of_le {labels : List Symbol} (hv : tableSize cases ≤ v) : chosenLabel? v cases labels = none := by
  have hnone : ∀ values ∈ cases, values.claims v = false := by
    intro values hvalues
    rw [← Bool.not_eq_true]
    intro h
    have := lt_tableSize hvalues h
    omega
  clear hv
  fun_induction chosenLabel? v cases labels with
  | case1 values cases label labels hclaims => simp [hnone values List.mem_cons_self] at hclaims
  | case2 values cases label labels hclaims ih =>
    exact ih fun values hvalues => hnone values (List.mem_cons_of_mem _ hvalues)
  | case3 => rfl

theorem destination_of_le {labels : List Symbol} (hv : tableSize cases ≤ v) :
    destination v cases labels fallback = fallback := by
  rw [destination, chosenLabel?_of_le hv]
  split <;> rfl

theorem chosenLabel?_natCast {labels : List Symbol} (hn : n < 2 ^ 32) :
    chosenLabel? n cases labels = (cases.findIdx? (·.contains (UInt32.ofNat n))).bind fun i => labels[i]? := by
  induction cases generalizing labels with
  | nil => rfl
  | cons values cases ih =>
    cases labels with
    | nil => simp [chosenLabel?]
    | cons label labels =>
      rw [chosenLabel?, CaseValues.claims_natCast hn, List.findIdx?_cons, ih]
      split
      · rfl
      · cases cases.findIdx? (·.contains (UInt32.ofNat n)) <;> rfl

/-- An entry of a table is the label of the first case that claims its number. -/
theorem getElem?_dispatchTable {labels : List Symbol} {other : Symbol} (n : Nat) :
    (dispatchTable cases labels other)[n]? =
      if n < tableSize cases % 2 ^ 32 then some ((chosenLabel? n cases labels).getD other) else none := by
  rw [dispatchTable, UInt32.toNat_ofNat', List.getElem?_map]
  by_cases hn : n < tableSize cases % 2 ^ 32
  · rw [if_pos hn, List.getElem?_range hn, chosenLabel?_natCast (by omega)]
    rfl
  · rw [if_neg hn, List.getElem?_eq_none (by rw [List.length_range]; omega)]
    rfl

end Tables

/-! ## Code -/

namespace Layout

variable {L : Layout} {p : Program} {f : Frame} {pc target : Nat} {stack : List Value} {x : Symbol} {v : Int}

theorem Placed.unique {pc' : Nat} (h : L.Placed x pc) (h' : L.Placed x pc') : pc = pc' := by
  obtain ⟨l, hl, hpc⟩ := h
  obtain ⟨l', hl', hpc'⟩ := h'
  cases hl.symm.trans hl'
  exact Option.some.inj (hpc.symm.trans hpc')

/-- A 32-bit number selects the entry of its unsigned reading, and none if its sign bit is set. -/
theorem switchTarget?_ofInt {table : List Symbol} (hv : 0 ≤ v) (hv' : v < 2 ^ 32) :
    switchTarget? table (Int32.ofInt v) = if v < 2 ^ 31 then table[v.toNat]? else none := by
  have hint : (Int32.ofInt v).toInt = if v < 2 ^ 31 then v else v - 2 ^ 32 := by
    rw [Int32.toInt_ofInt, Int.bmod_def, show (Int32.size : Int) = 2 ^ 32 from rfl, Int.emod_eq_of_lt hv hv']
    rfl
  have hneg : Int32.ofInt v < 0 ↔ (if v < 2 ^ 31 then v else v - 2 ^ 32) < 0 := by
    rw [Int32.lt_iff_toInt_lt, hint]
    rfl
  rw [switchTarget?, Int32.toNatClampNeg, hint]
  by_cases hsmall : v < 2 ^ 31
  · rw [if_pos hsmall] at hneg ⊢
    rw [if_neg (hneg.not.mpr (Int.not_lt.mpr hv)), if_pos hsmall]
  · rw [if_neg hsmall] at hneg ⊢
    rw [if_pos (hneg.mpr (Int.sub_neg_of_lt hv')), if_neg hsmall]

/-- A table leads from a number to its case, and past its end to the fallback right after it. -/
theorem runs_switch {labels : List Symbol} (hcode : f.code = L.code)
    (hat : L.At pc (.switch (dispatchTable cases labels fallback))) (hfallback : L.Placed fallback (pc + 1))
      (hv : 0 ≤ v)
    (hv' : v < 2 ^ 32) (hplaced : L.Placed (destination v cases labels fallback) target) :
    Runs p (f.moved pc (.i32 (Int32.ofInt v) :: stack)) (f.moved target stack) := by
  have htarget := @switchTarget?_ofInt _ (dispatchTable cases labels fallback) hv hv'
  rw [getElem?_dispatchTable, Int.toNat_of_nonneg hv] at htarget
  by_cases hin : bounded (tableSize cases) v = true
  · rw [destination, if_pos hin] at hplaced
    rw [bounded_iff] at hin
    rw [if_pos hin.1, if_pos (by omega)] at htarget
    exact (next_switch hcode hat htarget hplaced).runs
  · rw [destination, if_neg hin] at hplaced
    rw [bounded_iff] at hin
    rw [hplaced.unique hfallback]
    refine (next_switch_past hcode hat (htarget.trans ?_)).runs
    split
    · exact if_neg (by omega)
    · rfl

/-- A 64-bit number is cut to 32 bits when it is within the table, and sent to the fallback otherwise. -/
theorem runs_wideGuard {inRange : Symbol} {size : Nat} (hcode : f.code = L.code)
    (hholds : L.Holds pc (wideGuard size inRange fallback)) (hfallback : L.Placed fallback target)
    (hsize : size ≤ 2 ^ 32) (hv : 0 ≤ v) (hv' : v < 2 ^ 64) :
    Runs p (f.moved pc (.i64 (Int64.ofInt v) :: stack))
      (if v < size then f.moved (pc + extent (wideGuard size inRange fallback)) (.i32 (Int32.ofInt v) :: stack)
        else f.moved target stack) := by
  obtain ⟨hdup, hload, hless, hbranch, hpop, hleave, hplaced, hcut, -⟩ := hholds
  have hcompare : Machine.compare .cltUn (.i64 (Int64.ofInt v)) (.i64 (Int64.ofNat size)) = .ok
      (decide (v < size)) := by
    rw [← Int64.ofInt_eq_ofNat]
    have hfits : Word.Fits true 64 v := ⟨hv, hv'⟩
    have hfits' : Word.Fits true 64 size := ⟨by omega, by omega⟩
    exact ordered_value (p := .u64) (Word.word_lt (by decide) hfits hfits')
  have hconvert : Machine.convert .convU4 (.i64 (Int64.ofInt v)) = .ok (.i32 (Int32.ofInt v)) := by
    rw [← Int64.toInt32_ofInt]
    rfl
  have hbranch' : L.At (pc + 1 + 1 + 1) (.branch (decidingBranch true) inRange) := hbranch
  refine .step (next_dup hcode hdup) (.step (exec_calc hcode hload .i64) ?_)
  refine .step (exec_calc hcode hless (.compare rfl hcompare)) ?_
  refine .step (next_branchIf hcode hbranch' hplaced _) ?_
  by_cases hin : v < size
  · simp only [hin, decide_true, if_true]
    exact Next.runs (exec_calc hcode hcut (.convert rfl hconvert))
  · simp only [hin, decide_false, Bool.false_eq_true, if_false]
    exact .step (next_pop hcode hpop) (next_branch hcode hleave hfallback).runs

/-- What a switch branches on is unsigned; all but the widest travel in 32 bits. -/
theorem switchable_cases {type : Primitive} (htype : Expr.isSwitchable (.primitive type)) (hv : type.InRange v) :
    type = .u64 ∧ 0 ≤ v ∧ v < 2 ^ 64 ∨
      isWide (.primitive type) = false ∧ (Datum.int type v).value = .i32 (Int32.ofInt v) ∧ 0 ≤ v ∧ v < 2 ^ 32 := by
  cases type <;> try contradiction
  case u64 => exact .inl ⟨rfl, hv⟩
  all_goals
    obtain ⟨hnonneg, hlt⟩ := hv
    exact .inr ⟨rfl, rfl, hnonneg, Int.lt_of_lt_of_le hlt (by decide)⟩

/-- The code of a switch leads from a number to its case, or else to the fallback that follows. -/
theorem runs_dispatch {labels : List Symbol} {type : Primitive} {s : Supply} (hcode : f.code = L.code)
    (hholds : L.Holds pc (dispatchCode (tableSize cases) (isWide (.primitive type))
      (dispatchTable cases labels fallback) fallback s ++ [.label fallback]))
    (htype : Expr.isSwitchable (.primitive type)) (hv : type.InRange v)
    (hplaced : L.Placed (destination v cases labels fallback) target) :
    Runs p (f.moved pc ((Datum.int type v).value :: stack)) (f.moved target stack) := by
  obtain ⟨hdispatch, hfallback, -⟩ := holds_append.mp hholds
  have hrange := switchable_cases htype hv
  have hsize := tableSize_le cases
  rw [dispatchCode] at hdispatch hfallback
  by_cases hzero : tableSize cases = 0
  · simp only [hzero, BEq.rfl, if_true] at hdispatch hfallback
    rw [destination_of_le (by omega)] at hplaced
    rw [hplaced.unique hfallback]
    exact (next_pop hcode hdispatch.1).runs
  · simp only [beq_iff_eq, hzero, if_false] at hdispatch hfallback
    rcases hrange with ⟨rfl, hv₀, hv₁⟩ | ⟨hwide, hvalue, hv₀, hv₁⟩
    · obtain ⟨hguard, hswitch, -⟩ := holds_append.mp hdispatch
      rw [extent_append, ← Nat.add_assoc] at hfallback
      have hrun : Runs p (f.moved pc (.i64 (Int64.ofInt v) :: stack)) _ :=
        runs_wideGuard hcode hguard hfallback hsize hv₀ hv₁
      by_cases hin : v < tableSize cases
      · rw [if_pos hin] at hrun
        exact hrun.trans (runs_switch hcode hswitch hfallback hv₀ (by omega) hplaced)
      · rw [if_neg hin] at hrun
        rw [destination_of_le (by omega)] at hplaced
        rw [hplaced.unique hfallback]
        exact hrun
    · rw [hwide] at hdispatch hfallback
      rw [hvalue]
      exact runs_switch hcode hdispatch.1 hfallback hv₀ hv₁ hplaced

end Layout

end Stackwright
