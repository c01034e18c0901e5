import Stackwright.Proofs.Lowerable

/-
  Stackwright.Proofs.SwitchTables — the table of a switch.

  A table has one entry for each number up to the largest one that is claimed. The entries are counted in 32 bits, so
  that there are none when the last number of 32 bits is claimed.
-/

namespace Stackwright

variable {options : BuildOptions} {scope : Scope} {tail : Bool} {s t : Supply} {b : Block}

/-- The largest claimed number is the last one of the table. -/
theorem tableSize_eq {claims : List CaseValues} {top : UInt32} (htop : ∃ values ∈ claims, top ∈ values)
    (hlargest : ∀ values ∈ claims, ∀ v ∈ values, v ≤ top) : tableSize claims = top.toNat + 1 := by
  refine Nat.le_antisymm (tableSize_le_iff.mpr fun values hvalues v hv => ?_) ?_
  · exact Nat.succ_le_succ (UInt32.le_iff_toNat_le.mp (hlargest values hvalues v hv))
  · obtain ⟨values, hvalues, hv⟩ := htop
    exact tableSize_le_iff.mp (Nat.le_refl _) values hvalues top hv

namespace Expr

/-- A label that stands right before the code of an expression. -/
def Marks (options : BuildOptions) (scope : Scope) (tail : Bool) (code : List Instr) (label : Symbol)
    (e : Expr) : Prop :=
  ∃ before body after s t, (e.lower options scope tail).exec s = (.ok body, t) ∧
    code = before ++ .label label :: (body.code ++ after)

theorem Marks.within {code : List Instr} {label : Symbol} {e : Expr} (h : Marks options scope tail code label e)
    (before after : List Instr) : Marks options scope tail (before ++ code ++ after) label e := by
  obtain ⟨first, body, last, s, t, hbody, rfl⟩ := h
  exact ⟨before ++ first, body, last ++ after, s, t, hbody, by simp⟩

/-- Every case that claims something stands behind its label. -/
theorem marks_of_lowerCases {leave : List Instr} : ∀ {cases : List (CaseValues × Expr)} {labels : List Symbol}
    {s : Supply} {b : Block},
    (lowerCases options cases labels leave scope tail).exec s = (.ok b, t) → ∀ {i : Nat} {c : CaseValues × Expr}
      {label : Symbol},
      cases[i]? = some c → labels[i]? = some label → c.1.isEmpty = false → Marks options scope tail b.code label c.2
  | [], _, _, _, _, _, _, _, hc, _, _ => by cases hc
  | _ :: _, [], _, _, _, _, _, _, _, hlabel, _ => by cases hlabel
  | (values, e) :: cases, label :: labels, s, b, h, i, c, l, hc, hlabel, hvalues => by
    rw [lowerCases] at h
    split at h
    · rename_i hempty
      cases i with
      | zero =>
        cases hc
        exact absurd hempty (by simp [hvalues])
      | succ i => exact marks_of_lowerCases h hc hlabel hvalues
    · obtain ⟨body, s₁, hbody, h⟩ := Effect.exec_bind_ok.mp h
      obtain ⟨rest, s₂, hrest, h⟩ := Effect.exec_bind_ok.mp h
      cases h
      cases i with
      | zero =>
        cases hc
        cases hlabel
        exact ⟨[], body, leave ++ rest.code, s, s₁, hbody, by simp⟩
      | succ i =>
        simpa using (marks_of_lowerCases hrest hc hlabel hvalues).within (.label label :: body.code ++ leave) []

/-- The entry of a number is the label of the one case that claims it. -/
theorem findIdx?_of_claims {claims : List CaseValues} {v : UInt32} {i : Nat} {values : CaseValues}
    (hclaims : Dispatchable options claims)
    (hvalues : claims[i]? = some values) (hv : v ∈ values) : claims.findIdx? (·.contains v) = some i := by
  obtain ⟨hi, rfl⟩ := List.getElem?_eq_some_iff.mp hvalues
  refine List.findIdx?_eq_some_iff_getElem.mpr ⟨hi, Std.TreeSet.contains_iff_mem.mpr hv, fun j hj hcontains => ?_⟩
  exact List.pairwise_iff_getElem.mp hclaims.disjoint j i (by omega) hi hj v hv
    (Std.TreeSet.contains_iff_mem.mp hcontains)

/-- What the code of a switch with a table is made of. -/
theorem code_of_switch {value fallback : Expr} {cases : List (CaseValues × Expr)}
    (h : ((Expr.switch value cases fallback).lower options scope tail).exec s = (.ok b, t))
    (hsize : tableSize (cases.map (·.1)) ≠ 0) :
    Dispatchable options (cases.map (·.1)) ∧ ∃ before labels other fb cb leave ending s₁ s₂,
      labels.length = cases.length ∧
      b.code = before ++ .switch (dispatchTable (cases.map (·.1)) labels other) :: .label other ::
        (fb.code ++ (leave ++ (cb.code ++ ending))) ∧
      (fallback.lower options scope tail).exec s₁ = (.ok fb, s₂) ∧
      (lowerCases options cases labels leave scope tail).exec s₂ = (.ok cb, t) := by
  rw [lower] at h
  obtain ⟨_, hcheck, h⟩ := Effect.exec_lift_bind_ok.mp h
  obtain ⟨type, htype, h⟩ := Effect.exec_lift_bind_ok.mp h
  obtain ⟨vb, s₁, hvalue, h⟩ := Effect.exec_bind_ok.mp h
  simp only [Effect.exec_bind_ok, exec_freshLabel, exec_freshLabels, exec_dispatch, exec_freshEnd?, Prod.mk.injEq,
    Except.ok.injEq] at h
  obtain ⟨other, _, -, labels, _, ⟨hlabels, -⟩, code, _, ⟨hcode, -⟩, end?, s₄, -, fb, s₅, hfallback, cb, s₆,
    hcases, h⟩ := h
  cases h
  rw [dispatchCode, if_neg (by simpa using hsize)] at hcode
  obtain ⟨guard, rfl⟩ : ∃ guard, code = guard ++ [.switch (dispatchTable (cases.map (·.1)) labels other)] :=
    ⟨_, hcode.symm⟩
  refine ⟨checkDispatch_ok_iff.mp hcheck, vb.code ++ guard, labels, other, fb, cb,
    (end?.toList.map (.branch .always)), (end?.toList.map .label), s₄, s₅,
    hlabels ▸ Supply.length_labels _ _, ?_, hfallback, hcases⟩
  simp

/-- A switch that claims a number gets a table with an entry for each number up to the largest one, unless these are
    all the numbers of 32 bits. The entry of a number is the label before the code of the case that claims it, and no
    other case does; the entry of a number that nobody claims is the label before the fallback. No label stands twice
    in the code. -/
theorem switch_tables_are_complete {value fallback : Expr} {cases : List (CaseValues × Expr)} {top : UInt32}
    (h : ((Expr.switch value cases fallback).lower options scope tail).exec s = (.ok b, t))
      (htop : ∃ c ∈ cases, top ∈ c.1)
    (hlargest : ∀ c ∈ cases, ∀ v ∈ c.1, v ≤ top) :
    ∃ before table other after, b.code = before ++ .switch table :: .label other :: after ∧
      table.length = (if top.toNat + 1 = 2 ^ 32 then 0 else top.toNat + 1) ∧
        Marks options scope tail b.code other fallback ∧
      (∀ label, Symbol.times b.definedLabels label ≤ 1) ∧
      ∀ v : UInt32, v.toNat < table.length →
        (∀ (i : Nat) c, cases[i]? = some c → v ∈ c.1 → (∀ (j : Nat) c', cases[j]? = some c' → v ∈ c'.1 → j = i) ∧
          ∃ label, table[v.toNat]? = some label ∧ Marks options scope tail b.code label c.2) ∧
        ((∀ c ∈ cases, v ∉ c.1) → table[v.toNat]? = some other) := by
  have honce := (Lowers.of_lower _ h).tidy.labels_once
  have hsize : tableSize (cases.map (·.1)) = top.toNat + 1 := tableSize_eq (by simpa using htop)
    (by simpa using hlargest)
  obtain ⟨hdispatch, before, labels, other, fb, cb, leave, ending, s₁, s₂, hlabels, hcode, hfallback, hcases⟩ :=
    code_of_switch h (by omega)
  have hlength : (dispatchTable (cases.map (·.1)) labels other).length = if top.toNat + 1 = 2 ^ 32 then 0 else
      top.toNat + 1 := by
    have := top.toNat_lt
    rw [dispatchTable, List.length_map, List.length_range, UInt32.toNat_ofNat', hsize]
    split <;> omega
  refine ⟨before, _, other, _, hcode, hlength, ?_, honce, fun v hv => ?_⟩
  · exact ⟨before ++ [.switch _], fb, _, _, _, hfallback, by rw [hcode, List.append_assoc]; rfl⟩
  have hentry : (dispatchTable (cases.map (·.1)) labels other)[v.toNat]? =
      some ((((cases.map (·.1)).findIdx? (·.contains v)).bind fun i => labels[i]?).getD other) := by
    rw [dispatchTable, List.length_map, List.length_range] at hv
    rw [dispatchTable, List.getElem?_map, List.getElem?_range hv, Option.map_some, UInt32.ofNat_toNat]
  constructor
  · intro i c hc hvc
    have hfound (j : Nat) (c' : CaseValues × Expr) (hc' : cases[j]? = some c') (hv' : v ∈ c'.1) :
        (cases.map (·.1)).findIdx? (·.contains v) = some j :=
      findIdx?_of_claims hdispatch (by rw [List.getElem?_map, hc']; rfl) hv'
    refine ⟨fun j c' hc' hv' => Option.some.inj ((hfound j c' hc' hv').symm.trans (hfound i c hc hvc)), ?_⟩
    have hi : i < labels.length := hlabels ▸ (List.getElem?_eq_some_iff.mp hc).1
    have hmarks := marks_of_lowerCases hcases hc (List.getElem?_eq_getElem hi)
      (Std.TreeSet.isEmpty_eq_false_iff_exists_mem.mpr ⟨v, hvc⟩)
    refine ⟨labels[i], by simp [hentry, hfound i c hc hvc, hi], ?_⟩
    rw [hcode]
    simpa using hmarks.within (before ++ .switch _ :: .label other :: (fb.code ++ leave)) ending
  · intro hnone
    have hmissing : (cases.map (·.1)).findIdx? (·.contains v) = none := by
      simp only [List.findIdx?_eq_none_iff, List.mem_map]
      rintro _ ⟨c, hc, rfl⟩
      exact Bool.eq_false_iff.mpr fun h => hnone c hc (Std.TreeSet.contains_iff_mem.mp h)
    rw [hentry, hmissing]
    rfl

/-- The two ends of the numbers of 32 bits. -/
def choosesEnd (last : UInt32) : Expr :=
  .switch (.literal (.u32 7)) [(.of [0, 2], .literal (.i32 1)), (.of [last], .literal (.i32 2))] (.literal (.i32 0))

/-- The empty scope. -/
def nowhere : Scope := { types := { hierarchy := { table := ∅, catalog := ∅ } }, vars := [] }

/-- Nobody claims 3, which leads to the fallback. -/
theorem choosesEnd_is_complete : ∃ b t before table other after,
    ((choosesEnd 4).lower {} nowhere false).exec {} = (.ok b, t) ∧ b.code = before ++
    .switch table :: .label other :: after ∧
      table.length = 5 ∧ Marks {} nowhere false b.code other (.literal (.i32 0)) ∧ table[(3 : Nat)]? = some other := by
  have hok : (((choosesEnd 4).lower {} nowhere false).exec {}).1.isOk = true := by decide +kernel
  rcases h : ((choosesEnd 4).lower {} nowhere false).exec {} with ⟨_ | b, t⟩
  · rw [h] at hok
    cases hok
  have hlargest : ∀ c ∈ [(CaseValues.of [0, 2], Expr.literal (.i32 1)), (.of [4], .literal (.i32 2))],
      ∀ v ∈ c.1, v ≤ 4 := by
    simp only [CaseValues.of, List.forall_mem_cons, List.foldl_cons, List.foldl_nil, Std.TreeSet.mem_insert]
    simp
    rintro v (rfl | rfl) <;> decide
  obtain ⟨before, table, other, after, hcode, hlength, hfallback, -, hentries⟩ :=
    switch_tables_are_complete h ⟨_, List.mem_cons_of_mem _ List.mem_cons_self, by simp [CaseValues.of]⟩ hlargest
  have hthree := (hentries 3 (by rw [hlength]; decide)).2 (by simp [CaseValues.of])
  exact ⟨b, t, before, table, other, after, rfl, hcode, hlength, hfallback, hthree⟩

/-- The last number of 32 bits is claimed, and there is no entry for any number. -/
theorem full_table_is_empty : ∃ b t before other after,
    ((choosesEnd 4294967295).lower { maxSwitchCases := 4294967296 } nowhere false).exec {} = (.ok b, t) ∧
      b.code = before ++ .switch [] :: .label other :: after := by
  have hok : (((choosesEnd 4294967295).lower { maxSwitchCases := 4294967296 } nowhere false).exec {}).1.isOk =
      true := by
    decide +kernel
  rcases h : ((choosesEnd 4294967295).lower { maxSwitchCases := 4294967296 } nowhere false).exec {} with ⟨_ | b, t⟩
  · rw [h] at hok
    cases hok
  have hsize : tableSize [.of [0, 2], .of [4294967295]] = 4294967296 := by decide +kernel
  obtain ⟨-, before, labels, other, fb, cb, leave, ending, -, -, -, hcode, -⟩ := code_of_switch h (hsize ▸ by decide)
  have hempty : dispatchTable [.of [0, 2], .of [4294967295]] labels other = [] := by rw [dispatchTable, hsize]; rfl
  exact ⟨b, t, before, other, _, rfl, hempty ▸ hcode⟩

end Expr

end Stackwright
