import Mathlib.Logic.Relation
import Stackwright.Proofs.Tidy

/-
  Stackwright.Proofs.Paths — control paths through code, and how high the stack is on them.

  What is asked for after some code, and at the labels behind it, says what is asked for before
  it (`Prospect`). Code that only jumps to labels behind it is read in one pass, from its end to its
  start. Read for the height of the stack, it says where every path through the code leads.
-/

namespace Stackwright

variable {m : Nat}

/-! ## Reading code from its end -/

/-- What is asked for here, and at the labels that are still to come. -/
structure Prospect (α : Type) where
  here : α → Prop
  label : Symbol → α → Prop

namespace Prospect

variable {α : Type}

/-- There is no code left to go on with. -/
def none : Prospect α := ⟨fun _ => False, fun _ _ => False⟩

variable (check : Instr → Prospect α → α → Prop)

/-- What is asked for before an instruction. -/
def before (i : Instr) (K : Prospect α) : Prospect α :=
  match i with
  | .label x => { K with label := fun y a => y = x ∧ K.here a ∨ K.label y a }
  | i => { K with here := check i K }

/-- What is asked for before some code. -/
def ahead (code : List Instr) (K : Prospect α) : Prospect α := code.foldr (before check) K

variable {check} {i : Instr} {code a b : List Instr} {K : Prospect α} {x : Symbol} {v : α}

theorem ahead_append : ahead check (a ++ b) K = ahead check a (ahead check b K) := List.foldr_append

theorem before_of_ne (hi : ∀ x, i ≠ .label x) : before check i K = { K with here := check i K } := by
  cases i with
  | label x => exact absurd rfl (hi x)
  | _ => rfl

/-- Labels that are still to come stay so. -/
theorem label_ahead (h : K.label x v) : (ahead check code K).label x v := by
  induction code with
  | nil => exact h
  | cons i code ih =>
    show (before check i (ahead check code K)).label x v
    cases i with
    | label y => exact .inr ih
    | _ => exact ih

theorem label_mark (h : (ahead check code K).here v) : (ahead check (.label x :: code) K).label x v := .inl ⟨rfl, h⟩

/-- A label that is still to come stands somewhere in the rest of the code, or behind it. -/
theorem exists_mark (h : (ahead check code K).label x v) :
    K.label x v ∨ ∃ done rest, code = done ++ .label x :: rest ∧ (ahead check rest K).here v := by
  induction code with
  | nil => exact .inl h
  | cons i code ih =>
    have h : (before check i (ahead check code K)).label x v := h
    have hlater (h : (ahead check code K).label x v) :
        K.label x v ∨ ∃ done rest, i :: code = done ++ .label x :: rest ∧ (ahead check rest K).here v := by
      refine (ih h).imp id ?_
      rintro ⟨done, rest, rfl, hrest⟩
      exact ⟨i :: done, rest, rfl, hrest⟩
    cases i with
    | label y =>
      rcases h with ⟨rfl, hhere⟩ | h
      · exact .inr ⟨[], code, rfl, hhere⟩
      · exact hlater h
    | _ => exact hlater h

theorem here_append (h : (ahead check a (ahead check b K)).here v) : (ahead check (a ++ b) K).here v := by
  rwa [ahead_append]

theorem here_cons (hi : ∀ x, i ≠ .label x) : (ahead check (i :: code) K).here v ↔ check i (ahead check code K) v := by
  show (before check i (ahead check code K)).here v ↔ _
  rw [before_of_ne hi]

/-! ### Leaving a construct -/

/-- A construct has come to its result: the member returns, if it may, or the code goes on. -/
def Resumes (fin : Prop) (w : α) (tail : Bool) (K : Prospect α) : Prop := if tail then fin else K.here w

/-- The end of a construct can be reached with its result: the member returns, or the end is still to come. -/
structure Ends (fin : Prop) (w : α) (tail : Bool) (s : Supply) (K : Prospect α) : Prop where
  returned : tail → fin
  label : tail = false → K.label s.label w

variable {fin : Prop} {w : α} {tail : Bool} {s : Supply}

theorem Ends.ahead (h : Ends fin w tail s K) : Ends fin w tail s (ahead check code K) :=
  ⟨h.returned, fun htail => label_ahead (h.label htail)⟩

theorem ends_endMark (h : Resumes fin w tail K) : Ends fin w tail s (ahead check (endMark tail s) K) := by
  cases tail with
  | true => exact ⟨fun _ => h, fun htail => absurd htail (by simp)⟩
  | false => exact ⟨fun htail => absurd htail (by simp), fun _ => label_mark h⟩

theorem resumes_endMark (h : Resumes fin w tail K) : Resumes fin w tail (ahead check (endMark tail s) K) := by
  cases tail <;> exact h

/-! ### Branching -/

variable (check) in
/-- How control goes on, whatever the code is read for. A truth value on top of the stack is written `flag`. -/
structure Controls (flag : α → α) : Prop where
  branch : ∀ {K : Prospect α} {x : Symbol} {v : α}, K.label x v → check (.branch .always x) K v
  test : ∀ {K : Prospect α} {x : Symbol} {v : α} (isOr : Bool), K.label x v → K.here v →
    check (.branch (decidingBranch isOr) x) K (flag v)
  loadI32 : ∀ {K : Prospect α} {v : α} (k : Int32), K.here (flag v) → check (.loadI32 k) K v

namespace Controls

variable {flag : α → α}

theorem resumes_leaveTo (hc : Controls check flag) (h : Ends fin w tail s K) :
    Resumes fin w tail (Prospect.ahead check (leaveTo tail s) K) := by
  cases tail with
  | true => exact h.returned rfl
  | false => exact (here_cons (by simp)).mpr (hc.branch (h.label rfl))

theorem deciding (hc : Controls check flag) (isOr : Bool) (hx : K.label x v) (h : K.here v) :
    (Prospect.ahead check [.branch (decidingBranch isOr) x] K).here (flag v) :=
  (here_cons (by simp)).mpr (hc.test isOr hx h)

theorem ite (hc : Controls check flag) {condition first second : List Instr}
    (hcondition : ∀ K, K.here (flag v) → (Prospect.ahead check condition K).here v)
    (hfirst : ∀ K, Resumes fin w tail K → (Prospect.ahead check first K).here v)
    (hsecond : ∀ K, Resumes fin w tail K → (Prospect.ahead check second K).here v) (h : Resumes fin w tail K) :
    (Prospect.ahead check (condition ++ [.branch .false x] ++ first ++ (leaveTo tail s ++ [.label x]) ++ second ++
      endMark tail s) K).here v := by
  refine here_append (here_append (here_append (here_append
    (here_append (hcondition _ (hc.deciding false (label_ahead ?_) ?_))))))
  · rw [ahead_append]
    exact label_ahead (label_mark (hsecond _ (resumes_endMark h)))
  · refine hfirst _ ?_
    rw [ahead_append]
    exact hc.resumes_leaveTo (ends_endMark h).ahead.ahead

theorem shortCircuit (hc : Controls check flag) {isOr : Bool} {first rest : List Instr}
    (hfirst : ∀ K, K.here (flag v) → (Prospect.ahead check first K).here v)
    (hrest : ∀ K, Resumes fin (flag v) tail K → K.label x v → (Prospect.ahead check rest K).here v)
    (hret : ∀ K, Resumes fin (flag v) tail K → (Prospect.ahead check (retIf tail) K).here (flag v))
    (h : Resumes fin (flag v) tail K) :
    (Prospect.ahead check (first ++ [.branch (decidingBranch isOr) x] ++ rest ++
      (leaveTo tail s ++ [.label x, .loadI32 (if isOr then 1 else 0)] ++ retIf tail ++ endMark tail s)) K).here v := by
  rw [List.append_assoc (leaveTo tail s ++ _), List.append_assoc (leaveTo tail s)]
  have hdecided : (Prospect.ahead check (leaveTo tail s ++
      ([.label x, .loadI32 (if isOr then 1 else 0)] ++ (retIf tail ++ endMark tail s))) K).label x v := by
    rw [ahead_append, List.cons_append, List.cons_append, List.nil_append]
    refine label_ahead (label_mark ((here_cons (by simp)).mpr (hc.loadI32 _ (here_append ?_))))
    exact hret _ (resumes_endMark h)
  refine here_append (here_append (here_append (hfirst _
    (hc.deciding isOr (label_ahead hdecided) (hrest _ ?_ hdecided)))))
  rw [ahead_append, ahead_append, ahead_append]
  exact hc.resumes_leaveTo (ends_endMark h).ahead.ahead

/-- The code that chooses a case leads to the fallback and to the labels of the table. -/
theorem switch (hc : Controls check flag) {u : α} {fallback : Symbol} {table : List Symbol}
    {value dispatch other cases : List Instr} (hvalue : ∀ K, K.here u → (Prospect.ahead check value K).here v)
    (hdispatch : ∀ K, K.here v → K.label fallback v → (∀ x ∈ table, K.label x v) →
      (Prospect.ahead check dispatch K).here u)
    (hother : ∀ K, Resumes fin w tail K → (Prospect.ahead check other K).here v)
    (hcases : ∀ K, Ends fin w tail s K → ∀ x ∈ table, x = fallback ∨ (Prospect.ahead check cases K).label x v)
    (h : Resumes fin w tail K) :
    (Prospect.ahead check (value ++ (dispatch ++ [.label fallback]) ++ other ++ leaveTo tail s ++ cases ++
      endMark tail s) K).here
      v := by
  have hends : Ends fin w tail s (Prospect.ahead check (endMark tail s) K) := ends_endMark h
  have hruns := hother (Prospect.ahead check (leaveTo tail s)
    (Prospect.ahead check cases (Prospect.ahead check (endMark tail s) K))) (hc.resumes_leaveTo hends.ahead)
  refine here_append (here_append (here_append (here_append (here_append (hvalue _ (here_append
    (hdispatch _ hruns (label_mark hruns) ?_)))))))
  intro x hx
  rcases hcases _ hends x hx with rfl | hlabel
  · exact label_mark hruns
  · exact label_ahead (label_ahead (label_ahead hlabel))

end Controls

end Prospect

/-! ## What instructions do to the stack -/

/-- How many values an instruction takes off the stack, and how many it puts on it. -/
structure StackEffect where
  takes : Nat
  gives : Nat

/-- The number of values that a result of the type is made of. -/
def TypeRef.width (t : TypeRef) : Nat := if t.isVoid then 0 else 1

/-- What returning takes depends on the member, and the path ends there. -/
def Opcode.effect? : Opcode → Option StackEffect
  | .ret => none
  | .nop => some ⟨0, 0⟩
  | .dup => some ⟨1, 2⟩
  | .pop | .throw => some ⟨1, 0⟩
  | .neg | .not | .convI1 | .convI2 | .convI4 | .convI8 | .convU1 | .convU2 | .convU4 | .convU8 | .convR4 | .convR8 =>
    some ⟨1, 1⟩
  | .add | .sub | .mul | .div | .divUn | .rem | .remUn | .and | .or | .xor | .shl | .shr | .shrUn
  | .ceq | .cgt | .cgtUn | .clt | .cltUn => some ⟨2, 1⟩

def BranchKind.takes : BranchKind → Nat
  | .always => 0
  | .true | .false => 1
  | .eq | .neUn | .lt | .gt | .le | .ge => 2

def TypeOp.effect : TypeOp → StackEffect
  | .storeCell => ⟨2, 0⟩
  | .box | .unboxAny | .castClass | .isInst | .newCell | .loadCell => ⟨1, 1⟩

def MethodInfo.effect (info : MethodInfo) : StackEffect :=
  ⟨info.params.length + (if info.isInstance then 1 else 0), info.returnType.width⟩

/-- What an instruction does to the stack, by the signature of its operand. Protected regions are left out: they empty
    the stack. -/
def Instr.effect? (table : Table) : Instr → Option StackEffect
  | .op opcode => opcode.effect?
  | .loadI32 _ | .loadI64 _ | .loadF64 _ | .loadString _ | .loadNull | .loadArg _ | .loadLocal _ | .loadStatic _ =>
    some ⟨0, 1⟩
  | .storeArg _ | .storeLocal _ | .storeStatic _ | .switch _ => some ⟨1, 0⟩
  | .label _ => some ⟨0, 0⟩
  | .branch kind _ => some ⟨kind.takes, 0⟩
  | .loadField _ | .newDelegate _ _ => some ⟨1, 1⟩
  | .storeField _ => some ⟨2, 0⟩
  | .newObject ctor => some ⟨ctor.params.length, 1⟩
  | .callConstructor ctor => some ⟨ctor.params.length + 1, 0⟩
  | .call method _ | .callVirtual method _ => (method.info table).toOption.map MethodInfo.effect
  | .typeOp kind _ => some kind.effect
  | .invokeDelegate delegate _ => delegate.signature?.map fun s => ⟨s.1.length + 1, s.2.width⟩
  | .leave _ | .beginTry _ | .beginCatch _ | .beginFinally | .endTry _ => none

/-! ## Paths -/

/-- The instruction defines a label that equals the symbol. -/
def Instr.marks (x : Symbol) (i : Instr) : Bool := i.definedLabel?.any (· == x)

/-- One move along a control path: on to the next instruction, or to a label that the instruction names. The height of
    the stack is counted from the start of the code, and may go below it. -/
inductive Moves (table : Table) (code : List Instr) : Nat × Int → Nat × Int → Prop
  | next {pc z i effect} : code[pc]? = some i → i.effect? table = some effect → i.isTerminator = false →
      Moves table code (pc, z) (pc + 1, z - effect.takes + effect.gives)
  | jump {pc z i effect x target mark} : code[pc]? = some i → i.effect? table = some effect → x ∈ i.usedLabels →
      code[target]? = some mark → mark.marks x →
      Moves table code (pc, z) (target, z - effect.takes + effect.gives)

/-- Every control path from the start of the code either is at its end, or is at an instruction that takes no more than
    the path has put on the stack, and goes on from there, forward. So every path ends. -/
def Balanced (table : Table) (code : List Instr) (final : Nat → Int → Prop) : Prop :=
  ∀ pc z, Relation.ReflTransGen (Moves table code) (0, 0) (pc, z) → final pc z ∨
    ∃ i effect, code[pc]? = some i ∧ i.effect? table = some effect ∧ effect.takes ≤ z ∧
      (∃ state, Moves table code (pc, z) state) ∧ ∀ state, Moves table code (pc, z) state → pc < state.1

theorem Balanced.mono {table : Table} {code : List Instr} {final final' : Nat → Int → Prop}
    (h : Balanced table code final) (hfinal : ∀ pc z, final pc z → final' pc z) : Balanced table code final' :=
  fun pc z hpath => (h pc z hpath).imp_left (hfinal pc z)

/-! ## Reading code for the height of the stack -/

/-- What heights are read with: the signatures of members, and the heights at which the member may return. -/
structure Levels where
  table : Table
  returns : Nat → Prop

namespace Levels

variable (c : Levels)

/-- What an instruction asks for: enough on the stack, and the right height wherever control goes on. -/
def check (i : Instr) (K : Prospect Nat) (n : Nat) : Prop :=
  match i with
  | .op .ret => c.returns n
  | i => ∃ effect, i.effect? c.table = some effect ∧ effect.takes ≤ n ∧
      (i.isTerminator = false → K.here (n - effect.takes + effect.gives)) ∧
      (∀ x ∈ i.usedLabels, K.label x (n - effect.takes + effect.gives)) ∧
      (i.isTerminator → i.usedLabels ≠ [])

/-- What is asked for before some code. -/
abbrev ahead (code : List Instr) (K : Prospect Nat) : Prospect Nat := K.ahead c.check code

/-- From this height, the code can be run and leads on. -/
def Runs (code : List Instr) (n : Nat) (K : Prospect Nat) : Prop := (c.ahead code K).here n

variable {c} {i : Instr} {code a b : List Instr} {n : Nat} {K : Prospect Nat}

theorem Runs.append (h : c.Runs a n (c.ahead b K)) : c.Runs (a ++ b) n K := Prospect.here_append h

theorem check_of_ne (hi : i ≠ .op .ret) : c.check i K n ↔ ∃ effect, i.effect? c.table = some effect ∧ effect.takes ≤ n ∧
    (i.isTerminator = false → K.here (n - effect.takes + effect.gives)) ∧
    (∀ x ∈ i.usedLabels, K.label x (n - effect.takes + effect.gives)) ∧ (i.isTerminator → i.usedLabels ≠ []) := by
  unfold check
  split
  · exact absurd rfl hi
  · rfl

theorem runs_cons (hi : ∀ x, i ≠ .label x) : c.Runs (i :: code) n K ↔
    c.check i (c.ahead code K) n := Prospect.here_cons hi

/-- An instruction that always goes on to the next one. -/
theorem runs_straight {effect : StackEffect} (heffect : i.effect? c.table = some effect) (hlabels : i.usedLabels = [])
    (hnext : i.isTerminator = false) (htakes : effect.takes ≤ n) (h : c.Runs code (n - effect.takes + effect.gives) K) :
    c.Runs (i :: code) n K := by
  by_cases hi : ∃ x, i = .label x
  · obtain ⟨x, rfl⟩ := hi
    cases heffect
    exact h
  · have hret : i ≠ .op .ret := by
      rintro rfl
      cases heffect
    rw [runs_cons fun x hx => hi ⟨x, hx⟩, check_of_ne hret]
    refine ⟨effect, heffect, htakes, fun _ => h, fun x hx => ?_, fun hstop => ?_⟩
    · rw [hlabels] at hx
      cases hx
    · rw [hnext] at hstop
      cases hstop

/-! ### Straight code -/

/-- The height after code that goes straight on, from the given height. -/
def climb (table : Table) : List Instr → Nat → Option Nat
  | [], n => some n
  | i :: code, n =>
    match i.effect? table with
    | some effect =>
      if effect.takes ≤ n ∧ i.usedLabels.isEmpty ∧ !i.isTerminator then climb table code
        (n - effect.takes + effect.gives)
      else none
    | none => none

theorem climb_append {table : Table} : ∀ {n : Nat}, climb table a n = some m → climb table
    (a ++ b) n = climb table b m := by
  induction a with
  | nil =>
    intro n h
    cases h
    rfl
  | cons i a ih =>
    intro n h
    simp only [List.cons_append, climb] at h ⊢
    split at h
    · split at h
      · rename_i hgoes
        rw [if_pos hgoes]
        exact ih h
      · cases h
    · cases h

/-- What lies below does not matter. -/
theorem climb_add {table : Table} (k : Nat) : ∀ {n : Nat}, climb table code n = some m →
    climb table code (n + k) = some (m + k) := by
  induction code with
  | nil =>
    intro n h
    cases h
    rfl
  | cons i code ih =>
    intro n h
    simp only [climb] at h ⊢
    split at h
    · rename_i effect _
      split at h
      · rename_i hgoes
        have hheight : n + k - effect.takes + effect.gives = n - effect.takes + effect.gives + k := by omega
        rw [if_pos ⟨by omega, hgoes.2⟩, hheight]
        exact ih h
      · cases h
    · cases h

theorem runs_of_climb : ∀ {n : Nat}, climb c.table code n = some m → K.here m → c.Runs code n K := by
  induction code with
  | nil =>
    intro n h hK
    cases h
    exact hK
  | cons i code ih =>
    intro n h hK
    simp only [climb] at h
    split at h
    · rename_i effect heffect
      split at h
      · rename_i hgoes
        exact runs_straight heffect (List.isEmpty_iff.mp hgoes.2.1) (by simpa using hgoes.2.2) hgoes.1 (ih h hK)
      · cases h
    · cases h

/-- Code that goes straight on from some height does so from higher up. -/
theorem runs_climb {k : Nat} (h : climb c.table code k = some m) (hK : K.here (n + m)) : c.Runs code (n + k) K :=
  runs_of_climb (by rw [Nat.add_comm n k, climb_add n h]) (by rwa [Nat.add_comm m n])

/-! ### Paths through code that can be read -/

theorem times_definedLabels (x : Symbol) : Symbol.times (code.filterMap Instr.definedLabel?) x = code.countP
    (Instr.marks x) := by
  rw [Symbol.times, List.countP_filterMap]
  congr
  funext i
  unfold Instr.marks
  cases i.definedLabel? <;> rfl

/-- Where every label is defined once, there is one place for it. -/
theorem mark_unique (hlabels : ∀ x, Symbol.times (code.filterMap Instr.definedLabel?) x ≤ 1) {x : Symbol} {p q : Nat}
    {i j : Instr} (hp : code[p]? = some i) (hq : code[q]? = some j) (hi : i.marks x) (hj : j.marks x) : p = q := by
  have htwice {p q : Nat} {i j : Instr} (hlt : p < q) (hp : code[p]? = some i) (hq : code[q]? = some j) (hi : i.marks x)
      (hj : j.marks x) : 2 ≤ code.countP (Instr.marks x) := by
    rw [← List.take_append_drop q code, List.countP_append]
    have hfirst : 0 < (code.take q).countP (Instr.marks x) :=
      List.countP_pos_iff.mpr ⟨i, List.mem_of_getElem? (by rwa [List.getElem?_take_of_lt hlt]), hi⟩
    have hsecond : 0 < (code.drop q).countP (Instr.marks x) :=
      List.countP_pos_iff.mpr ⟨j, List.mem_of_getElem? (i := 0) (by rwa [List.getElem?_drop, Nat.add_zero]), hj⟩
    omega
  have honce := hlabels x
  rw [times_definedLabels] at honce
  rcases Nat.lt_trichotomy p q with hlt | heq | hlt
  · exact absurd (htwice hlt hp hq hi hj) (by omega)
  · exact heq
  · exact absurd (htwice hlt hq hp hj hi) (by omega)

variable (c code K) in
/-- From the given place and height, the rest of the code can be read. -/
def At (pc n : Nat) : Prop := ∃ done rest, code = done ++ rest ∧ done.length = pc ∧ c.Runs rest n K

/-- A label that is still to come has a place. -/
theorem exists_target {done rest : List Instr} {x : Symbol} (hcode : code = done ++ i :: rest)
    (hx : (c.ahead rest K).label x m) (hK : ∀ x n, ¬ K.label x n) :
    ∃ target, done.length < target ∧ code[target]? = some (.label x) ∧ c.At code K target m := by
  obtain ⟨skipped, after, rfl, hruns⟩ := (Prospect.exists_mark hx).resolve_left (hK x m)
  have hsplit : code = (done ++ i :: skipped) ++ .label x :: after := by simp [hcode]
  refine ⟨(done ++ i :: skipped).length, by simp, ?_, done ++ i :: skipped, .label x :: after, hsplit, rfl, hruns⟩
  rw [hsplit, List.getElem?_append_right (Nat.le_refl _), Nat.sub_self]
  rfl

/-- A place where the code can be read is its end, a return, or an instruction from which a path goes on. -/
theorem At.cases {pc : Nat} (h : c.At code K pc n) (hK : ∀ x n, ¬ K.label x n) :
    (pc = code.length ∧ K.here n) ∨ (code[pc]? = some (.op .ret) ∧ c.returns n) ∨
      ∃ i effect, code[pc]? = some i ∧ i.effect? c.table = some effect ∧ effect.takes ≤ n ∧
        ∃ state, Moves c.table code (pc, n) state := by
  obtain ⟨done, rest, hcode, rfl, hruns⟩ := h
  cases rest with
  | nil => exact .inl ⟨by simp [hcode], hruns⟩
  | cons i rest =>
    have hi : code[done.length]? = some i := by simp [hcode]
    refine .inr ?_
    by_cases hlabel : ∃ x, i = .label x
    · obtain ⟨x, rfl⟩ := hlabel
      exact .inr ⟨_, ⟨0, 0⟩, hi, rfl, Nat.zero_le _, _, .next hi rfl rfl⟩
    · rw [runs_cons fun x hx => hlabel ⟨x, hx⟩] at hruns
      by_cases hret : i = .op .ret
      · subst hret
        exact .inl ⟨hi, hruns⟩
      · obtain ⟨effect, heffect, htakes, -, htargets, hstop⟩ := (check_of_ne hret).mp hruns
        refine .inr ⟨i, effect, hi, heffect, htakes, ?_⟩
        cases hterminator : i.isTerminator with
        | false => exact ⟨_, .next hi heffect hterminator⟩
        | true =>
          obtain ⟨x, hx⟩ := List.exists_mem_of_ne_nil _ (hstop hterminator)
          obtain ⟨target, -, htarget, -⟩ := exists_target hcode (htargets x hx) hK
          exact ⟨_, .jump hi heffect hx htarget (BEq.refl x)⟩

/-- Moves lead from places where the code can be read to such places, forward. -/
theorem At.moves {pc : Nat} {state : Nat × Int} (h : c.At code K pc n)
    (hlabels : ∀ x, Symbol.times (code.filterMap Instr.definedLabel?) x ≤ 1) (hK : ∀ x n, ¬ K.label x n)
    (hmove : Moves c.table code (pc, n) state) : pc < state.1 ∧ ∃ m : Nat, state.2 = m ∧ c.At code K state.1 m := by
  obtain ⟨done, rest, hcode, rfl, hruns⟩ := h
  cases rest with
  | nil =>
    have hnone : code[done.length]? = none := by simp [hcode]
    cases hmove with
    | next hi | jump hi => cases hnone.symm.trans hi
  | cons i rest =>
    have hi : code[done.length]? = some i := by simp [hcode]
    have hsplit : code = (done ++ [i]) ++ rest := by simp [hcode]
    by_cases hlabel : ∃ x, i = .label x
    · obtain ⟨x, rfl⟩ := hlabel
      cases hmove with
      | next hi' heffect _ =>
        cases hi.symm.trans hi'
        cases heffect
        exact ⟨Nat.lt_succ_self _, n, by simp, done ++ [.label x], rest, hsplit, by simp, hruns⟩
      | jump hi' _ hx =>
        cases hi.symm.trans hi'
        cases hx
    · have hret : i ≠ .op .ret := by
        rintro rfl
        cases hmove with
        | next hi' heffect | jump hi' heffect =>
          cases hi.symm.trans hi'
          cases heffect
      rw [runs_cons fun x hx => hlabel ⟨x, hx⟩, check_of_ne hret] at hruns
      obtain ⟨effect, heffect, htakes, hnext, htargets, -⟩ := hruns
      have hheight : ((n : Int) - effect.takes + effect.gives) =
        ((n - effect.takes + effect.gives : Nat) : Int) := by omega
      cases hmove with
      | next hi' heffect' hstraight =>
        cases hi.symm.trans hi'
        cases heffect.symm.trans heffect'
        exact ⟨Nat.lt_succ_self _, _, hheight, done ++ [i], rest, hsplit, by simp, hnext hstraight⟩
      | @jump _ _ _ _ x _ mark hi' heffect' hx hmark hmarks =>
        cases hi.symm.trans hi'
        cases heffect.symm.trans heffect'
        obtain ⟨target, hlater, htarget, hat⟩ := exists_target hcode (htargets x hx) hK
        cases mark_unique hlabels htarget hmark (BEq.refl x) hmarks
        exact ⟨hlater, _, hheight, hat⟩

/-- Code that can be read to its start, for the empty stack, is balanced. -/
theorem balanced (hlabels : ∀ x, Symbol.times (code.filterMap Instr.definedLabel?) x ≤ 1) (hK : ∀ x n, ¬ K.label x n)
    (h : c.Runs code 0 K) : Balanced c.table code fun pc z =>
      ∃ n : Nat, z = n ∧ (pc = code.length ∧ K.here n ∨ code[pc]? = some (.op .ret) ∧ c.returns n) := by
  intro pc z hpath
  have hat : ∃ n : Nat, z = n ∧ c.At code K pc n := by
    generalize hstart : ((0, 0) : Nat × Int) = start at hpath
    generalize hend : (pc, z) = state at hpath
    induction hpath generalizing pc z with
    | refl =>
      cases hstart
      cases hend
      exact ⟨0, rfl, [], code, rfl, rfl, h⟩
    | @tail middle _ _ hmove ih =>
      obtain ⟨n, hn, hat⟩ := ih middle.1 middle.2 rfl
      obtain ⟨middle, height⟩ := middle
      cases hn
      cases hend
      exact (hat.moves hlabels hK hmove).2
  obtain ⟨n, rfl, hat⟩ := hat
  rcases hat.cases hK with hend | hret | ⟨i, effect, hi, heffect, htakes, hmove⟩
  · exact .inl ⟨n, rfl, .inl hend⟩
  · exact .inl ⟨n, rfl, .inr hret⟩
  · exact .inr ⟨i, effect, hi, heffect, by omega, hmove, fun state hstate => (hat.moves hlabels hK hstate).1⟩

end Levels

end Stackwright
