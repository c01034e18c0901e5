import Stackwright.Proofs.Renaming

/-
  Stackwright.Proofs.FreeVariables — the usages of an expression are its free occurrences.

  An occurrence reads a variable or writes it, below some number of lambdas. A let binds its body
  but not its values, the parameters of a lambda bind its body, and only these two hide a name.
-/

namespace Stackwright

/-! ## Occurrences -/

/-- What an occurrence does to its variable. -/
inductive Role where
  | read
  | write
  deriving DecidableEq

/-- The usage of a variable that occurs once, in some role, below a number of lambdas. -/
def Role.usage (role : Role) (depth : Nat) : Usage := { written := role == .write, captured := decide (0 < depth) }

theorem Role.usage_succ (role : Role) (depth : Nat) : role.usage (depth + 1) =
    { role.usage depth with captured := true } := by
  simp [usage]

namespace Expr

/-- A free occurrence of a variable, below a number of lambdas of the expression. -/
inductive FreeAt (x : Symbol) : Role → Nat → Expr → Prop
  | read {y} : (y == x) → FreeAt x .read 0 (.var y)
  | write {y e} : (y == x) → FreeAt x .write 0 (.assign y e)
  | part {e part role depth} : part ∈ e.parts → FreeAt x role depth part → FreeAt x role depth e
  | letBody {bs body role depth} : (bs.map (·.1)).contains x = false → FreeAt x role depth body →
      FreeAt x role depth (.letIn bs body)
  | lambdaBody {closure ps body role depth} : (ps.map (·.name)).contains x = false → FreeAt x role depth body →
      FreeAt x role (depth + 1) (.lambda closure ps body)

variable {x : Symbol} {e part : Expr} {test : Usage → Bool}

/-! ## One construct -/

/-- What recursion over children needs. -/
theorem sizeOf_child {c : Expr} (h : c ∈ e.children) : sizeOf c < sizeOf e := by
  have hsnd {α : Type} [SizeOf α] {ps : List (α × Expr)} (hc : c ∈ ps.map (·.2)) : sizeOf c < sizeOf ps := by
    obtain ⟨⟨a, e⟩, hp, rfl⟩ := List.mem_map.mp hc
    have hlt := List.sizeOf_lt_of_mem hp
    simp only [Prod.mk.sizeOf_spec] at hlt ⊢
    omega
  have hmem {es : List Expr} (hc : c ∈ es) : sizeOf c < sizeOf es := List.sizeOf_lt_of_mem hc
  cases e <;> simp only [children, List.mem_cons, List.mem_append, List.not_mem_nil, or_false] at h
  all_goals simp
  case letIn bs body => rcases h with h | rfl <;> [have := hsnd h; skip] <;> omega
  case switch value cases fallback => rcases h with (rfl | h) | rfl <;> [skip; have := hsnd h; skip] <;> omega
  case invoke | call => rcases h with rfl | h <;> [skip; have := hmem h] <;> omega
  case seq | and | or | new | callStatic => have := hmem h; omega
  all_goals grind

theorem parts_subset_children : e.parts ⊆ e.children := by
  cases e <;> simp [parts, children]

theorem asks_usages_assign (htest : Usages.IsJoint test) {y : Symbol} {value : Expr} :
    (assign y value).usages.asks test x ↔ (y == x) ∧ test (Role.usage .write 0) ∨ value.usages.asks test x := by
  rw [usages, Usages.asks_add htest, Bool.or_eq_true, Bool.and_eq_true, or_comm]
  rfl

theorem asks_usages_letIn (htest : Usages.IsJoint test) {bs : List (Symbol × Expr)} {body : Expr} :
    (letIn bs body).usages.asks test x ↔ (∃ part ∈ bs.map (·.2), part.usages.asks test x) ∨
      (bs.map (·.1)).contains x = false ∧ body.usages.asks test x := by
  simp only [usages, usagesBindings_eq, Usages.asks_union htest, Usages.asks_foldl_union htest, Usages.asks_without,
    Bool.or_eq_true, Bool.and_eq_true, Bool.not_eq_true', List.any_eq_true, List.mem_map, exists_exists_and_eq_and]
  exact or_congr_left (or_iff_right (by simp [Usages.asks]))

theorem asks_usages_lambda {closure : Symbol} {ps : List Param} {body : Expr} :
    (lambda closure ps body).usages.asks test x ↔ (ps.map (·.name)).contains x = false ∧
      body.usages.asks (fun u => test { u with captured := true }) x := by
  rw [usages, Usages.asks_markCaptured, Usages.asks_without, Bool.and_eq_true, Bool.not_eq_true']

/-- Any other construct uses variables as its parts do. -/
theorem asks_usages_parts (htest : Usages.IsJoint test) (hvar : ∀ y, e ≠ .var y)
    (hassign : ∀ y value, e ≠ .assign y value)
    (hlet : ∀ bs body, e ≠ .letIn bs body) (hlambda : ∀ closure ps body, e ≠ .lambda closure ps body) :
    e.usages.asks test x ↔ ∃ part ∈ e.parts, part.usages.asks test x := by
  have hempty : Usages.asks ∅ test x = false := by simp [Usages.asks]
  rw [← List.any_eq_true]
  cases e with
  | var y => exact absurd rfl (hvar y)
  | assign y value => exact absurd rfl (hassign y value)
  | letIn bs body => exact absurd rfl (hlet bs body)
  | lambda closure ps body => exact absurd rfl (hlambda closure ps body)
  | _ =>
    simp [usages, usagesAll_eq, usagesCases_eq, Usages.asks_union htest, Usages.asks_foldl_union htest, hempty,
      parts, children, or_assoc]

/-! ## All occurrences -/

theorem FreeAt.asks {role : Role} {depth : Nat} (h : e.FreeAt x role depth) (htest : Usages.IsJoint test)
    (hpass : test (role.usage depth)) : e.usages.asks test x := by
  induction h generalizing test with
  | read hy =>
    rw [usages, Usages.asks_add htest, hy, Bool.true_and, Bool.or_eq_true]
    exact .inr hpass
  | write hy => exact (asks_usages_assign htest).mpr (.inl ⟨hy, hpass⟩)
  | @part e part role depth hpart _ ih =>
    have hasks := ih htest hpass
    cases e with
    | var y | lambda closure ps body => cases hpart
    | assign y value =>
      obtain rfl := List.mem_singleton.mp hpart
      exact (asks_usages_assign htest).mpr (.inr hasks)
    | letIn bs body => exact (asks_usages_letIn htest).mpr (.inl ⟨part, hpart, hasks⟩)
    | _ => exact (asks_usages_parts htest (by simp) (by simp) (by simp) (by simp)).mpr ⟨part, hpart, hasks⟩
  | letBody hbound _ ih => exact (asks_usages_letIn htest).mpr (.inr ⟨hbound, ih htest hpass⟩)
  | lambdaBody hbound _ ih =>
    rw [Role.usage_succ] at hpass
    exact asks_usages_lambda.mpr ⟨hbound, ih htest.inside hpass⟩

theorem exists_freeAt (e : Expr) {test : Usage → Bool} (htest : Usages.IsJoint test) (h : e.usages.asks test x = true) :
    ∃ role depth, e.FreeAt x role depth ∧ test (role.usage depth) := by
  have hstep {part : Expr} (hpart : part ∈ e.parts) (h : part.usages.asks test x) :
      ∃ role depth, e.FreeAt x role depth ∧ test (role.usage depth) := by
    have hsize := sizeOf_child (parts_subset_children hpart)
    obtain ⟨role, depth, hfree, hpass⟩ := exists_freeAt part htest h
    exact ⟨role, depth, .part hpart hfree, hpass⟩
  cases e with
  | var y =>
    rw [usages, Usages.asks_add htest, Bool.or_eq_true, Bool.and_eq_true] at h
    obtain ⟨hy, hpass⟩ := h.resolve_left (by simp [Usages.asks])
    exact ⟨.read, 0, .read hy, hpass⟩
  | assign y value =>
    rcases (asks_usages_assign htest).mp h with ⟨hy, hpass⟩ | h
    · exact ⟨.write, 0, .write hy, hpass⟩
    · exact hstep List.mem_cons_self h
  | letIn bs body =>
    rcases (asks_usages_letIn htest).mp h with ⟨part, hpart, h⟩ | ⟨hbound, h⟩
    · exact hstep hpart h
    · obtain ⟨role, depth, hfree, hpass⟩ := exists_freeAt body htest h
      exact ⟨role, depth, .letBody hbound hfree, hpass⟩
  | lambda closure ps body =>
    obtain ⟨hbound, h⟩ := asks_usages_lambda.mp h
    obtain ⟨role, depth, hfree, hpass⟩ := exists_freeAt body htest.inside h
    exact ⟨role, depth + 1, .lambdaBody hbound hfree, by rwa [Role.usage_succ]⟩
  | _ =>
    obtain ⟨part, hpart, h⟩ := (asks_usages_parts htest (by simp) (by simp) (by simp) (by simp)).mp h
    exact hstep hpart h
termination_by sizeOf e

/-- What is asked about a variable is true of one of its occurrences. -/
theorem asks_usages (htest : Usages.IsJoint test) :
    e.usages.asks test x ↔ ∃ role depth, e.FreeAt x role depth ∧ test (role.usage depth) :=
  ⟨exists_freeAt e htest, fun ⟨_, _, hfree, hpass⟩ => hfree.asks htest hpass⟩

theorem uses_iff_freeAt : e.Uses x ↔ ∃ role depth, e.FreeAt x role depth := by
  rw [Uses, Usages.contains_eq, asks_usages Usages.isJoint_true]
  simp

theorem isCaptured_iff_freeAt : e.usages.isCaptured x ↔ ∃ role depth, e.FreeAt x role depth ∧ 0 < depth := by
  rw [Usages.isCaptured_eq, asks_usages Usages.isJoint_captured]
  simp [Role.usage]

theorem isWritten_iff_freeAt : e.usages.isWritten x ↔ ∃ depth, e.FreeAt x .write depth := by
  rw [Usages.isWritten_eq, asks_usages Usages.isJoint_written]
  constructor
  · rintro ⟨role, depth, hfree, hwrite⟩
    obtain rfl : role = .write := by simpa [Role.usage] using hwrite
    exact ⟨depth, hfree⟩
  · rintro ⟨depth, hfree⟩
    exact ⟨.write, depth, hfree, rfl⟩

/-- The usages of an expression list the variables that occur free; as written those that an occurrence assigns, and as
    captured those that occur inside a lambda. -/
theorem usages_are_exact (e : Expr) (x : Symbol) :
    (e.usages.contains x = true ↔ ∃ role depth, e.FreeAt x role depth) ∧
    (e.usages.isWritten x = true ↔ ∃ depth, e.FreeAt x .write depth) ∧
    (e.usages.isCaptured x = true ↔ ∃ role depth, e.FreeAt x role depth ∧ 0 < depth) :=
  ⟨uses_iff_freeAt, isWritten_iff_freeAt, isCaptured_iff_freeAt⟩

end Expr

end Stackwright
