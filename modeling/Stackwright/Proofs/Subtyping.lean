import Stackwright.Proofs.Implementations

/-
  Stackwright.Proofs.Subtyping — searches along the supertypes of a program.

  The searches remember nothing of what they have seen. They end because a new type can only name
  supertypes whose handles were handed out before: a class that is looked up by its name is a type
  of the program when there is one, and then it is an earlier one.
-/

namespace Stackwright.Machine

variable {q : Program} {request : Request}

namespace Program

variable {p : Program}

/-! ## Handles -/

/-- The handle of a type that a request is answered with. -/
def handedOut (p : Program) : Request → Option Ty
  | .primitiveType primitive => ((machine.primitiveType primitive).exec p).1.toOption
  | .namedType name => ((machine.namedType name).exec p).1.toOption
  | .cellType content => ((machine.cellType content).exec p).1.toOption
  | .delegateType params ret => ((machine.delegateType params ret).exec p).1.toOption
  | .defineType name attributes base interfaces =>
    ((machine.defineType name attributes base interfaces).exec p).1.toOption
  | _ => none

/-- A program that was made from nothing, and the handles of types that were handed out on the way. New types name
    supertypes by such handles; nothing is required of other handles, and requests may fail. -/
inductive Made : Program → List Ty → Prop
  | empty : Made {} []
  | request {p handed} (request : Request) : Made p handed → (∀ t ∈ request.supertypes, t ∈ handed) →
    Made (p.perform request) ((p.handedOut request).toList ++ handed)

/-- Supertypes that are types of the program are defined first. -/
def Ordered (p : Program) : Prop := ∀ (i : Nat) (r : TypeRecord), p.types[i]? = some r → ∀ id, r.Extends id →
    id.index < i

theorem extends_iff {r : TypeRecord} {id : TypeId} : r.Extends id ↔ .defined id ∈ r.base.toList ++ r.interfaces := by
  rw [TypeRecord.Extends, List.mem_append, Option.mem_toList]

/-- A type has the supertypes that it had before, or it is new and has those of the request. -/
theorem Next.types_cases (h : p.Next request q) {i : Nat} {r' : TypeRecord}
    (hr' : q.types[i]? = some r') : (∃ r, p.types[i]? = some r ∧ r'.base = r.base ∧ r'.interfaces = r.interfaces) ∨
      i = p.types.size ∧ r'.base.toList ++ r'.interfaces = request.supertypes := by
  cases h with
  | same => exact .inl ⟨r', hr', rfl, rfl⟩
  | type r hsupers _ _ =>
    rcases withType_cases hr' with hr | ⟨rfl, rfl⟩
    · exact .inl ⟨r', hr, rfl, rfl⟩
    · exact .inr ⟨rfl, hsupers.symm⟩
  | field j f record _ _ _ =>
    obtain ⟨r, hr, heq⟩ := types_modify hr'
    refine .inl ⟨r, hr, ?_⟩
    split at heq <;> exact heq ▸ ⟨rfl, rfl⟩
  | complete id inherited _ =>
    rw [withLayout, (placeFields_rest _ _ _).1] at hr'
    obtain ⟨r, hr, heq⟩ := types_modify hr'
    refine .inl ⟨r, hr, ?_⟩
    split at heq <;> exact heq ▸ ⟨rfl, rfl⟩

theorem Next.size_le (h : p.Next request q) : p.types.size ≤ q.types.size := by
  cases h with
  | same => exact Nat.le_refl _
  | type => simp [withType]
  | field => simp [withField]
  | complete => simp [withLayout, placeFields_rest]

theorem perform_size_le (p : Program) (request : Request) : p.types.size ≤ (p.perform request).types.size := by
  simpa [bare] using (next_perform p request).size_le

theorem Ordered.perform (h : p.Ordered) (hsupers : ∀ id, .defined id ∈ request.supertypes → id.index < p.types.size) :
    (p.perform request).Ordered := by
  intro i r' hr' id hid
  have hbare : (p.perform request).bare.types[i]? = some r'.bare := by rw [bare_types, hr']; rfl
  rcases (next_perform p request).types_cases hbare with ⟨r, hr, hbase, hinterfaces⟩ | ⟨rfl, hnew⟩
  · rw [bare_types] at hr
    obtain ⟨old, hold, rfl⟩ := Option.map_eq_some_iff.mp hr
    refine h i old hold id ?_
    rwa [TypeRecord.Extends, show r'.base = old.base from hbase,
      show r'.interfaces = old.interfaces from hinterfaces] at hid
  · simpa [bare] using hsupers id (hnew ▸ extends_iff.mp hid)

/-- A handle that is handed out belongs to a type that is there. -/
theorem lt_of_handedOut {id : TypeId} (h : p.handedOut request = some (.defined id)) :
    id.index < (p.perform request).types.size := by
  cases request with
  | namedType name =>
    refine Nat.lt_of_lt_of_le ?_ (perform_size_le p _)
    simp only [handedOut, namedType, Effect.exec_bind, Effect.exec_get] at h
    split at h
    · rename_i found hfound
      obtain ⟨index, hindex, rfl⟩ := Option.map_eq_some_iff.mp hfound
      cases h
      exact (Array.findIdx?_eq_some_iff_getElem.mp hindex).1
    · cases h
  | defineType name attributes base interfaces =>
    simp only [handedOut, defineType, Effect.exec_bind, Effect.exec_get] at h
    simp only [Program.perform, defineType, Effect.exec_bind, Effect.exec_get]
    split at h
    · cases h
    · rename_i hnew
      cases h
      rw [if_neg hnew]
      simp [Effect.exec_set]
  | primitiveType | cellType | delegateType | _ => cases h

theorem Made.ordered {handed : List Ty} (h : p.Made handed) :
    p.Ordered ∧ ∀ id, .defined id ∈ handed → id.index < p.types.size := by
  induction h with
  | empty => exact ⟨fun i r hr => by simp at hr, by simp⟩
  | request request _ hsupers ih =>
    obtain ⟨hordered, hhanded⟩ := ih
    refine ⟨hordered.perform fun id hid => hhanded id (hsupers _ hid), fun id hid => ?_⟩
    rcases List.mem_append.mp hid with hid | hid
    · exact lt_of_handedOut (Option.mem_toList.mp hid)
    · exact Nat.lt_of_lt_of_le (hhanded id hid) (perform_size_le _ _)

/-! ## Supertypes -/

/-- The second type is the base of the first, or one of its interfaces. -/
def Above (p : Program) (t u : Ty) : Prop := p.baseOf t = some u ∨ ∃ id, t = .defined id ∧ u ∈ (p.type id).interfaces

theorem mem_supertypes {t u : Ty} : u ∈ p.supertypes t ↔ p.Above t u := by
  cases t <;> simp [supertypes, Above, baseOf, eq_comm]

/-- How far a type is from `object` at most. -/
def height (p : Program) : Ty → Nat
  | .primitive .object => 0
  | .defined id => if id.index < p.types.size then id.index + 2 else 1
  | _ => 1

theorem height_le_of_below {t : Ty} {n : Nat} (h : ∀ id, t = .defined id → id.index < p.types.size → id.index < n) :
    p.height t ≤ n + 1 := by
  unfold height
  split
  · omega
  · rename_i id
    split
    · have := h id rfl ‹_›
      omega
    · omega
  · omega

theorem height_le (p : Program) (t : Ty) : p.height t ≤ p.types.size + 1 := height_le_of_below fun _ _ hid => hid

theorem Ordered.height_lt (h : p.Ordered) {t u : Ty} (hu : p.Above t u) : p.height u < p.height t := by
  cases t with
  | defined id =>
    cases hr : p.types[id.index]? with
    | none =>
      -- a handle of no type: it has no supertypes but `object`
      have hdefault : p.type id = default := by rw [type, Array.getD_eq_getD_getElem?, hr]; rfl
      rcases hu with hbase | ⟨_, ⟨⟩, hmem⟩
      · rw [baseOf, hdefault] at hbase
        cases hbase
        show 0 < p.height (.defined id)
        rw [height]
        split <;> omega
      · rw [hdefault] at hmem
        cases hmem
    | some r =>
      have hlt : id.index < p.types.size := (Array.getElem?_eq_some_iff.mp hr).1
      refine Nat.lt_of_le_of_lt (height_le_of_below (n := id.index) fun k hk _ => h _ r hr k ?_) (by simp [height, hlt])
      subst hk
      rcases hu with hbase | ⟨_, ⟨⟩, hmem⟩
      · rw [baseOf, type_eq hr, Option.some.injEq] at hbase
        cases hb : r.base with
        | none => rw [hb] at hbase; cases hbase
        | some b => exact .inl (by rw [hb] at hbase; exact hb.trans (congrArg some hbase))
      · exact .inr (by rwa [type_eq hr] at hmem)
  | primitive prim =>
    rcases hu with hbase | ⟨_, ⟨⟩, -⟩
    cases prim <;> cases hbase <;> exact Nat.zero_lt_one
  | named | cell | delegate =>
    rcases hu with hbase | ⟨_, ⟨⟩, -⟩
    cases hbase
    exact Nat.zero_lt_one

/-! ## Subtyping -/

/-- The supertypes in the order they are looked into: the base, then the interfaces from the last to the first. -/
def stacked (p : Program) : Ty → List Ty
  | .defined id => (p.type id).base.getD .object :: (p.type id).interfaces.reverse
  | t => (p.baseOf t).toList

theorem any_stacked (p : Program) (t : Ty) (test : Ty → Bool) : (p.stacked t).any test = (p.supertypes t).any test := by
  cases t <;> simp [stacked, supertypes]

theorem mem_stacked {t u : Ty} : u ∈ p.stacked t ↔ u ∈ p.supertypes t := by
  cases t <;> simp [stacked, supertypes]

/-- The search without a bound: types are taken from a stack until the goal comes up or none is left, and each is
    replaced by its supertypes. -/
inductive Searches (p : Program) (goal : Ty) : List Ty → Bool → Prop
  | empty : Searches p goal [] false
  | found {rest} : Searches p goal (goal :: rest) true
  | further {t rest answer} : t ≠ goal → Searches p goal (p.stacked t ++ rest) answer →
    Searches p goal (t :: rest) answer

theorem Ordered.reaches_iff (h : p.Ordered) (goal : Ty) : ∀ (n : Nat) (t : Ty), p.height t ≤ n →
    (p.reaches goal n t ↔ Relation.ReflTransGen p.Above t goal)
  | 0, t, hn => by
    rw [reaches, beq_iff_eq, Relation.ReflTransGen.cases_head_iff]
    refine ⟨.inl, ?_⟩
    rintro (heq | ⟨u, hu, -⟩)
    · exact heq
    · have := h.height_lt hu
      omega
  | n + 1, t, hn => by
    rw [reaches, Bool.or_eq_true, beq_iff_eq, List.any_eq_true, Relation.ReflTransGen.cases_head_iff]
    refine or_congr_right (exists_congr fun u => ?_)
    rw [mem_supertypes]
    refine and_congr_right fun hu => h.reaches_iff goal n u ?_
    have := h.height_lt hu
    omega

/-- The first type is looked into before the rest. -/
theorem Ordered.searches_cons (h : p.Ordered) (goal : Ty) : ∀ (n : Nat) (t : Ty), p.height t ≤ n → ∀ (rest : List Ty)
    (answer : Bool), p.Searches goal rest answer → p.Searches goal (t :: rest) (p.reaches goal n t || answer)
  | n, t, hn, rest, answer, hrest => by
    by_cases hgoal : t = goal
    · subst hgoal
      have : p.reaches t n t := (h.reaches_iff t n t hn).mpr .refl
      rw [this]
      exact .found
    refine .further hgoal ?_
    cases n with
    | zero =>
      have hnone : p.stacked t = [] := List.eq_nil_iff_forall_not_mem.mpr fun u hu => by
        have := h.height_lt (mem_supertypes.mp (mem_stacked.mp hu))
        omega
      rwa [hnone, reaches, beq_false_of_ne hgoal]
    | succ n =>
      rw [reaches, beq_false_of_ne hgoal, Bool.false_or, ← any_stacked]
      have hbelow : ∀ u ∈ p.stacked t, p.height u ≤ n := fun u hu => by
        have := h.height_lt (mem_supertypes.mp (mem_stacked.mp hu))
        omega
      generalize p.stacked t = supers at hbelow
      induction supers with
      | nil => exact hrest
      | cons u us ih =>
        rw [List.any_cons, Bool.or_assoc]
        obtain ⟨hu, hus⟩ := List.forall_mem_cons.mp hbelow
        exact h.searches_cons goal n u hu _ _ (ih hus)

theorem Ordered.isSubtype_iff (h : p.Ordered) (source target : Ty) :
    p.isSubtype source target ↔ Relation.ReflTransGen p.Above source target :=
  h.reaches_iff target _ source (p.height_le source)

/-! ## Dispatch -/

/-- The search for an implementation without a bound: along the bases, up to the first type that has one. -/
inductive Finds (p : Program) (name : String) (params : List Ty) : Ty → Option MethodId → Prop
  | outside {t} : (∀ id, t ≠ .defined id) → Finds p name params t none
  | here {id m} : p.Implements id name params m → Finds p name params (.defined id) (some m)
  | root {id} : (∀ m, ¬ p.Implements id name params m) → (p.type id).base = none →
    Finds p name params (.defined id) none
  | above {id base found} : (∀ m, ¬ p.Implements id name params m) → (p.type id).base = some base →
    Finds p name params base found → Finds p name params (.defined id) found

theorem Ordered.finds_implementation? (h : p.Ordered) (name : String) (params : List Ty) :
    ∀ (n : Nat) (t : Ty), p.height t ≤ n → p.Finds name params t (p.implementation? name params n t)
  | n, t, hn => by
    by_cases hdefined : ∃ id, t = .defined id
    · obtain ⟨id, rfl⟩ := hdefined
      cases n with
      | zero =>
        rw [height] at hn
        split at hn <;> omega
      | succ n =>
        rcases @implementation?_cases p name params n id with ⟨m, hm, hfound⟩ | ⟨hself, hnext⟩
        · exact hfound ▸ .here hm
        · rw [hnext]
          cases hbase : (p.type id).base with
          | none => exact .root hself hbase
          | some base =>
            have := h.height_lt (t := .defined id) (u := base) (.inl (by rw [baseOf, hbase]; rfl))
            exact .above hself hbase (h.finds_implementation? name params n base (by omega))
    · rw [implementation?_of_not_defined fun id hid => hdefined ⟨id, hid⟩]
      exact .outside fun id hid => hdefined ⟨id, hid⟩

/-- However a program is made, as long as new types name supertypes by handles that were handed out: these are earlier
    types. So the search for a supertype ends, and finds exactly what bases and interfaces lead to; and the search for
    the method that a call runs ends, whatever the receiver and the method are. -/
theorem subtyping_and_dispatch_are_exact {handed : List Ty} (h : p.Made handed) :
    (∀ (i : Nat) (r : TypeRecord), p.types[i]? = some r → ∀ id, r.Extends id → id.index < i) ∧
    (∀ source target, p.Searches target [source] (p.isSubtype source target) ∧
      (p.isSubtype source target = true ↔ Relation.ReflTransGen p.Above source target)) ∧
    ∀ receiver m, ∃ found, p.Finds (p.method m).name (p.method m).params receiver found ∧
      p.dispatch receiver m = if (p.method m).isVirtual then found.getD m else m := by
  have hordered := h.ordered.1
  refine ⟨hordered, fun source target => ⟨?_, hordered.isSubtype_iff source target⟩, fun receiver m => ?_⟩
  · have hsearch := hordered.searches_cons target _ source (p.height_le source) [] false .empty
    rwa [Bool.or_false] at hsearch
  · exact ⟨_, hordered.finds_implementation? _ _ _ receiver (p.height_le receiver), rfl⟩

/-- An interface, a class that has it, and a class that derives from that class, which it names by its name. -/
theorem named_base_has_interface : ∃ p handed, Made p handed ∧
    Relation.ReflTransGen p.Above (.defined ⟨2, "Circle"⟩) (.defined ⟨0, "Drawable"⟩) := by
  have hdrawable := Made.request (.defineType "Drawable" { isInterface := true } none []) .empty
    (by simp [Request.supertypes])
  have hshape := hdrawable.request (.defineType "Shape" {} none [.defined ⟨0, "Drawable"⟩]) (by decide +kernel)
  have hnamed := hshape.request (.namedType "Shape") (by simp [Request.supertypes])
  have hcircle := hnamed.request (.defineType "Circle" {} (some (.defined ⟨1, "Shape"⟩)) []) (by decide +kernel)
  exact ⟨_, _, hcircle, ((subtyping_and_dispatch_are_exact hcircle).2.1 _ _).2.mp (by decide +kernel)⟩

end Program

end Stackwright.Machine
