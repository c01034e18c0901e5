import Stackwright.Proofs.Subtyping

/-
  Stackwright.Proofs.Overriding — which override a virtual call runs.

  A call looks for the name and the parameters of the method along the bases of the receiver's type, and takes the
  first method of a type that has both. A type can have a static method and an instance method of one name and
  parameters, since these are different members, so what the search meets first need not be what overrides the method.
-/

namespace Stackwright

open Machine (Program TypeId MethodId)

namespace Machine.Program

/-- The methods have one name and the same parameters. -/
def Alike (p : Program) (m m' : MethodId) : Prop :=
  (p.method m').name = (p.method m).name ∧ (p.method m').params = (p.method m).params

/-- The second method can be run where the first is called on an object. -/
structure Overrides (p : Program) (m m' : MethodId) : Prop where
  alike : p.Alike m m'
  isInstance : (p.method m').isStatic = false
  concrete : (p.method m').kind.isAbstract = false

/-- What overrides a method in the nearest of a type and its bases, and the method itself if nothing does. -/
inductive Nearest (p : Program) (m : MethodId) : TypeId → MethodId → Prop
  | here {id m'} : m' ∈ (p.type id).methods → p.Overrides m m' → Nearest p m id m'
  | above {id base m'} : (∀ m' ∈ (p.type id).methods, ¬ p.Overrides m m') → (p.type id).base = some (.defined base) →
    Nearest p m base m' → Nearest p m id m'
  | itself {id} : (∀ m' ∈ (p.type id).methods, ¬ p.Overrides m m') → (∀ base, (p.type id).base ≠ some (.defined base)) →
    Nearest p m id m

/-- The type has at most one method with the name and the parameters, and that is an instance method. -/
def Distinguishes (p : Program) (m : MethodId) (id : TypeId) : Prop :=
  ∀ m₁ ∈ (p.type id).methods, p.Alike m m₁ → (p.method m₁).isStatic = false ∧
    ∀ m₂ ∈ (p.type id).methods, p.Alike m m₂ → m₂ = m₁

variable {p : Program} {m m' : MethodId} {id : TypeId}

/-- What a type itself offers to the search. -/
theorem alike_of_findMethod (h : p.findMethod id (p.method m).name (p.method m).params = some m') :
    m' ∈ (p.type id).methods ∧ p.Alike m m' := by
  have htest := List.find?_some h
  rw [Bool.and_eq_true, beq_iff_eq, beq_iff_eq] at htest
  exact ⟨List.mem_of_find?_eq_some h, htest⟩

/-- A type without anything to run for the method has no override of it. -/
theorem Distinguishes.not_overrides (h : p.Distinguishes m id)
    (hnone : ∀ m', ¬ p.Implements id (p.method m).name (p.method m).params m') :
    ∀ m' ∈ (p.type id).methods, ¬ p.Overrides m m' := by
  intro m' hm' hover
  cases hfound : p.findMethod id (p.method m).name (p.method m).params with
  | none =>
    have hmiss := List.find?_eq_none.mp hfound m' hm'
    simp [hover.alike.1, hover.alike.2] at hmiss
  | some first =>
    obtain ⟨hfirst, halike⟩ := alike_of_findMethod hfound
    cases (h m' hm' hover.alike).2 first hfirst halike
    exact hnone m' ⟨hfound, hover.concrete⟩

/-- Where every base distinguishes the method, what the search finds is the nearest override. -/
theorem Finds.nearest {t : Ty} {found : Option MethodId} (h : p.Finds (p.method m).name (p.method m).params t found) :
    ∀ {id : TypeId}, t = .defined id → (∀ base, p.Derives id base → p.Distinguishes m base) → p.Nearest m id
      (found.getD m) := by
  induction h with
  | outside hout =>
    intro id ht _
    exact absurd ht (hout id)
  | here himpl =>
    intro _ ht hdist
    cases ht
    obtain ⟨hmem, halike⟩ := alike_of_findMethod himpl.1
    exact .here hmem ⟨halike, (hdist _ .refl _ hmem halike).1, himpl.2⟩
  | root hself hbase =>
    intro _ ht hdist
    cases ht
    exact .itself ((hdist _ .refl).not_overrides hself) fun base hb => by rw [hbase] at hb; cases hb
  | @above id base found hself hbase hnext ih =>
    intro _ ht hdist
    cases ht
    have hnone := (hdist _ .refl).not_overrides hself
    by_cases hdefined : ∃ next, base = .defined next
    · obtain ⟨next, rfl⟩ := hdefined
      exact .above hnone hbase (ih rfl fun base hderives => hdist base (.head hbase hderives))
    · have hfound : found = none := by
        cases hnext with
        | outside => rfl
        | here | root | above => exact absurd ⟨_, rfl⟩ hdefined
      subst hfound
      refine .itself hnone fun next hb => hdefined ⟨next, ?_⟩
      exact Option.some.inj (hbase.symm.trans hb)

theorem Nearest.isInstance (h : p.Nearest m id m') (hm : (p.method m).isStatic = false) :
    (p.method m').isStatic = false := by
  induction h with
  | here _ hover => exact hover.isInstance
  | above _ _ _ ih => exact ih
  | itself => exact hm

/-- What overrides a method on the type itself is the nearest override. -/
theorem Nearest.eq_of_mem {m₁ : MethodId} (h : p.Nearest m id m') (hdist : p.Distinguishes m id)
    (hmem : m₁ ∈ (p.type id).methods) (hm₁ : p.Overrides m m₁) : m' = m₁ := by
  cases h with
  | here hmem' hover => exact (hdist m₁ hmem hm₁.alike).2 m' hmem' hover.alike
  | above hnone | itself hnone => exact absurd hm₁ (hnone m₁ hmem)

/-- Whatever is found has the name and the parameters that were looked for. -/
theorem Finds.alike {t : Ty} {found : Option MethodId} (h : p.Finds (p.method m).name (p.method m).params t found) :
    p.Alike m (found.getD m) := by
  induction h with
  | outside | root => exact ⟨rfl, rfl⟩
  | here himpl => exact (alike_of_findMethod himpl.1).2
  | above _ _ _ ih => exact ih

end Machine.Program

namespace Module

variable {m : Module} {catalog : Metadata} {options : BuildOptions} {s : Supply} {built : Built machine}
  {after : BuildState machine}

/-- A call of a virtual instance method runs a method of its name and parameters. Where the types along the receiver's
    bases distinguish the method, that is the nearest override, an instance method, and on the type that has the
    method it is the method itself, unless that is abstract. -/
theorem dispatch_finds_nearest_override (h : (m.build machine catalog options).exec ⟨s, {}⟩ = (.ok built, after))
    (id : TypeId) (method : MethodId) (hvirtual : (after.program.method method).isVirtual = true)
    (hinstance : (after.program.method method).isStatic = false) :
    after.program.Alike method (after.program.dispatch (.defined id) method) ∧
    ((∀ base, after.program.Derives id base → after.program.Distinguishes method base) →
      (after.program.method (after.program.dispatch (.defined id) method)).isStatic = false ∧
      after.program.Nearest method id (after.program.dispatch (.defined id) method) ∧
      (method ∈ (after.program.type id).methods → (after.program.method method).kind.isAbstract = false →
        after.program.dispatch (.defined id) method = method)) := by
  obtain ⟨table, closures, declared, hd, -, -, -, hinvariant⟩ := of_build_invariant h
  have hordered : after.program.Ordered := (hinvariant _ (Site.whole_invariant _)).earlier
  have hfinds := hordered.finds_implementation? (after.program.method method).name
    (after.program.method method).params _
    (.defined id) (after.program.height_le _)
  rw [show after.program.dispatch (.defined id) method = _ from if_pos hvirtual]
  refine ⟨hfinds.alike, fun hdist => ?_⟩
  have hnearest := hfinds.nearest rfl hdist
  exact ⟨hnearest.isInstance hinstance, hnearest,
    fun hmem hkind => hnearest.eq_of_mem (hdist id .refl) hmem ⟨⟨rfl, rfl⟩, hinstance, hkind⟩⟩

/-! ### Shadowed areas -/

/-- An area that can be asked for, or one that belongs to the type. -/
def areaMember (owner : String) (isStatic : Bool) (v : Int32) : Member :=
  .method { name := "area", attributes := { isStatic, isVirtual := !isStatic }, returnType := .i32
            body := .expr ⟨if isStatic then [] else [⟨.named "this", .deferred ⟨owner⟩⟩], [], .literal (.i32 v)⟩ }

/-- Circles have an area of their own. Squares have one too, and a static method of the same name before it. -/
def shadowedAreas : Module where
  types := [
    { key := ⟨"Shape"⟩, members := [areaMember "Shape" false 1] },
    { key := ⟨"Square"⟩, base := some (.deferred ⟨"Shape"⟩), members := [areaMember "Square" true 2,
      areaMember "Square" false 3] },
    { key := ⟨"Circle"⟩, base := some (.deferred ⟨"Shape"⟩), members := [areaMember "Circle" false 4] }]

/-- The areas of objects. -/
def areas : List MethodId := [⟨0, "Shape::area"⟩, ⟨2, "Square::area"⟩, ⟨3, "Circle::area"⟩]

/-- What the build makes of the areas. -/
abbrev AreasShadowed (p : Program) : Prop :=
  ((p.type ⟨0, "Shape"⟩).methods = [⟨0, "Shape::area"⟩] ∧ (p.type ⟨0, "Shape"⟩).base = none) ∧
  (p.type ⟨1, "Square"⟩).methods = [⟨1, "Square::area"⟩, ⟨2, "Square::area"⟩] ∧
  ((p.type ⟨2, "Circle"⟩).methods = [⟨3, "Circle::area"⟩] ∧ (p.type ⟨2, "Circle"⟩).base = some
    (.defined ⟨0, "Shape"⟩)) ∧
  (∀ m ∈ areas, (p.method m).isVirtual ∧ ((p.method m).name = "area" ∧ (p.method m).params = []) ∧
    (p.method m).isStatic = false ∧ (p.method m).kind.isAbstract = false) ∧
  (p.method ⟨1, "Square::area"⟩).isStatic ∧ p.dispatch (.defined ⟨1, "Square"⟩) ⟨2, "Square::area"⟩ =
    ⟨1, "Square::area"⟩

theorem AreasShadowed.overrides {p : Program} (h : AreasShadowed p) {m m' : MethodId} (hm : m ∈ areas)
    (hm' : m' ∈ areas) :
    p.Overrides m m' := by
  obtain ⟨-, -, -, hareas, -⟩ := h
  obtain ⟨-, ⟨hname, hparams⟩, -⟩ := hareas m hm
  obtain ⟨-, ⟨hname', hparams'⟩, hinstance, hconcrete⟩ := hareas m' hm'
  exact ⟨⟨hname'.trans hname.symm, hparams'.trans hparams.symm⟩, hinstance, hconcrete⟩

theorem shadowedAreas_builds : ∃ built after, (shadowedAreas.build machine ∅ {}).exec ⟨{}, {}⟩ = (.ok built, after) ∧
    AreasShadowed after.program := by
  have hfacts : (((shadowedAreas.build machine ∅ {}).exec ⟨{}, {}⟩).1.isOk &&
      decide (AreasShadowed ((shadowedAreas.build machine ∅ {}).exec ⟨{}, {}⟩).2.program)) = true := by decide +kernel
  rcases hbuild : (shadowedAreas.build machine ∅ {}).exec ⟨{}, {}⟩ with ⟨_ | built, after⟩
  · rw [hbuild] at hfacts
    cases hfacts
  · rw [hbuild] at hfacts
    exact ⟨built, after, rfl, of_decide_eq_true hfacts⟩

/-- Circles are asked for their own area where the area of a shape is called. -/
theorem circle_runs_its_area : ∃ built after, (shadowedAreas.build machine ∅ {}).exec ⟨{}, {}⟩ = (.ok built, after) ∧
    after.program.dispatch (.defined ⟨2, "Circle"⟩) ⟨0, "Shape::area"⟩ = ⟨3, "Circle::area"⟩ := by
  obtain ⟨built, after, hbuild, hfacts⟩ := shadowedAreas_builds
  obtain ⟨⟨hshape, hroot⟩, -, ⟨hcircle, hbase⟩, hareas, -⟩ := id hfacts
  have hover : after.program.Overrides ⟨0, "Shape::area"⟩ ⟨3, "Circle::area"⟩ := hfacts.overrides (by simp [areas])
    (by simp [areas])
  obtain ⟨hvirtual, -, hinstance, -⟩ := hareas ⟨0, "Shape::area"⟩ (by simp [areas])
  have hone {id : TypeId} {m : MethodId} (hmethods : (after.program.type id).methods = [m]) (hm : m ∈ areas) :
      after.program.Distinguishes ⟨0, "Shape::area"⟩ id := by
    intro m₁ hm₁ _
    rw [hmethods, List.mem_singleton] at hm₁
    subst hm₁
    refine ⟨(hfacts.overrides hm hm).isInstance, fun m₂ hm₂ _ => ?_⟩
    rwa [hmethods, List.mem_singleton] at hm₂
  have hnearest := ((dispatch_finds_nearest_override hbuild ⟨2, "Circle"⟩ ⟨0, "Shape::area"⟩ hvirtual hinstance).2
    fun base hderives => by
      rcases hderives.cases_head with rfl | ⟨next, hnext, hderives⟩
      · exact hone hcircle (by simp [areas])
      cases hbase.symm.trans hnext
      rcases hderives.cases_head with rfl | ⟨next, hnext, -⟩
      · exact hone hshape (by simp [areas])
      · cases hroot.symm.trans hnext).2.1
  exact ⟨built, after, hbuild, hnearest.eq_of_mem (hone hcircle (by simp [areas])) (by simp [hcircle]) hover⟩

/-- Squares are asked for the area that they share: a call of an instance method that can be run, on the type that has
    it, runs a static method in its place. -/
theorem static_method_shadows_override : ∃ built after square area,
    (shadowedAreas.build machine ∅ {}).exec ⟨{}, {}⟩ = (.ok built, after) ∧ area ∈ (after.program.type square).methods ∧
    (after.program.method area).isVirtual = true ∧ after.program.Overrides area area ∧
    after.program.dispatch (.defined square) area ≠ area ∧
    (after.program.method (after.program.dispatch (.defined square) area)).isStatic = true := by
  obtain ⟨built, after, hbuild, hfacts⟩ := shadowedAreas_builds
  obtain ⟨-, hmethods, -, hareas, hstatic, hdispatch⟩ := id hfacts
  have hmem : ⟨2, "Square::area"⟩ ∈ areas := by simp [areas]
  refine ⟨built, after, ⟨1, "Square"⟩, ⟨2, "Square::area"⟩, hbuild, by simp [hmethods], (hareas _ hmem).1,
    hfacts.overrides hmem hmem, ?_⟩
  rw [hdispatch]
  exact ⟨by simp, hstatic⟩

end Module

end Stackwright
