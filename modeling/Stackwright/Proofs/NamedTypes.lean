import Stackwright.Proofs.Realized

/-
  Stackwright.Proofs.NamedTypes — one name, one class, for as long as a build goes on.

  A class that is asked for by its name is looked up in the program as far as it has been built. Nothing waits for a
  name, as steps wait for keys, so a name that belongs to a type of the module stands for a class of the machine until
  the type is defined, and for the type from then on. Every other name keeps its meaning.
-/

namespace Stackwright

open Machine (Ty TypeId TypeRecord Program handles)

/-! ## Names -/

namespace Machine.Program

variable {p q : Program} {name : String}

theorem findType_congr (h : p.types = q.types) (name : String) : p.findType name = q.findType name := by
  rw [findType, findType, h]

/-- The first type of a name stays the first: later types come after it, and names do not change. -/
theorem Grows.findType (h : p.Grows q) {id : TypeId} (hid : p.findType name = some id) : q.findType name = some id := by
  obtain ⟨i, hi, rfl⟩ := Option.map_eq_some_iff.mp hid
  obtain ⟨hlt, hname, hbefore⟩ := Array.findIdx?_eq_some_iff_getElem.mp hi
  have hkept {j : Nat} (hj : j < p.types.size) : ∃ hj' : j < q.types.size, q.types[j].name = p.types[j].name := by
    obtain ⟨r, hr, hgrows⟩ := h.types j _ (Array.getElem?_eq_getElem hj)
    obtain ⟨hj', rfl⟩ := Array.getElem?_eq_some_iff.mp hr
    exact ⟨hj', hgrows.name⟩
  obtain ⟨hlt', hsame⟩ := hkept hlt
  refine Option.map_eq_some_iff.mpr ⟨i, Array.findIdx?_eq_some_iff_getElem.mpr ⟨hlt', ?_, fun j hj => ?_⟩, rfl⟩
  · rw [hsame]
    exact hname
  · rw [(hkept (hj.trans hlt)).2]
    exact hbefore j hj

theorem known_of_not_named (h : ∀ (i : Nat) (r : TypeRecord), p.types[i]? = some r → r.name ≠ name) :
    p.known name = .named name := by
  have hnone : p.findType name = none := by
    refine Option.map_eq_none_iff.mpr (Array.findIdx?_eq_none_iff.mpr fun r hr => ?_)
    obtain ⟨i, hi⟩ := Array.mem_iff_getElem?.mp hr
    exact beq_false_of_ne (h i r hi)
  rw [known, hnone]

end Machine.Program

/-! ## Following references again -/

section

variable {slots slots' : Slots handles} {p q : Program} {P : String → Prop}

mutual
/-- A reference leads where it did when all that it mentions stands for the same. -/
theorem TypeRef.resolve_again (hslots : slots.Grows slots') (hP : ∀ name, P name → q.known name = p.known name) :
    ∀ (t : TypeRef) {ty : Ty} {p' : Program}, t.Names P → (t.resolve machine slots).exec p = (.ok ty, p') →
    p = p' ∧ (t.resolve machine slots').exec q = (.ok ty, q)
  | .deferred key, ty, _, _, h => by
    obtain ⟨hread, rfl⟩ := Prod.mk.inj h
    exact ⟨rfl, Prod.ext (hslots _ _ hread) rfl⟩
  | .primitive _, _, _, _, h => by
    cases h
    exact ⟨rfl, rfl⟩
  | .named name, _, _, hname, h => by
    cases (Program.exec_namedType name p).symm.trans h
    exact ⟨rfl, (Program.exec_namedType name q).trans (by rw [hP name hname])⟩
  | .cell content, _, _, hnames, h => by
    rw [resolve] at h ⊢
    obtain ⟨inner, p₁, hinner, h⟩ := Effect.exec_bind_ok.mp h
    obtain ⟨rfl, hagain⟩ := content.resolve_again hslots hP hnames hinner
    cases h
    exact ⟨rfl, Effect.exec_bind_ok.mpr ⟨inner, q, hagain, rfl⟩⟩
  | .delegate params ret, _, _, hnames, h => by
    rw [resolve] at h ⊢
    obtain ⟨tys, p₁, hparams, h⟩ := Effect.exec_bind_ok.mp h
    obtain ⟨result, p₂, hret, h⟩ := Effect.exec_bind_ok.mp h
    obtain ⟨rfl, hparams'⟩ := TypeRef.resolveAll_again hslots hP params hnames.1 hparams
    obtain ⟨rfl, hret'⟩ := ret.resolve_again hslots hP hnames.2 hret
    cases h
    exact ⟨rfl, Effect.exec_bind_ok.mpr ⟨tys, q, hparams', Effect.exec_bind_ok.mpr ⟨result, q, hret', rfl⟩⟩⟩

theorem TypeRef.resolveAll_again (hslots : slots.Grows slots') (hP : ∀ name, P name → q.known name = p.known name) :
    ∀ (ts : List TypeRef) {tys : List Ty} {p' : Program}, NamesAll P ts → (resolveAll machine slots ts).exec p =
      (.ok tys, p') →
    p = p' ∧ (resolveAll machine slots' ts).exec q = (.ok tys, q)
  | [], _, _, _, h => by
    cases h
    exact ⟨rfl, rfl⟩
  | t :: ts, _, _, hnames, h => by
    rw [resolveAll] at h ⊢
    obtain ⟨ty, p₁, hty, h⟩ := Effect.exec_bind_ok.mp h
    obtain ⟨rest, p₂, hrest, h⟩ := Effect.exec_bind_ok.mp h
    obtain ⟨rfl, hty'⟩ := t.resolve_again hslots hP hnames.1 hty
    obtain ⟨rfl, hrest'⟩ := TypeRef.resolveAll_again hslots hP ts hnames.2 hrest
    cases h
    exact ⟨rfl, Effect.exec_bind_ok.mpr ⟨ty, q, hty', Effect.exec_bind_ok.mpr ⟨rest, q, hrest', rfl⟩⟩⟩
end

end

/-! ## Moments of a build -/

namespace Site

/-- A step of the module is carried out. -/
def Next (B : Blueprint) (w w' : Site) : Prop :=
  ∃ d ∈ B.definitions, ∃ step, d.HasStep B.hierarchy B.options step ∧ step.action.exec w = (.ok (), w')

/-- Steps are carried out one after the other, in whatever order. -/
def Leads (B : Blueprint) : Site → Site → Prop := Relation.ReflTransGen (Next B)

variable {B : Blueprint} {w w' : Site} {name : String}

theorem Sound.leads (h : Sound B w) (hleads : Leads B w w') : Sound B w' ∧ Grows w w' := by
  induction hleads with
  | refl => exact ⟨h, .refl w⟩
  | tail _ hnext ih =>
    obtain ⟨d, hd, step, hstep, haction⟩ := hnext
    obtain ⟨hsound, hgrows⟩ := ih.1.step hd hstep haction
    exact ⟨hsound, ih.2.trans hgrows⟩

/-- Names that belong to no type of the module are left to the machine. -/
theorem Known.known_eq_named (h : Known B w) (hname : ∀ d ∈ B.definitions, d.key.name ≠ name) :
    w.program.known name = .named name := by
  refine Program.known_of_not_named fun i r hr => ?_
  obtain ⟨d, hd, hat⟩ := h.typeKnown i r hr
  obtain ⟨r', hr', hname', -⟩ := hat.record
  cases hr.symm.trans hr'
  exact hname' ▸ hname d hd

/-- The name is that of no type of the module, or that of a type that has been defined. -/
def Settled (B : Blueprint) (w : Site) (name : String) : Prop :=
  (∀ d ∈ B.definitions, d.key.name ≠ name) ∨ ∃ id, w.program.findType name = some id

theorem Sound.known_eq (h : Sound B w) (hleads : Leads B w w') (hname : w.Settled B name) :
    w'.program.known name = w.program.known name := by
  obtain ⟨hsound, hgrows⟩ := h.leads hleads
  rcases hname with hname | ⟨id, hid⟩
  · rw [h.known_eq_named hname, hsound.known_eq_named hname]
  · rw [Program.known, Program.known, hid, hgrows.program.findType hid]

/-- All moments of a build can be reached from its first, so that is what a whole run preserves. -/
theorem invariant_leads (B : Blueprint) :
    Invariant B fun w => ∃ slots, (∀ key v, slots.read key ≠ .ok v) ∧ Leads B ⟨{}, slots⟩ w where
  start slots hslots := ⟨slots, hslots, .refl⟩
  step d hd step hstep w w' _ hw haction := by
    obtain ⟨slots, hslots, hleads⟩ := hw
    exact ⟨slots, hslots, hleads.tail ⟨d, hd, step, hstep, haction⟩⟩

end Site

/-! ## Builds -/

namespace Module

/-- A reference that was followed at a moment of the build leads to the same type at every later moment, when each
    class that it names is none of the module's types or has been defined. While a step is carried out, the types are
    those before it. -/
theorem resolved_types_stay {m : Module} {catalog : Metadata} {options : BuildOptions} {s : Supply}
    {built : Built machine}
    {after : BuildState machine} (h : (m.build machine catalog options).exec ⟨s, {}⟩ = (.ok built, after)) :
    ∃ (B : Blueprint) (slots : Slots handles), (m.declare catalog).map (·.definitions) = .ok B.definitions ∧
      B.options = options ∧ Site.Leads B ⟨{}, slots⟩ ⟨after.program, built.slots⟩ ∧
      ∀ w w', Site.Leads B ⟨{}, slots⟩ w → Site.Leads B w w' → ∀ p p' : Program, p.types = w.program.types →
        p'.types = w'.program.types → ∀ t : TypeRef, t.Names (w.Settled B) → ∀ ty q,
        (t.resolve machine w.slots).exec p = (.ok ty, q) → (t.resolve machine w'.slots).exec p' = (.ok ty, p') := by
  obtain ⟨table, closures, declared, hd, hdeclare, -, -, hkept⟩ := of_build_invariant h
  obtain ⟨slots, hfree, hfinal⟩ := hkept _ (Site.invariant_leads _)
  refine ⟨hd.blueprint options, slots, by rw [hdeclare]; rfl, rfl, hfinal,
    fun w w' hw hw' p p' hp hp' t ht ty q hty => ?_⟩
  have hsound := (Site.sound_empty hfree).leads hw
  refine (TypeRef.resolve_again (hsound.1.leads hw').2.slots (fun name hname => ?_) t ht hty).2
  rw [Program.known, Program.known, Program.findType_congr hp, Program.findType_congr hp']
  exact hsound.1.known_eq hw' hname

/-- Asks whether its argument is a leaf. -/
def asksForLeaf : Member :=
  .method { name := "isLeaf", attributes := { isStatic := true }, returnType := .object
            body := .code [.object] ⟨[], [.loadArg 0, .typeOp .isInst (.named "Leaf"), .op .ret]⟩ }

/-- Two types ask the same thing, one before and one after the type of leaves. -/
def leafAskers : Module where
  types := [{ key := ⟨"Early"⟩, members := [asksForLeaf] }, { key := ⟨"Leaf"⟩ },
    { key := ⟨"Late"⟩, members := [asksForLeaf] }]

/-- What a method asks its argument for. -/
def askedType (p : Program) (index : Nat) : Option Ty :=
  match (p.method ⟨index, ""⟩).kind with
  | .defined (some code) =>
    match code.ops[1]? with
    | some (Machine.Op.plain (.typeOp .isInst type)) => some type
    | _ => none
  | _ => none

theorem leafAskers_builds : ∃ built after, (leafAskers.build machine ∅ {}).exec ⟨{}, {}⟩ = (.ok built, after) ∧
    askedType after.program 0 = some (.named "Leaf") ∧ askedType after.program 1 = some (.defined ⟨1, "Leaf"⟩) := by
  have hfacts : (match (leafAskers.build machine ∅ {}).exec ⟨{}, {}⟩ with
      | (.ok _, (after : BuildState machine)) => decide (askedType after.program 0 = some (.named "Leaf") ∧
          askedType after.program 1 = some (.defined ⟨1, "Leaf"⟩))
      | _ => false) = true := by decide +kernel
  rcases hbuild : (leafAskers.build machine ∅ {}).exec ⟨{}, {}⟩ with ⟨_ | built, after⟩
  · rw [hbuild] at hfacts
    cases hfacts
  · rw [hbuild] at hfacts
    exact ⟨built, after, rfl, of_decide_eq_true hfacts⟩

/-- Cells of a class of the machine. -/
theorem console_cells_stay : ∃ built after, (leafAskers.build machine ∅ {}).exec ⟨{}, {}⟩ = (.ok built, after) ∧
    ((TypeRef.cell (.named "Console")).resolve machine built.slots).exec after.program =
      (.ok (.cell (.named "Console")), after.program) := by
  obtain ⟨built, after, hbuild, -⟩ := leafAskers_builds
  obtain ⟨B, slots, hdefinitions, -, hfinal, hstays⟩ := resolved_types_stay hbuild
  have hnames : (match (leafAskers.declare ∅).map (·.definitions) with
      | .ok definitions => definitions.all (·.key.name != "Console")
      | _ => false) = true := by decide +kernel
  rw [hdefinitions] at hnames
  refine ⟨built, after, hbuild, hstays _ _ .refl hfinal {} _ rfl rfl (.cell (.named "Console"))
    (.inl fun d hd => ?_) _ {} (by with_unfolding_all rfl)⟩
  exact bne_iff_ne.mp (List.all_eq_true.mp hnames d hd)

/-- One name stands for two types: the first method asks for a class of the machine, which no leaf belongs to. -/
theorem early_name_misses_type : ∃ built after, (leafAskers.build machine ∅ {}).exec ⟨{}, {}⟩ = (.ok built, after) ∧
    ∃ ty ty', askedType after.program 0 = some ty ∧ askedType after.program 1 = some ty' ∧ ty ≠ ty' := by
  obtain ⟨built, after, hbuild, hearly, hlate⟩ := leafAskers_builds
  exact ⟨built, after, hbuild, _, _, hearly, hlate, by simp⟩

end Module

end Stackwright
