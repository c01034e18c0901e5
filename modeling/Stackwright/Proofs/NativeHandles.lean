import Stackwright.Proofs.Growth

/-
  Stackwright.Proofs.NativeHandles — handles of members that the machine provides.

  A member is noted when it is first asked for, and found again by its owner, name, parameters and kind. The return
  type is not compared: whoever asks later gets the one that was asked for first.
-/

namespace Stackwright.Machine

variable {m : MethodRecord}

/-- Asks for a method or a constructor of an existing type. -/
inductive Request where
  | method (owner : Ty) (name : String) (params : List Ty) (ret : Ty) (isInstance : Bool)
  | constructor (owner : Ty) (params : List Ty)

/-- What members are told apart by. -/
def MethodRecord.signature (m : MethodRecord) : Ty × String × List Ty × Bool := (m.owner, m.name, m.params, m.isStatic)

namespace Request

def perform : Request → Effect Program MethodId
  | .method owner name params ret isInstance => Program.existingMethod owner name params ret isInstance
  | .constructor owner params => Program.existingConstructor owner params

def performAll (rs : List Request) : Effect Program (List MethodId) := rs.mapM perform

/-- The member that is asked for. -/
def record : Request → MethodRecord
  | .method owner name params ret isInstance =>
    { owner, name, params, ret, isStatic := !isInstance, isVirtual := false, kind := .native }
  | .constructor owner params => ExistingConstructor.record owner params

/-- The owner is not a type of the program. -/
def OfRuntime (r : Request) : Prop := ∀ id, r.record.owner ≠ .defined id

theorem kind_record (r : Request) : r.record.kind = .native := by cases r <;> rfl

theorem perform_eq {r : Request} (hr : r.OfRuntime) : r.perform = Program.nativeMethod r.record := by
  cases r with
  | method owner | constructor owner =>
    cases owner with
    | defined id => exact absurd rfl (hr id)
    | _ => rfl

end Request

namespace Program

variable {p q : Program} {i j : Nat}

/-- The machine's first member with a signature. -/
structure First (p : Program) (m : MethodRecord) (i : Nat) : Prop where
  found : ∃ r, p.methods[i]? = some r ∧ r.kind = .native ∧ r.signature = m.signature
  least : ∀ j r, j < i → p.methods[j]? = some r → r.kind = .native → r.signature ≠ m.signature

theorem First.unique {m' : MethodRecord} (h : p.First m i) (h' : p.First m' j) :
    i = j ↔ m.signature = m'.signature := by
  obtain ⟨r, hr, hkind, hsame⟩ := h.found
  obtain ⟨r', hr', hkind', hsame'⟩ := h'.found
  constructor
  · rintro rfl
    cases hr.symm.trans hr'
    exact hsame.symm.trans hsame'
  · intro hm
    rcases Nat.lt_trichotomy i j with hlt | heq | hgt
    · exact absurd (hsame.trans hm) (h'.least i r hlt hr hkind)
    · exact heq
    · exact absurd (hsame'.trans hm.symm) (h.least j r' hgt hr' hkind')

theorem First.mono {P : MethodRecord → Prop} (h : p.First m i) (hnotes : p.Notes P q) : q.First m i := by
  obtain ⟨r, hr, hfound⟩ := h.found
  refine ⟨⟨r, hnotes.methods hr, hfound⟩, fun j r' hj hr' => h.least j r' hj ?_⟩
  -- what stands before an old member is old
  have hlt : j < p.methods.size := Nat.lt_trans hj (Array.getElem?_eq_some_iff.mp hr).1
  rw [← hr', hnotes.methods (Array.getElem?_eq_getElem hlt)]
  exact Array.getElem?_eq_getElem hlt

/-- A member that is not known yet is noted. -/
theorem nativeMethod_answers (hkind : m.kind = .native) (howner : ∀ id, m.owner ≠ .defined id) (p : Program) :
    ∃ id q, (nativeMethod m).exec p = (.ok id, q) ∧ q.First m id.index ∧ p.Notes (· = m) q := by
  let same (r : MethodRecord) : Bool := r.kind.isNative && r.owner == m.owner && r.name == m.name &&
    r.params == m.params &&
    r.isStatic == m.isStatic
  have hsame (r : MethodRecord) : same r ↔ r.kind = .native ∧ r.signature = m.signature := by
    rcases r with ⟨_, _, _, _, _, _, kind⟩
    cases kind <;> simp [same, MethodKind.isNative, MethodRecord.signature, and_assoc]
  have hexec : (nativeMethod m).exec p = (p.methods.findIdx? same).elim ((addMethod m).exec p) fun index =>
      (.ok { index, name := memberName m.owner m.name }, p) := by
    unfold nativeMethod
    rw [Effect.exec_bind, Effect.exec_get]
    dsimp only [same]
    split
    all_goals
      rename_i hknown
      rw [hknown]
      rfl
  cases hknown : p.methods.findIdx? same with
  | some i =>
    obtain ⟨hlt, hfound, hleast⟩ := Array.findIdx?_eq_some_iff_getElem.mp hknown
    rw [hknown] at hexec
    refine ⟨_, p, hexec, ⟨⟨p.methods[i], Array.getElem?_eq_getElem hlt, (hsame _).mp hfound⟩, ?_⟩, .refl p⟩
    intro j r hj hr hnative hsignature
    obtain ⟨hlt', rfl⟩ := Array.getElem?_eq_some_iff.mp hr
    exact hleast j hj ((hsame _).mpr ⟨hnative, hsignature⟩)
  | none =>
    rw [hknown, exec_addMethod_native howner] at hexec
    refine ⟨_, _, hexec, ⟨⟨m, by simp [nextMethod], hkind, rfl⟩, ?_⟩, [m], by simpa using ⟨hkind, howner⟩, by simp⟩
    intro j r hj hr hnative hsignature
    rw [Array.getElem?_push_lt hj] at hr
    cases hr
    have hno := Array.findIdx?_eq_none_iff.mp hknown _ (Array.getElem_mem hj)
    rw [(hsame _).mpr ⟨hnative, hsignature⟩] at hno
    cases hno

/-- Every request gets the first member with its signature. -/
theorem performAll_answers : ∀ (rs : List Request) (p : Program), (∀ r ∈ rs, r.OfRuntime) →
    ∃ ids q, (Request.performAll rs).exec p = (.ok ids, q) ∧
      List.Forall₂ (fun r id => q.First r.record id.index) rs ids ∧ p.Notes (fun m => ∃ r ∈ rs, m = r.record) q
  | [], p, _ => ⟨[], p, rfl, .nil, .refl p⟩
  | r :: rs, p, hrs => by
    obtain ⟨hr, hrs⟩ := List.forall_mem_cons.mp hrs
    obtain ⟨id, p₁, hfirst, hid, hnotes⟩ := nativeMethod_answers r.kind_record hr p
    obtain ⟨ids, q, hrest, hids, hmore⟩ := performAll_answers rs p₁ hrs
    have hexec : (Request.performAll (r :: rs)).exec p = (.ok (id :: ids), q) := by
      rw [Request.performAll, List.mapM_cons, Request.perform_eq hr]
      exact Effect.exec_bind_ok.mpr ⟨_, _, hfirst, Effect.exec_bind_ok.mpr ⟨_, _, hrest, rfl⟩⟩
    refine ⟨_, q, hexec, .cons (hid.mono hmore) hids, ?_⟩
    exact (hnotes.mono fun m hm => ⟨r, List.mem_cons_self, hm⟩).trans
      (hmore.mono fun _ => .imp fun r' hr' => ⟨List.mem_cons_of_mem _ hr'.1, hr'.2⟩)

/-- Requests for members of runtime types are answered by handles of members with the owner, name, parameters and kind
    that were asked for, now and after later requests. The return type is the right one as long as nobody asked for
    the same member with another one. Two requests get one number exactly if they ask for the same owner, name,
    parameters and kind. -/
theorem requests_are_answered (p : Program) (rs later : List Request) (hrs : ∀ r ∈ rs ++ later, r.OfRuntime) :
    ∃ ids q more q', (Request.performAll rs).exec p = (.ok ids, q) ∧ (Request.performAll later).exec q =
      (.ok more, q') ∧
      (∀ state ∈ [q, q'], List.Forall₂ (fun r id => (state.method id).signature = r.record.signature ∧
        ((∀ (i : Nat) m, p.methods[i]? = some m → m.kind = .native → m.signature = r.record.signature →
          m.ret = r.record.ret) →
          (∀ other ∈ rs, other.record.signature = r.record.signature → other.record.ret = r.record.ret) →
          (state.method id).ret = r.record.ret)) rs ids) ∧
      ∀ (i j : Nat) r r' id id', rs[i]? = some r → ids[i]? = some id → rs[j]? = some r' → ids[j]? = some id' →
        (id.index = id'.index ↔ r.record.signature = r'.record.signature) := by
  obtain ⟨ids, q, hexec, hids, hnotes⟩ := performAll_answers rs p fun r hr => hrs r (List.mem_append_left _ hr)
  obtain ⟨more, q', hexec', -, hlater⟩ := performAll_answers later q fun r hr => hrs r (List.mem_append_right _ hr)
  refine ⟨ids, q, more, q', hexec, hexec', fun state hstate => hids.imp fun r id hid => ?_, ?_⟩
  · obtain ⟨m, hm, hnative, hsignature⟩ := hid.found
    have hmethod : state.method id = m := by
      have hat : state.methods[id.index]? = some m := by
        rcases List.mem_pair.mp hstate with rfl | rfl
        · exact hm
        · exact hlater.methods hm
      rw [method, Array.getD_eq_getD_getElem?, hat]
      rfl
    rw [hmethod]
    refine ⟨hsignature, fun hknown hagree => ?_⟩
    rcases hnotes.cases hm with hold | ⟨-, -, other, hother, rfl⟩
    · exact hknown _ m hold hnative hsignature
    · exact hagree other hother hsignature
  · intro i j r r' id id' hr hid hr' hid'
    have hat {i : Nat} {r : Request} {id : MethodId} (hr : rs[i]? = some r) (hid : ids[i]? = some id) :
        q.First r.record id.index := by
      obtain ⟨hi, rfl⟩ := List.getElem?_eq_some_iff.mp hr
      obtain ⟨hi', rfl⟩ := List.getElem?_eq_some_iff.mp hid
      exact (List.forall₂_iff_get.mp hids).2 i hi hi'
    exact (hat hr hid).unique (hat hr' hid')

/-- Somebody asks for a text, later somebody for a number. -/
def parseRequests : List Request :=
  [.method (.named "Parser") "Read" [] (.primitive .string) false, .method (.named "Parser") "Read" []
    (.primitive .i32) false, .constructor (.named "Parser") []]

theorem parseRequests_are_answered : (∀ r ∈ parseRequests ++ parseRequests, r.OfRuntime) ∧
    ∃ ids q more q', (Request.performAll parseRequests).exec {} = (.ok ids, q) ∧
      (Request.performAll parseRequests).exec q = (.ok more, q') ∧
      List.Forall₂ (fun r id => (q'.method id).signature = r.record.signature) parseRequests ids := by
  have hrs : ∀ r ∈ parseRequests ++ parseRequests, r.OfRuntime := by
    simp [parseRequests, Request.OfRuntime, Request.record, ExistingConstructor.record]
  obtain ⟨ids, q, more, q', hexec, hexec', hids, -⟩ := requests_are_answered {} parseRequests parseRequests hrs
  exact ⟨hrs, ids, q, more, q', hexec, hexec', (hids q' (by simp)).imp fun _ _ h => h.1⟩

/-- The handle of the method that returns a number belongs to one that returns a text. -/
theorem return_types_are_confused : ∃ first second third q,
    (Request.performAll parseRequests).exec {} = (.ok [first, second, third], q) ∧ first.index = second.index ∧
      (q.method second).ret = .primitive .string := by
  have hexec : (Request.performAll parseRequests).exec {} = (.ok [⟨0, memberName (.named "Parser") "Read"⟩,
      ⟨0, memberName (.named "Parser") "Read"⟩, ⟨1, memberName (.named "Parser") constructorName⟩],
      { methods := #[parseRequests[0].record, parseRequests[2].record] }) := by with_unfolding_all rfl
  exact ⟨_, _, _, _, hexec, rfl, rfl⟩

end Program

end Stackwright.Machine
