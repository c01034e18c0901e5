import Stackwright.Proofs.Effects
import Stackwright.Code.Block
import Stackwright.Target.Basic

/-
  Stackwright.Proofs.References — what following a reference needs.

  A reference can be followed when every key it mentions has been written and the target
  answers for everything that exists already. `P` singles out the names of existing classes
  that the target knows.
-/

namespace Stackwright

variable {s : KeySet} {k key : ItemKey}

/-! ## Work that succeeds -/

namespace Effect

variable {σ τ α β : Type}

/-- Work that never fails. -/
def Succeeds (x : Effect σ α) : Prop := ∀ s, ∃ a t, x.exec s = (.ok a, t)

theorem Succeeds.pure (a : α) : Succeeds (pure a : Effect σ α) := fun s => ⟨a, s, rfl⟩

theorem Succeeds.bind {x : Effect σ α} {f : α → Effect σ β} (hx : x.Succeeds) (hf : ∀ a, (f a).Succeeds) :
    (x >>= f).Succeeds := by
  intro s
  obtain ⟨a, t, ha⟩ := hx s
  obtain ⟨b, u, hb⟩ := hf a t
  exact ⟨b, u, exec_bind_ok.mpr ⟨a, t, ha, hb⟩⟩

theorem Succeeds.lift {x : Except BuildError α} {a : α} (h : x = .ok a) : Succeeds (liftM x : Effect σ α) :=
  fun s => ⟨a, s, by rw [exec_lift, h]⟩

theorem Succeeds.modify (f : σ → σ) : Succeeds (modify f : Effect σ PUnit) := fun s => ⟨⟨⟩, f s, rfl⟩

end Effect

/-! ## Keys -/

theorem KeySet.mem_insert : k ∈ s.insert key ↔ k = key ∨ k ∈ s := by
  rw [Std.TreeSet.mem_insert, Std.LawfulEqCmp.compare_eq_iff_eq, eq_comm]

namespace TypeRef

mutual
/-- The deferred types that a reference mentions. -/
def mentions : TypeRef → List TypeKey
  | .deferred key => [key]
  | .primitive _ => []
  | .named _ => []
  | .cell content => content.mentions
  | .delegate params ret => mentionsAll params ++ ret.mentions

def mentionsAll : List TypeRef → List TypeKey
  | [] => []
  | t :: ts => t.mentions ++ mentionsAll ts
end

mutual
theorem mem_addKeys : ∀ (t : TypeRef) {s : KeySet} {k : ItemKey}, k ∈ t.addKeys s ↔
    k ∈ t.mentions.map ItemKey.type ∨ k ∈ s
  | .deferred key, s, k => by rw [addKeys, KeySet.mem_insert]; simp [mentions]
  | .primitive _, s, k | .named _, s, k => by simp [addKeys, mentions]
  | .cell content, s, k => by rw [addKeys, mentions, mem_addKeys content]
  | .delegate params ret, s, k => by
    rw [addKeys, mentions, mem_addKeys ret, mem_addAllKeys params, List.map_append, List.mem_append, or_left_comm,
      or_assoc]

theorem mem_addAllKeys : ∀ (ts : List TypeRef) {s : KeySet} {k : ItemKey},
    k ∈ addAllKeys ts s ↔ k ∈ (mentionsAll ts).map ItemKey.type ∨ k ∈ s
  | [], s, k => by simp [addAllKeys, mentionsAll]
  | t :: ts, s, k => by
    rw [addAllKeys, mentionsAll, mem_addAllKeys ts, mem_addKeys t, List.map_append, List.mem_append, or_left_comm,
      or_assoc]
end

mutual
/-- Every class that is mentioned by name passes the test. -/
def Names (P : String → Prop) : TypeRef → Prop
  | .deferred _ => True
  | .primitive _ => True
  | .named name => P name
  | .cell content => content.Names P
  | .delegate params ret => NamesAll P params ∧ ret.Names P

def NamesAll (P : String → Prop) : List TypeRef → Prop
  | [] => True
  | t :: ts => t.Names P ∧ NamesAll P ts
end

theorem namesAll_iff {P : String → Prop} {ts : List TypeRef} : NamesAll P ts ↔ ∀ t ∈ ts, t.Names P := by
  induction ts with
  | nil => simp [NamesAll]
  | cons t ts ih => simp [NamesAll, ih]

end TypeRef

theorem MethodRef.mem_addKeys {m : MethodRef} {s : KeySet} {k : ItemKey} : k ∈ m.addKeys s ↔ k ∈ m.keys ∨ k ∈ s := by
  cases m with
  | deferred key => simp [addKeys, keys]
  | existing m => simp only [addKeys, keys, TypeRef.mem_addKeys, TypeRef.mem_addAllKeys]; grind

theorem ConstructorRef.mem_addKeys {c : ConstructorRef} : k ∈ c.addKeys s ↔ k ∈ c.keys ∨ k ∈ s := by
  cases c with
  | deferred key => simp [addKeys, keys]
  | existing c => simp only [addKeys, keys, TypeRef.mem_addKeys, TypeRef.mem_addAllKeys]; grind

theorem FieldRef.mem_addKeys {f : FieldRef} : k ∈ f.addKeys s ↔ k ∈ f.keys ∨ k ∈ s := by
  cases f with
  | deferred key => simp [addKeys, keys]
  | existing f => simp only [addKeys, keys, TypeRef.mem_addKeys]; grind

theorem Instr.mem_addKeys {i : Instr} : k ∈ i.addKeys s ↔ k ∈ i.addKeys ∅ ∨ k ∈ s := by
  cases i <;> simp only [addKeys]
  case loadField f => exact f.mem_addKeys
  case storeField f => exact f.mem_addKeys
  case loadStatic f => exact f.mem_addKeys
  case storeStatic f => exact f.mem_addKeys
  case newObject c => exact c.mem_addKeys
  case callConstructor c => exact c.mem_addKeys
  case call m _ => exact m.mem_addKeys
  case callVirtual m _ => exact m.mem_addKeys
  case newDelegate t m =>
    rw [m.mem_addKeys, @MethodRef.mem_addKeys m (t.addKeys ∅), TypeRef.mem_addKeys, TypeRef.mem_addKeys]
    simp [or_assoc]
  all_goals simp [TypeRef.mem_addKeys]

/-- Adding the keys of several things one by one adds what each of them mentions. -/
theorem KeySet.mem_foldl {α : Type} {add : KeySet → α → KeySet} {has : α → ItemKey → Prop} {k : ItemKey}
    (hadd : ∀ x s, k ∈ add s x ↔ has x k ∨ k ∈ s) :
    ∀ (xs : List α) {s : KeySet}, k ∈ xs.foldl add s ↔ (∃ x ∈ xs, has x k) ∨ k ∈ s
  | [], s => by simp
  | x :: xs, s => by
    rw [List.foldl_cons, mem_foldl hadd xs, hadd]
    simp only [List.mem_cons, exists_eq_or_imp, or_assoc]
    exact or_left_comm

theorem Block.mem_keys {b : Block} :
    k ∈ b.keys ↔ (∃ i ∈ b.code, k ∈ i.addKeys ∅) ∨ ∃ l ∈ b.locals, k ∈ l.type.mentions.map ItemKey.type := by
  have hcode := @KeySet.mem_foldl Instr (fun s i => i.addKeys s) _ k fun _ _ => Instr.mem_addKeys
  have hlocals := @KeySet.mem_foldl LocalDecl (fun s l => l.type.addKeys s) _ k fun l _ => l.type.mem_addKeys
  rw [keys, hcode, hlocals]
  simp

/-! ## Following references -/

theorem Slots.read_of_isWritten {H : Handles} {slots : Slots H} (h : slots.isWritten key) :
    ∃ v, slots.read key = .ok v := by
  unfold isWritten at h
  unfold read
  cases hslot : slots.get? key with
  | none => simp [hslot] at h
  | some slot =>
    obtain ⟨k, content⟩ := slot
    cases content with
    | none => simp [hslot, Slot.isWritten] at h
    | some v => exact ⟨v, rfl⟩

/-- A target that answers for every type, with classes as far as `P` goes. -/
structure Target.ResolvesTypes (T : Target) (P : String → Prop) : Prop where
  primitiveType : ∀ p, (T.primitiveType p).Succeeds
  namedType : ∀ name, P name → (T.namedType name).Succeeds
  cellType : ∀ content, (T.cellType content).Succeeds
  delegateType : ∀ params ret, (T.delegateType params ret).Succeeds

section

variable {T : Target} {P : String → Prop} {slots : Slots T.toHandles}

mutual
theorem TypeRef.resolve_succeeds (hT : T.ResolvesTypes P) : ∀ t : TypeRef, t.Names P →
    (∀ k ∈ t.mentions, slots.isWritten (.type k)) → (t.resolve T slots).Succeeds
  | .deferred key, _, hkeys => by
    obtain ⟨v, hv⟩ := Slots.read_of_isWritten (hkeys key (by simp [TypeRef.mentions]))
    exact .lift hv
  | .primitive p, _, _ => hT.primitiveType p
  | .named name, hname, _ => hT.namedType name hname
  | .cell content, hname, hkeys =>
    (resolve_succeeds hT content hname hkeys).bind hT.cellType
  | .delegate params ret, hname, hkeys => by
    simp only [TypeRef.mentions, List.mem_append] at hkeys
    exact (resolveAll_succeeds hT params hname.1 fun k hk => hkeys k (.inl hk)).bind fun params =>
      (resolve_succeeds hT ret hname.2 fun k hk => hkeys k (.inr hk)).bind fun ret => hT.delegateType params ret

theorem TypeRef.resolveAll_succeeds (hT : T.ResolvesTypes P) : ∀ ts : List TypeRef, TypeRef.NamesAll P ts →
    (∀ k ∈ TypeRef.mentionsAll ts, slots.isWritten (.type k)) → (TypeRef.resolveAll T slots ts).Succeeds
  | [], _, _ => .pure []
  | t :: ts, hname, hkeys => by
    simp only [TypeRef.mentionsAll, List.mem_append] at hkeys
    exact (resolve_succeeds hT t hname.1 fun k hk => hkeys k (.inl hk)).bind fun _ =>
      (resolveAll_succeeds hT ts hname.2 fun k hk => hkeys k (.inr hk)).bind fun _ => .pure _
end

end

end Stackwright
