import Stackwright.Proofs.FreeVariables

/-
  Stackwright.Proofs.Parts — the code of an expression, part by part.

  Most constructs leave variables and delegates to their parts: the code is that of the parts that are compiled, in
  their order, with other instructions around it (`Lowers.parts`).
-/

namespace Stackwright

/-! ## Code between parts -/

/-- Instructions that neither touch a variable nor make a delegate. -/
def Instr.isGlue : Instr → Bool
  | .loadArg _ | .storeArg _ | .loadLocal _ | .storeLocal _ | .typeOp _ _ | .newDelegate _ _ => false
  | _ => true

def isGlueCode (code : List Instr) : Bool := code.all Instr.isGlue

@[simp] theorem isGlueCode_nil : isGlueCode [] = true := rfl

@[simp] theorem isGlueCode_cons (i : Instr) (code : List Instr) :
    isGlueCode (i :: code) = (i.isGlue && isGlueCode code) := rfl

@[simp] theorem isGlueCode_append (a b : List Instr) : isGlueCode (a ++ b) = (isGlueCode a && isGlueCode b) :=
    List.all_append

theorem isGlueCode_of_isOperationCode {code : List Instr} (h : isOperationCode code) : isGlueCode code := by
  refine List.all_eq_true.mpr fun i hi => ?_
  have hop := List.all_eq_true.mp h i hi
  cases i <;> first | rfl | cases hop

@[simp] theorem isGlueCode_retIf (tail : Bool) : isGlueCode (retIf tail) = true := by cases tail <;> rfl

@[simp] theorem isGlueCode_leaveTo (tail : Bool) (s : Supply) :
    isGlueCode (leaveTo tail s) = true := by cases tail <;> rfl

@[simp] theorem isGlueCode_endMark (tail : Bool) (s : Supply) :
    isGlueCode (endMark tail s) = true := by cases tail <;> rfl

theorem isGlueCode_dispatchCode (size : Nat) (wide : Bool) (table : List Symbol) (fallback : Symbol) (s : Supply) :
    isGlueCode (dispatchCode size wide table fallback s) = true := by
  unfold dispatchCode
  split
  · rfl
  · cases wide <;> rfl

/-- Blocks for some expressions, one after another, with other code around them. -/
inductive Joined (P : Expr → Block → Prop) : List Expr → Block → Prop
  | nil {code} : isGlueCode code → Joined P [] (.ofCode code)
  | part {e es b rest} : P e b → Joined P es rest → Joined P (e :: es) (b ++ rest)
  | glue {es code b} : isGlueCode code → Joined P es b → Joined P es (.ofCode code ++ b)

namespace Joined

variable {P : Expr → Block → Prop} {e : Expr} {es more : List Expr} {a b : Block} {code : List Instr}

theorem one (h : P e b) : Joined P [e] b := block_append_nil b ▸ .part h (.nil rfl)

theorem append (ha : Joined P es a) (hb : Joined P more b) : Joined P (es ++ more) (a ++ b) := by
  induction ha with
  | nil hcode => exact .glue hcode hb
  | part h _ ih => exact Block.append_assoc .. ▸ .part h ih
  | glue hcode _ ih => exact Block.append_assoc .. ▸ .glue hcode ih

theorem exists_of_mem (h : Joined P es a) (he : e ∈ es) : ∃ b, P e b ∧ b.code <:+: a.code := by
  induction h with
  | nil => cases he
  | part h _ ih =>
    rcases List.mem_cons.mp he with rfl | he
    · exact ⟨_, h, (List.prefix_append ..).isInfix⟩
    · obtain ⟨b, hb, hin⟩ := ih he
      exact ⟨b, hb, hin.trans (List.suffix_append ..).isInfix⟩
  | glue _ _ ih =>
    obtain ⟨b, hb, hin⟩ := ih he
    exact ⟨b, hb, hin.trans (List.suffix_append ..).isInfix⟩

theorem followed (ha : Joined P es a) (hcode : isGlueCode code = true) : Joined P es (a ++ .ofCode code) := by
  simpa using ha.append (.nil hcode)

end Joined

/-! ## Parts of constructs -/

/-- The expression itself neither uses a variable nor binds one. -/
def Expr.isTransparent : Expr → Bool
  | .var _ | .assign _ _ | .lambda _ _ _ | .letIn _ _ => false
  | _ => true

theorem Expr.compiled_subset_parts {e : Expr} (h : e.isTransparent) : e.compiled ⊆ e.parts := by
  have hparts := lowered_subset_parts (e := e)
  cases e <;> first | exact hparts | cases h

/-- A block that the expression is lowered to in a scope. -/
def IsLowered (options : BuildOptions) (scope : Scope) (e : Expr) (b : Block) : Prop :=
  ∃ tail s t, Lowers options (.expr e tail) scope s b t

/-- What the block of a piece of work is made of. -/
def Work.IsJoined (options : BuildOptions) (scope : Scope) (b : Block) : Work → Prop
  | .expr e _ => e.isTransparent → Joined (IsLowered options scope) e.compiled b
  | .all es | .seq es _ | .shortCircuit _ es _ | .operands _ _ es _ => Joined (IsLowered options scope) es b
  | .cases cs labels leave _ =>
    labels.length = cs.length → isGlueCode leave → Joined (IsLowered options scope) (Expr.liveCases cs) b
  | .bindings _ bs _ _ => ∀ c ∈ bs.map (·.2), ∃ value, IsLowered options scope c value ∧ value.code <:+: b.code

variable {options : BuildOptions} {w : Work} {scope : Scope} {s t : Supply} {b : Block}

theorem Lowers.parts (h : Lowers options w scope s b t) : w.IsJoined options scope b := by
  have hone {e : Expr} {tail : Bool} {scope : Scope} {s t : Supply} {b : Block}
      (h : Lowers options (.expr e tail) scope s b t) :
      Joined (IsLowered options scope) [e] b := .one ⟨tail, s, t, h⟩
  have hret {i : Instr} (tail : Bool) (hi : i.isGlue = true) : isGlueCode (i :: retIf tail) = true := by simp [hi]
  induction h with
  | @literal v => exact fun _ => .nil (by simp [isGlueCode_of_isOperationCode v.isOperationCode_code])
  | var | assign | letIn | lambda => rintro ⟨⟩
  | seq _ ih | and _ ih | or _ ih => exact fun _ => ih
  | ite hc ht hf =>
    exact fun _ => ((((hone hc).followed rfl).append (hone ht)).followed (by simp [Instr.isGlue]) |>.append
      (hone hf)).followed
      (by simp)
  | switch _ _ hn _ _ hv _ _ hdispatch hf _ _ _ ihcases =>
    subst hdispatch
    refine fun _ => (((((hone hv).followed ?_).append (hone hf)).followed (by simp)).append
      (ihcases ?_ (by simp))).followed (by simp)
    · simp [isGlueCode_dispatchCode, Instr.isGlue]
    · rw [Supply.length_labels, hn]
  | invoke _ h _ _ ihs | call h _ _ ihs => exact fun _ => ((hone h).append ihs).followed (hret _ rfl)
  | @binary op _ _ tail _ _ type _ _ _ _ _ hl hr =>
    exact fun _ => ((hone hl).append (hone hr)).followed
      (by simp [isGlueCode_of_isOperationCode (op.isOperationCode_code _)])
  | @unary op _ tail _ _ type _ _ _ h =>
    exact fun _ => (hone h).followed (by simp [isGlueCode_of_isOperationCode (op.isOperationCode_code _)])
  | getStatic => exact fun _ => .nil (hret _ rfl)
  | getField h | setStatic h => exact fun _ => (hone h).followed (hret _ rfl)
  | setField ht hv => exact fun _ => ((hone ht).append (hone hv)).followed (hret _ rfl)
  | new _ ih | callStatic _ ih => exact fun _ => Joined.followed ih (hret _ rfl)
  | allNil | operandsNil => exact .nil rfl
  | seqNil => exact .nil (by simp)
  | shortNil => exact .nil (hret _ rfl)
  | seqLast h | shortLast h | operandsLast h => exact hone h
  | allCons h _ _ ih => exact (hone h).append ih
  | seqCons _ h _ _ ih => exact ((hone h).followed (by split <;> rfl)).append ih
  | shortCons h _ _ ih => exact (((hone h).followed rfl).append ih).followed (by simp [Instr.isGlue])
  | operandsCons h _ _ ih => exact ((hone h).followed rfl).append ih
  | casesNil => exact fun _ _ => .nil rfl
  | casesUnlabelled => exact fun hlength => by cases hlength
  | casesDropped hempty _ ih =>
    intro hlength hleave
    simpa [Expr.liveCases, hempty] using ih (Nat.succ.inj hlength) hleave
  | @casesCons values e cs label labels leave tail scope s b s₁ rest s₂ hempty h _ _ ih =>
    intro hlength hleave
    have hlive : Expr.liveCases ((values, e) :: cs) = [e] ++ Expr.liveCases cs := by simp [Expr.liveCases, hempty]
    rw [hlive]
    exact ((Joined.glue rfl (hone h)).followed hleave).append (ih (Nat.succ.inj hlength) hleave)
  | bindingsNil => simp [Work.IsJoined]
  | @bindingsCons _ x _ _ _ _ _ s type v _ b _ boxed _ _ h _ _ ih =>
    refine List.forall_mem_cons.mpr ⟨⟨v, ⟨_, _, _, h⟩, ?_⟩, fun c hc => ?_⟩
    · exact ⟨[], (if boxed then [Instr.typeOp .newCell type] else []) ++ [.storeLocal (s.slot x)] ++ b.code, by simp⟩
    · obtain ⟨value, hvalue, hin⟩ := ih c hc
      exact ⟨value, hvalue, hin.trans (List.suffix_append ..).isInfix⟩

/-- The code of what is lowered with an expression in the same scope is part of its own. -/
theorem IsLowered.part {e c : Expr} (h : IsLowered options scope e b) (hc : c ∈ e.lowered) :
    ∃ part, IsLowered options scope c part ∧ part.code <:+: b.code := by
  obtain ⟨tail, s, t, h⟩ := h
  by_cases htransparent : e.isTransparent
  · exact (h.parts htransparent).exists_of_mem (Expr.lowered_subset_compiled hc)
  cases h with
  | var | lambda => cases hc
  | assign _ hvalue =>
    cases List.mem_singleton.mp hc
    exact ⟨_, ⟨_, _, _, hvalue⟩, by simp [Storage.store]⟩
  | letIn hbs hbody =>
    obtain ⟨value, hvalue, hin⟩ := hbs.parts c hc
    exact ⟨value, hvalue, hin.trans (List.prefix_append ..).isInfix⟩
  | _ => exact absurd rfl htransparent

/-- What is compiled with an expression is lowered somewhere. -/
theorem Lowers.child {e c : Expr} {tail : Bool} (h : Lowers options (.expr e tail) scope s b t) (hc : c ∈ e.compiled) :
    ∃ place b, IsLowered options place c b := by
  have hpart (hc : c ∈ e.lowered) : ∃ place b, IsLowered options place c b := by
    obtain ⟨part, hpart, -⟩ := IsLowered.part ⟨tail, s, t, h⟩ hc
    exact ⟨scope, part, hpart⟩
  cases h with
  | letIn hbs hbody =>
    rcases List.mem_append.mp hc with hc | hc
    · exact hpart hc
    · cases List.mem_singleton.mp hc
      exact ⟨_, _, _, _, _, hbody⟩
  | _ => exact hpart hc

end Stackwright
