import Mathlib
import RubyWat.Machine.Entry
import RubyWat.Proofs.Slots
import RubyWat.Proofs.Typing

/-
  Steps of an evaluation that obey types.

  Key definitions: `Machine.SlotsFit`, `Machine.SameTypes`, `Machine.Obeys`,
    `Machine.EvalObeys`.

  A step obeys when it ends in one of the expected ways and no variable has another type
  afterwards.  Steps that obey can be put after each other, and so the steps that instructions
  are made of can be looked at one by one.
-/

-- Fitting States

namespace RubyWat

open Code List

variable {n : NodeId} {ctx : Context} {ns : List NodeId}
variable {m : Method} {result : Option Wasm.MachineType}
variable {ty : Wasm.MachineType}

namespace Machine

variable {σ : Type}

/- Every declared name has a value of its type. -/
def SlotsFit (declared : List Slot) (slots : Slots) : Prop :=
  ∀ name ty, Listed declared name ty → slots.types.lookup name = some ty

/- Variables and globals that fit their declarations. -/
structure StateFits (ctx : Context) (m : Method) (s : State σ) : Prop where
  frame : SlotsFit m.slots s.frame
  globals : SlotsFit ctx.program.globalSlots s.store.globals

/- No variable and no global has changed its type. -/
structure SameTypes (s s' : State σ) : Prop where
  frame : s'.frame.types = s.frame.types
  globals : s'.store.globals.types = s.store.globals.types

namespace SameTypes

theorem refl (s : State σ) : SameTypes s s :=
  ⟨rfl, rfl⟩

theorem trans (h₁ : SameTypes s₁ s₂) (h₂ : SameTypes s₂ s₃) : SameTypes s₁ s₃ :=
  ⟨h₂.frame.trans h₁.frame, h₂.globals.trans h₁.globals⟩

end SameTypes

/- A state that fits does so as long as its types last. -/
theorem StateFits.of_sameTypes (hFits : StateFits ctx m s)
    (hSame : SameTypes s s') : StateFits ctx m s' := by
  constructor
  · intro name ty hDeclared
    rw [hSame.frame]
    exact hFits.frame name ty hDeclared
  · intro name ty hDeclared
    rw [hSame.globals]
    exact hFits.globals name ty hDeclared

/- A declared name of slots that fit has a value. -/
theorem SlotsFit.lookup (hFits : SlotsFit declared slots)
    (hDeclared : Listed declared name ty) : ∃ v, slots.lookup name = some v ∧ v.type = ty := by
  have hTypes := hFits name ty hDeclared
  rw [Slots.lookup_types] at hTypes
  simpa using hTypes

-- Obedience

variable {α β : Type}

/- A trap that types cannot rule out. -/
def Unavoidable (t : Trap) : Prop :=
  t.cause.code = .divisionByZero ∨ t.cause.code = .outOfBounds
    ∨ t.cause.code = .missingHost ∨ t.cause.code = .callDepth

/- Ways to leave a call early. -/
def Stops : Exit → Prop
  | .branch _ | .ret _ => False
  | .trap t => Unavoidable t
  | .outOfFuel => True

/- Ways to leave a node of a method early. -/
def ExitFits (m : Method) (targets : List NodeId) : Exit → Prop
  | .branch target => target ∈ targets
  | .ret v => v.map Value.type = m.result.held?
  | .trap t => Unavoidable t
  | .outOfFuel => True

/- The state that a step ends in, one way or the other. -/
def stateAfter : EStateM.Result Exit (State σ) α → State σ
  | .ok _ s => s
  | .error _ s => s

/- A step that ends as expected, and in a state that has the types of the state before. -/
def Obeys (E : Exit → Prop) (Q : α → Prop) (s : State σ) : EStateM.Result Exit (State σ) α → Prop
  | .ok a s' => Q a ∧ SameTypes s s'
  | .error e s' => E e ∧ SameTypes s s'

namespace Obeys

variable {E : Exit → Prop} {Q : α → Prop} {R : β → Prop}
variable {s : State σ}

theorem pure (hValue : Q a) : Obeys E Q s ((Pure.pure a : Exec σ α) s) :=
  ⟨hValue, .refl s⟩

theorem throw (hExit : E e) : Obeys E Q s ((MonadExcept.throw e : Exec σ α) s) :=
  ⟨hExit, .refl s⟩

theorem bind {f : α → Exec σ β} (hFirst : Obeys E Q s (x s))
    (hNext : ∀ a s', Q a → SameTypes s s' → Obeys E R s' (f a s')) : Obeys E R s ((x >>= f) s) := by
  change Obeys E R s (EStateM.bind x f s)
  unfold EStateM.bind
  cases hStep : x s with
  | ok a s' =>
    rw [hStep] at hFirst
    rcases hFirst with ⟨hValue, hSame⟩
    have hRest := hNext a s' hValue hSame
    simp only
    cases hLast : f a s' with
    | ok | error =>
      rw [hLast] at hRest
      exact ⟨hRest.1, hSame.trans hRest.2⟩
  | error e s' =>
    rwa [hStep] at hFirst

theorem map {x : Exec σ α} {f : α → β} (hStep : Obeys E Q s (x s)) (hValue : ∀ a, Q a → R (f a)) :
    Obeys E R s ((f <$> x) s) := by
  change Obeys E R s (EStateM.map f x s)
  unfold EStateM.map
  cases hResult : x s with
  | ok a s' =>
    rw [hResult] at hStep
    exact ⟨hValue a hStep.1, hStep.2⟩
  | error e s' =>
    rwa [hResult] at hStep

/- Expectations can be lowered. -/
theorem mono (hStep : Obeys E Q s r) (hExit : ∀ e, E e → E' e) (hValue : ∀ a, Q a → Q' a) :
    Obeys E' Q' s r := by
  cases r with
  | ok a s' => exact ⟨hValue a hStep.1, hStep.2⟩
  | error e s' => exact ⟨hExit e hStep.1, hStep.2⟩

end Obeys

-- Variables

theorem run_get_bind (next : State σ → Exec σ α) (s : State σ) :
    ((MonadState.get : Exec σ (State σ)) >>= next) s = next s s :=
  rfl

/- Reading a declared variable gives a value of its type. -/
theorem getLocal_obeys (hState : StateFits ctx m s) (hDeclared : Listed m.slots name ty) :
    Obeys E (fun v => v.type = ty) s (Exec.getLocal name s) := by
  rcases hState.frame.lookup hDeclared with ⟨v, hLookup, hType⟩
  simp only [Exec.getLocal, run_get_bind, hLookup]
  exact .pure hType

/- Assigning to a declared variable keeps all types. -/
theorem setLocal_obeys (hState : StateFits ctx m s) (hDeclared : Listed m.slots name ty) :
    Obeys E (fun _ => True) s (Exec.setLocal name v s) := by
  rcases hState.frame.lookup hDeclared with ⟨old, hLookup, _⟩
  rcases Slots.exists_assign? hLookup v with ⟨frame, hAssign⟩
  simp only [Exec.setLocal, run_get_bind, hAssign]
  exact ⟨trivial, Slots.types_assign? hAssign, rfl⟩

/- Reading a declared global gives a value of its type. -/
theorem getGlobal_obeys (hState : StateFits ctx m s)
    (hDeclared : Listed ctx.program.globalSlots name ty) :
    Obeys E (fun v => v.type = ty) s (Exec.getGlobal name s) := by
  rcases hState.globals.lookup hDeclared with ⟨v, hLookup, hType⟩
  simp only [Exec.getGlobal, run_get_bind, hLookup]
  exact .pure hType

/- Assigning to a declared global keeps all types. -/
theorem setGlobal_obeys (hState : StateFits ctx m s)
    (hDeclared : Listed ctx.program.globalSlots name ty) :
    Obeys E (fun _ => True) s (Exec.setGlobal name v s) := by
  rcases hState.globals.lookup hDeclared with ⟨old, hLookup, _⟩
  rcases Slots.exists_assign? hLookup v with ⟨globals, hAssign⟩
  simp only [Exec.setGlobal, run_get_bind, hAssign]
  exact ⟨trivial, rfl, Slots.types_assign? hAssign⟩

-- Values And Memory

/- An integer type has a value for every number. -/
theorem ofType_ok (hType : ty.isFloat = false) (raw : Int64) :
    ∃ v, Value.ofType ty raw = .ok v ∧ v.type = ty := by
  cases ty with
  | i32 | i64 => exact ⟨_, rfl, rfl⟩
  | f32 | f64 => cases hType

/- The type of a value is an integer type. -/
theorem type_isFloat (v : Value) : v.type.isFloat = false := by
  cases v <;> rfl

/- A binary operator keeps the type of its operands. -/
theorem binary_obeys (hTrap : ∀ t, Unavoidable t → E (.trap t)) (s : State σ) :
    Obeys E (fun v => v.type = a.type) s (Exec.settle (Value.binary op a b) s) := by
  unfold Value.binary
  cases op.apply a.type a.toInt64 b.toInt64 with
  | none => exact ⟨hTrap _ (.inl rfl), .refl s⟩
  | some raw =>
    rcases ofType_ok (type_isFloat a) raw with ⟨v, hValue, hType⟩
    simp only [hValue]
    exact ⟨hType, .refl s⟩

/- A unary operator has a value of its result type. -/
theorem unary_obeys (s : State σ) :
    Obeys E (fun v => v.type = op.resultType a.type) s (Exec.settle (Value.unary op a) s) := by
  cases a <;> cases op <;> exact ⟨rfl, .refl s⟩

/- A load has a value of its type, or reaches past memory. -/
theorem load_obeys (hTrap : ∀ t, Unavoidable t → E (.trap t)) (hType : ty.isFloat = false)
    (s : State σ) : Obeys E (fun v => v.type = ty) s (Exec.load ty address s) := by
  change Obeys E _ s (Exec.settle (s.store.memory.load ty address) s)
  cases ty with
  | i32 | i64 =>
    simp only [Memory.load, Memory.read]
    split
    · exact ⟨rfl, .refl s⟩
    · exact ⟨hTrap _ (.inr (.inl rfl)), .refl s⟩
  | f32 | f64 => cases hType

/- A store keeps all types, or reaches past memory. -/
theorem store_obeys (hTrap : ∀ t, Unavoidable t → E (.trap t)) (hType : ty.isFloat = false)
    (s : State σ) : Obeys E (fun _ => True) s (Exec.store ty address v s) := by
  simp only [Exec.store, run_get_bind, Memory.storeFault?, hType, Bool.false_eq_true, if_false]
  split
  · exact ⟨trivial, rfl, rfl⟩
  · exact ⟨hTrap _ (.inr (.inl rfl)), rfl, rfl⟩

-- Sequences And Operands

/-
  A way into nodes that gives every typed node what its type
  says, and nothing to a node that never ends.
-/
def EvalObeys (ctx : Context) (eval : NodeId → Exec σ (Option Value)) : Prop :=
  ∀ m targets n s, ctx.Typed m targets n → StateFits ctx m s → Obeys (ExitFits m targets)
      (fun v => v.map Value.type = (ctx.tree.ty n).held? ∧ (ctx.tree.instr n).isTerminator = false)
      s (eval n s)

section

variable {targets : List NodeId}
variable {eval : NodeId → Exec σ (Option Value)}

section

variable (hEval : EvalObeys ctx eval)
include hEval

/- A sequence leaves what its last node leaves. -/
theorem sequenceFrom_obeys (hTyped : ∀ n ∈ ns, ctx.Typed m targets n)
    (hLeaves : ctx.Leaves result ns)
    (hLast : ns = [] → last.map Value.type = result) (hState : StateFits ctx m s) :
    Obeys (ExitFits m targets) (fun v => v.map Value.type = result
        ∧ ns.getLast?.any (fun n => (ctx.tree.instr n).isTerminator) = false)
      s (sequenceFrom eval last ns s) := by
  induction ns generalizing last s with
  | nil => exact ⟨⟨hLast rfl, rfl⟩, .refl s⟩
  | cons n rest ih =>
    have hFirst := hEval m targets n s (hTyped n (.head _)) hState
    refine hFirst.bind ?_
    rintro v s' ⟨hValue, hEnds⟩ hSame
    have hRest : ∀ c ∈ rest, ctx.Typed m targets c :=
      fun c hMem => hTyped c (mem_cons_of_mem n hMem)
    cases rest with
    | nil => exact ⟨⟨hValue.trans hLeaves, by simpa using hEnds⟩, .refl s'⟩
    | cons next more =>
      simp only [getLast?_cons_cons]
      exact ih hRest hLeaves.2 (fun h => by cases h) (hState.of_sameTypes hSame)

/- The children of a node in order. -/
theorem sequence_obeys (hTyped : ∀ c ∈ ctx.tree.children n, ctx.Typed m targets c)
    (hLeaves : ctx.Leaves result (ctx.tree.children n)) (hState : StateFits ctx m s) :
    Obeys (ExitFits m targets) (fun v => v.map Value.type = result) s (sequence ctx eval n s) := by
  refine (sequenceFrom_obeys hEval hTyped hLeaves ?_ hState).mono
    (fun e hExit => hExit) (fun v hValue => hValue.1)
  intro hEmpty
  rw [hEmpty] at hLeaves
  exact hLeaves.symm

/- The children of an arm or of a body, which may not end. -/
theorem sequence_obeys_of_ends (hTyped : ∀ c ∈ ctx.tree.children n, ctx.Typed m targets c)
    (hEnds : ctx.Ends result (ctx.tree.children n)) (hState : StateFits ctx m s) :
    Obeys (ExitFits m targets) (fun v => v.map Value.type = result) s (sequence ctx eval n s) := by
  rcases hEnds with hLeaves | ⟨hLeaves, hTerminator⟩
  · exact sequence_obeys hEval hTyped hLeaves hState
  refine (sequenceFrom_obeys hEval hTyped hLeaves
    (fun _ => rfl) hState).mono (fun e hExit => hExit) ?_
  -- The last node is a branch or a return, so no value gets here.
  rintro v ⟨_, hNone⟩
  rw [hTerminator] at hNone
  cases hNone

/- Operands have the types that the children leave. -/
theorem operandsOf_obeys (hTyped : ∀ n ∈ ns, ctx.Typed m targets n) (hState : StateFits ctx m s) :
    Obeys (ExitFits m targets)
      (fun vs => vs.map Value.type = ns.filterMap fun n => (ctx.tree.ty n).held?)
      s (operandsOf eval ns s) := by
  induction ns generalizing s with
  | nil => exact ⟨rfl, .refl s⟩
  | cons n rest ih =>
    have hFirst := hEval m targets n s (hTyped n (.head _)) hState
    refine hFirst.bind ?_
    rintro v s' ⟨hValue, _⟩ hSame
    have hRest := ih (fun c hMem => hTyped c (mem_cons_of_mem n hMem)) (hState.of_sameTypes hSame)
    refine hRest.bind ?_
    intro vs s'' hValues _
    refine ⟨?_, .refl s''⟩
    cases v with
    | none | some =>
      simp only [Option.map_none, Option.map_some] at hValue
      simpa [← hValue] using hValues

theorem operand_obeys (hTyped : ∀ c ∈ ctx.tree.children n, ctx.Typed m targets c)
    (hOperands : ctx.operandTypes n = [ty]) (hState : StateFits ctx m s) :
    Obeys (ExitFits m targets) (fun v => v.type = ty) s (operand ctx eval n s) := by
  refine (operandsOf_obeys hEval hTyped hState).bind ?_
  intro vs s' hTypes _
  replace hTypes := hTypes.trans hOperands
  match vs, hTypes with
  | [a], hTypes => exact ⟨by simpa using hTypes, .refl s'⟩

theorem operandPair_obeys (hTyped : ∀ c ∈ ctx.tree.children n, ctx.Typed m targets c)
    (hOperands : ctx.operandTypes n = [first, second]) (hState : StateFits ctx m s) :
    Obeys (ExitFits m targets) (fun pair => pair.1.type = first ∧ pair.2.type = second)
      s (operandPair ctx eval n s) := by
  refine (operandsOf_obeys hEval hTyped hState).bind ?_
  intro vs s' hTypes _
  replace hTypes := hTypes.trans hOperands
  match vs, hTypes with
  | [a, b], hTypes => exact ⟨by simpa using hTypes, .refl s'⟩

end

end

end Machine

end RubyWat
