import RubyWat.Machine.Entry
import RubyWat.Proofs.Behaviour

/-
  More fuel for an evaluation.

  Main statement: what an evaluation ends in stays the same when
  it gets more fuel (`eval_grows`).  So a node has a behaviour.
-/

-- Parts Of Instructions

namespace RubyWat

open Code

namespace Machine

variable {σ : Type} {eval eval' : NodeId → Exec σ (Option Value)}

/- A relation of steps that holds of what is made of related steps. -/
structure Congruent (R : {α : Type} → Exec σ α → Exec σ α → Prop) : Prop where
  pure {α : Type} (a : α) : R (Pure.pure a) (Pure.pure a)
  stop {α : Type} {what : Obstacle} (hWhat : what ≠ .foreignBranch) :
      R (Exec.stop what : Exec σ α) (Exec.stop what)
  bind {α β : Type} {x x' : Exec σ α} {f f' : α → Exec σ β} (hFirst : R x x')
      (hNext : ∀ a, R (f a) (f' a)) : R (x >>= f) (x' >>= f')

namespace Congruent

variable {R : {α : Type} → Exec σ α → Exec σ α → Prop} {ctx ctx' : Context}
variable (hR : Congruent R)
include hR

theorem sequenceFrom (eval' : NodeId → Exec σ (Option Value))
    (hEval : ∀ n ∈ ns, R (eval n) (eval' n)) :
    R (sequenceFrom eval last ns) (sequenceFrom eval' last ns) := by
  induction ns generalizing last with
  | nil => exact hR.pure last
  | cons n ns ih =>
    rw [List.forall_mem_cons] at hEval
    exact hR.bind hEval.1 fun v => ih hEval.2

theorem operandsOf (eval' : NodeId → Exec σ (Option Value))
    (hEval : ∀ n ∈ ns, R (eval n) (eval' n)) : R (operandsOf eval ns) (operandsOf eval' ns) := by
  induction ns with
  | nil => exact hR.pure []
  | cons n ns ih =>
    rw [List.forall_mem_cons] at hEval
    exact hR.bind hEval.1 fun v => hR.bind (ih hEval.2) fun vs => hR.pure _

section

variable (eval' : NodeId → Exec σ (Option Value))
variable (hChildren : ctx'.tree.children n = ctx.tree.children n)
variable (hEval : ∀ c ∈ ctx.tree.children n, R (eval c) (eval' c))
include hChildren hEval

theorem sequence : R (sequence ctx eval n) (sequence ctx' eval' n) := by
  rw [Machine.sequence, Machine.sequence, hChildren]
  exact hR.sequenceFrom eval' hEval

theorem operands : R (operands ctx eval n) (operands ctx' eval' n) := by
  rw [Machine.operands, Machine.operands, hChildren]
  exact hR.operandsOf eval' hEval

theorem operand : R (operand ctx eval n) (operand ctx' eval' n) := by
  refine hR.bind (hR.operands eval' hChildren hEval) fun vs => ?_
  split
  · exact hR.pure _
  · exact hR.stop (by simp)

theorem operandPair : R (operandPair ctx eval n) (operandPair ctx' eval' n) := by
  refine hR.bind (hR.operands eval' hChildren hEval) fun vs => ?_
  split
  · exact hR.pure _
  · exact hR.stop (by simp)

/- The arms of a conditional are left out on the way down. -/
theorem evalCond (hArms : ∀ arm ∈ (ctx.tree.children n).tail,
      ctx'.tree.children arm = ctx.tree.children arm
        ∧ ∀ c ∈ ctx.tree.children arm, R (eval c) (eval' c)) :
    R (evalCond ctx eval n) (evalCond ctx' eval' n) := by
  unfold Machine.evalCond
  rw [hChildren]
  split
  · exact hR.stop (by simp)
  rename_i test arms hIs
  rw [hIs] at hEval hArms
  refine hR.bind (hEval test (.head _)) fun v => ?_
  split
  · exact hR.stop (by simp)
  split
  · rename_i v arm hArm
    have hMem : arm ∈ arms := by
      split at hArm <;> exact List.mem_of_getElem? hArm
    exact hR.sequence eval' (hArms arm hMem).1 (hArms arm hMem).2
  · exact hR.pure _

end

end Congruent

-- More Fuel

/- Evaluations of which one has more fuel. -/
def EvalRefines (eval eval' : NodeId → Exec σ (Option Value)) : Prop :=
  ∀ n, Refines .outOfFuel (eval n) (eval' n)

theorem refines_congruent : Congruent (σ := σ) (Refines .outOfFuel) :=
  ⟨fun _ => .refl _, fun _ => .refl _, .bind⟩

theorem asBlock_refines (hBody : Refines .outOfFuel body body') :
    Refines .outOfFuel (asBlock n body) (asBlock n body') := by
  intro s
  unfold asBlock
  rcases hBody s with ⟨s', hStop⟩ | hSame
  · rw [hStop]
    exact .inl ⟨s', rfl⟩
  · rw [hSame]
    exact .inr rfl

/- What becomes of a loop whose body has ended. -/
def loopVerdict (n : NodeId) : EStateM.Result Exit (State σ) (Option Value) →
      State σ ⊕ EStateM.Result Exit (State σ) (Option Value)
  | .error (.branch target) s => if target = n then .inl s else .inr (.error (.branch target) s)
  | r => .inr r

theorem loopVerdict_passesStop (n : NodeId) :
    PassesStop (σ := State σ) .outOfFuel (loopVerdict n) := by
  intro r s
  unfold loopVerdict
  split
  · split <;> simp
  · exact ⟨Sum.inr.inj, congrArg Sum.inr⟩

theorem asLoop_eq (n : NodeId) (body : Exec σ (Option Value)) (fuel : Nat) :
    asLoop n body fuel = iterate .outOfFuel (loopVerdict n) body fuel := by
  induction fuel with
  | zero => rfl
  | succ fuel ih =>
    funext s
    rw [asLoop, iterate]
    dsimp only
    rw [ih]
    cases body s with
    | ok v s' => rfl
    | error e s' =>
      cases e with
      | branch target => by_cases hTarget : target = n <;> simp [loopVerdict, hTarget]
      | _ => rfl

theorem asLoop_refines (hBody : Refines .outOfFuel body body') :
    Refines .outOfFuel (asLoop n body fuel) (asLoop n body' (fuel + 1)) := by
  rw [asLoop_eq, asLoop_eq]
  exact iterate_refines (loopVerdict_passesStop n) hBody (Nat.le_succ fuel)

theorem callMethod_refines (hEval : EvalRefines eval eval') :
    Refines .outOfFuel (callMethod h eval depth m args) (callMethod h eval' depth m args) := by
  intro s
  unfold callMethod
  dsimp only
  split
  · exact .inr rfl
  split
  · exact .inr rfl
  split
  · exact .inr rfl
  split
  · exact .inr rfl
  rename_i body _ _ _ frame _
  rcases refines_congruent.sequence eval' rfl (fun c _ => hEval c) ⟨frame, s.store⟩ with
    ⟨s', hStop⟩ | hSame
  · rw [hStop]
    exact .inl ⟨_, rfl⟩
  · rw [hSame]
    exact .inr rfl

theorem evalNode_refines {call call' : MethodId → List Value → Exec σ (Option Value)}
    (hEval : EvalRefines eval eval')
    (hCall : ∀ m args, Refines .outOfFuel (call m args) (call' m args)) :
    Refines .outOfFuel (evalNode ctx eval call fuel n) (evalNode ctx eval' call' (fuel + 1) n) := by
  have hChildren : ∀ c ∈ ctx.tree.children n, Refines .outOfFuel (eval c) (eval' c) :=
    fun c _ => hEval c
  have hSequence := refines_congruent.sequence eval' rfl hChildren
  have hOperand := refines_congruent.operand eval' rfl hChildren
  have hPair := refines_congruent.operandPair eval' rfl hChildren
  unfold evalNode
  dsimp only
  cases ctx.tree.instr n with
  | call m => exact .bind (refines_congruent.operandsOf eval' hChildren) (hCall m)
  | cond =>
    exact refines_congruent.evalCond eval' rfl hChildren fun _ _ => ⟨rfl, fun c _ => hEval c⟩
  | block => exact asBlock_refines hSequence
  | loop => exact asLoop_refines hSequence
  | thenArm | elseArm | nop => exact hSequence
  | ret | drop => exact .bind hSequence fun _ => .refl _
  | localSet | localTee | globalSet | load | unary | extend | wrap
  | brIf => exact .bind hOperand fun _ => .refl _
  | store | binary | compare => exact .bind hPair fun _ => .refl _
  | root | classBody | function | const | layout | localGet
  | globalGet | br | inline | comment => exact .refl _

end Machine

-- Evaluations

namespace Machine

variable {σ : Type}

/- More fuel keeps what an evaluation ends in. -/
theorem eval_grows (h : Host σ) (depth : Nat) (n : NodeId) :
    Grows .outOfFuel fun fuel => eval h fuel depth n := by
  intro fuel
  induction fuel generalizing depth n with
  | zero => exact .throw _
  | succ fuel ih =>
    refine evalNode_refines (ih depth) (fun m args => ?_)
    exact callMethod_refines (ih (depth + 1))

/- What a node inside of a number of calls ends in. -/
def behaviour (h : Host σ) (depth : Nat) (n : NodeId) : Behaviour Exit (State σ) (Option Value) :=
  ends .outOfFuel fun fuel => eval h fuel depth n

/- What nodes after each other end in, with the last value. -/
def behaviourOf (h : Host σ) (depth : Nat) (ns : List NodeId) :
    Behaviour Exit (State σ) (Option Value) :=
  ends .outOfFuel fun fuel => sequenceFrom (eval h fuel depth) none ns

end Machine

end RubyWat
