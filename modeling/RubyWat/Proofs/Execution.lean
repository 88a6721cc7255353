import RubyWat.Proofs.Fuel
import RubyWat.Proofs.Fragment

/-
  What instructions end in.

  Key definitions: `Machine.demand`, `Machine.leaveBlock`, `Machine.afterRound`.

  The behaviour of a node follows from the behaviours of its children.  There is an equation for
  each instruction that code with integers in local variables is made of.
-/

-- Nodes And Operands

namespace RubyWat

open Code List EStateM

variable {n : NodeId} {ctx : Context}
variable {v : Machine.Value} {depth : Nat}

/- What the node of a fragment holds. -/
theorem Code.Held.shape (hHeld : Held t ⟨n, code, type, cs⟩) :
    t.instr n = code ∧ t.children n = cs.map (·.id) :=
  ⟨hHeld.instr, hHeld.children⟩

namespace Machine

variable {σ : Type} {h : Host σ}

/- The behaviour of a node is that of its instruction. -/
theorem behaviour_of (hNode : ∀ fuel, evalNode h.ctx (eval h fuel depth)
          (callMethod h (eval h fuel (depth + 1)) depth) fuel n = x fuel) :
    behaviour h depth n = ends .outOfFuel x := by
  rw [behaviour, ← ends_succ (eval_grows h depth n)]
  exact congrArg _ (funext hNode)

/- The value of an operand, which has to be there. -/
def demand (v : Option Value) : Exec σ Value :=
  match v with
  | some v => return v
  | none => Exec.stop .unaryOperand

/- The values of two operands, which have to be there. -/
def demandBoth (u v : Option Value) : Exec σ (Value × Value) :=
  match u, v with
  | some a, some b => return (a, b)
  | _, _ => Exec.stop .binaryOperands

theorem operand_eq {eval : NodeId → Exec σ (Option Value)}
    (hChildren : ctx.tree.children n = [c]) : operand ctx eval n = eval c >>= demand := by
  simp only [operand, operands, hChildren, operandsOf, bind_assoc, pure_bind]
  refine bind_congr fun v => ?_
  cases v <;> rfl

theorem operandPair_eq {eval : NodeId → Exec σ (Option Value)}
    (hChildren : ctx.tree.children n = [a, b]) :
    operandPair ctx eval n = eval a >>= fun u => eval b >>= fun v => demandBoth u v := by
  simp only [operandPair, operands, hChildren, operandsOf, bind_assoc, pure_bind]
  refine bind_congr fun u => ?_
  refine bind_congr fun v => ?_
  cases u <;> cases v <;> rfl

/- An operand, and what is done with it. -/
theorem ends_operand {α : Type} (hChildren : h.ctx.tree.children n = [c]) (k : Value → Exec σ α) :
    ends .outOfFuel (fun fuel => operand h.ctx (eval h fuel depth) n >>= k)
      = behaviour h depth c >>= fun v => once .outOfFuel (demand v >>= k) := by
  simp only [operand_eq hChildren, bind_assoc]
  exact ends_bind (eval_grows h depth c) fun _ => .const _

/- Two operands, and what is done with them. -/
theorem ends_operandPair {α : Type} (hChildren : h.ctx.tree.children n = [a, b])
    (k : Value × Value → Exec σ α) :
    ends .outOfFuel (fun fuel => operandPair h.ctx (eval h fuel depth) n >>= k)
      = behaviour h depth a >>= fun u => behaviour h depth b >>= fun v =>
        once .outOfFuel (demandBoth u v >>= k) := by
  simp only [operandPair_eq hChildren, bind_assoc]
  refine (ends_bind (eval_grows h depth a) fun _ => ?_).trans ?_
  · exact (eval_grows h depth b).bind fun _ => .const _
  · refine bind_congr fun u => ?_
    exact ends_bind (eval_grows h depth b) fun _ => .const _

-- Sequences

theorem sequenceFrom_grows (last : Option Value) (ns : List NodeId) :
    Grows .outOfFuel fun fuel => sequenceFrom (eval h fuel depth) last ns :=
  fun fuel => refines_congruent.sequenceFrom _ fun n _ => eval_grows h depth n fuel

theorem behaviourOf_nil : behaviourOf h depth [] = pure none :=
  ends_pure none

theorem behaviourOf_single (n : NodeId) : behaviourOf h depth [n] = behaviour h depth n := by
  simp only [behaviourOf, sequenceFrom, bind_pure]
  rfl

theorem behaviourOf_cons (n n' : NodeId) (ns : List NodeId) : behaviourOf h depth (n :: n' :: ns)
      = behaviour h depth n >>= fun _ => behaviourOf h depth (n' :: ns) := by
  refine (ends_bind (eval_grows h depth n) fun v => ?_).trans rfl
  exact sequenceFrom_grows v (n' :: ns)

-- Instructions

variable {ty : ValueType}

/- What an instruction does with its only operand. -/
def onOperand? : Instr → Option (Value → Exec σ (Option Value))
  | .localSet x => some fun v => do
      Exec.setLocal x v
      return none
  | .localTee x => some fun v => do
      Exec.setLocal x v
      some <$> Exec.getLocal x
  | .unary op => some fun v => some <$> Exec.settle (Value.unary op v)
  | .extend signed => some fun v => return some (v.extend signed)
  | .wrap => some fun v => return some (Value.narrow v.toInt64)
  | .brIf target => some fun v => do
      if v.isTrue then throw (.branch target)
      return none
  | _ => none

/- What an instruction does with its two operands. -/
def onOperands? : Instr → Option (Value × Value → Exec σ (Option Value))
  | .binary op => some fun (u, v) => some <$> Exec.settle (Value.binary op u v)
  | .compare op _ => some fun (u, v) => return some (Value.compare op u v)
  | _ => none

theorem behaviour_operand (hHeld : Held h.ctx.tree ⟨n, instr, ty, [c]⟩)
    (hDoes : onOperand? instr = some k) :
    behaviour h depth n = behaviour h depth c.id >>= fun v => once .outOfFuel (demand v >>= k) := by
  refine (behaviour_of fun fuel => ?_).trans (ends_operand hHeld.children k)
  rw [evalNode, hHeld.shape.1]
  cases instr <;> cases hDoes <;> rfl

theorem behaviour_operands (hHeld : Held h.ctx.tree ⟨n, instr, ty, [a, b]⟩)
    (hDoes : onOperands? instr = some k) :
    behaviour h depth n = behaviour h depth a.id >>= fun u => behaviour h depth b.id >>= fun v =>
        once .outOfFuel (demandBoth u v >>= k) := by
  refine (behaviour_of fun fuel => ?_).trans (ends_operandPair hHeld.children k)
  rw [evalNode, hHeld.shape.1]
  cases instr <;> cases hDoes <;> rfl

theorem behaviour_const (hHeld : Held h.ctx.tree ⟨n, .const value, ty, cs⟩)
    (hValue : Value.ofType ty.held value = .ok v) : behaviour h depth n = pure (some v) := by
  refine (behaviour_of fun fuel => ?_).trans (ends_pure _)
  have hInstr := hHeld.instr
  have hTy := hHeld.ty
  dsimp only at hInstr hTy
  rw [evalNode, hInstr, hTy]
  dsimp only
  rw [hValue]
  rfl

theorem behaviour_localGet (hHeld : Held h.ctx.tree ⟨n, .localGet x, ty, cs⟩) :
    behaviour h depth n = once .outOfFuel (some <$> Exec.getLocal x) := by
  refine behaviour_of fun fuel => ?_
  rw [evalNode, hHeld.shape.1]

theorem behaviour_br (hHeld : Held h.ctx.tree ⟨n, .br target, ty, cs⟩) :
    behaviour h depth n = .fail (.branch target) := by
  refine (behaviour_of fun fuel => ?_).trans (ends_throw (by simp))
  rw [evalNode, hHeld.shape.1]

theorem behaviour_ret (hHeld : Held h.ctx.tree ⟨n, .ret, ty, cs⟩) :
    behaviour h depth n = behaviourOf h depth (cs.map (·.id)) >>= fun v => .fail (.ret v) := by
  rcases hHeld.shape with ⟨hInstr, hChildren⟩
  refine (behaviour_of (x := fun fuel => do
    let v ← sequenceFrom (eval h fuel depth) none (cs.map (·.id))
    throw (.ret v)) fun fuel => ?_).trans ?_
  · rw [evalNode, hInstr]
    dsimp only
    rw [sequence, hChildren]
  · refine (ends_bind (sequenceFrom_grows none _) fun v => .const (throw (.ret v))).trans ?_
    refine congrArg (behaviourOf h depth (cs.map (·.id)) >>= ·) ?_
    exact funext fun v => ends_throw (by simp)

theorem behaviour_drop (hHeld : Held h.ctx.tree ⟨n, .drop, ty, [c]⟩) :
    behaviour h depth n = (fun _ => none) <$> behaviour h depth c.id := by
  rcases hHeld.shape with ⟨hInstr, hChildren⟩
  refine (behaviour_of (x := fun fuel =>
    (fun _ => none) <$> eval h fuel depth c.id) fun fuel => ?_).trans
      (ends_map _ (eval_grows h depth c.id))
  rw [evalNode, hInstr]
  dsimp only
  simp only [sequence, hChildren, map_cons, map_nil, sequenceFrom, bind_pure, map_eq_pure_bind]

-- Control

variable {test : Fragment} {arms : List Fragment}

/- What a block makes of the way its body ended. -/
def leaveBlock (n : NodeId) :
    Result Exit (State σ) (Option Value) → Result Exit (State σ) (Option Value)
  | .error (.branch target) s => if target = n then .ok none s else .error (.branch target) s
  | r => r

theorem asBlock_eq (n : NodeId) (body : Exec σ (Option Value)) :
    asBlock n body = fun s => leaveBlock n (body s) := by
  funext s
  unfold asBlock
  cases body s with
  | ok v s' => rfl
  | error e s' => cases e <;> rfl

theorem behaviour_block (hHeld : Held h.ctx.tree ⟨n, .block, ty, cs⟩) :
    behaviour h depth n = (behaviourOf h depth (cs.map (·.id))).ending (leaveBlock n) := by
  rcases hHeld.shape with ⟨hInstr, hChildren⟩
  refine (behaviour_of fun fuel => ?_).trans (ends_ending ?_)
  · rw [evalNode, hInstr]
    dsimp only
    rw [asBlock_eq, sequence, hChildren]
  · intro r s
    unfold leaveBlock
    split
    · split <;> simp
    · rfl

theorem behaviour_loop (hHeld : Held h.ctx.tree ⟨n, .loop, ty, cs⟩) :
    behaviour h depth n = Behaviour.Iterates (loopVerdict n)
        (behaviourOf h depth (cs.map (·.id))) := by
  rcases hHeld.shape with ⟨hInstr, hChildren⟩
  refine (behaviour_of fun fuel => ?_).trans (ends_iterate (loopVerdict_passesStop n)
      (sequenceFrom_grows none (cs.map (·.id))))
  rw [evalNode, hInstr]
  dsimp only
  rw [asLoop_eq, sequence, hChildren]

/- What becomes of a loop inside of a block after a round. -/
def afterRound (loop block : NodeId) :
    Result Exit (State σ) Bool → State σ ⊕ Result Exit (State σ) (Option Value)
  | .ok true s => .inl s
  | .ok false s => .inr (.ok none s)
  | .error (.branch target) s =>
    if target = loop then .inl s
    else if target = block then .inr (.ok none s)
    else .inr (.error (.branch target) s)
  | .error e s => .inr (.error e s)

/- A round that tests a condition and then does something. -/
def testedRound (truth : Bool) (test : Behaviour Exit (State σ) Value)
    (body : Behaviour Exit (State σ) (Option Value)) : Behaviour Exit (State σ) Bool := do
  let v ← test
  if v.isTrue = truth then
    let _ ← body
    return true
  else return false

/- A round that does something and then tests a condition. -/
def postTestedRound (truth : Bool) (test : Behaviour Exit (State σ) Value)
    (body : Behaviour Exit (State σ) (Option Value)) : Behaviour Exit (State σ) Bool := do
  let _ ← body
  let v ← test
  return v.isTrue == truth

/-
  How the code in a loop ends after a round.  It goes on by a
  branch, and it stops by a branch to a block or at its end.
-/
def turned (loop : NodeId) (exit : Option NodeId) :
    Result Exit (State σ) Bool → Result Exit (State σ) (Option Value)
  | .ok true s => .error (.branch loop) s
  | .ok false s => exit.elim (.ok none s) fun block => .error (.branch block) s
  | .error e s => .error e s

def turn (loop : NodeId) (exit : Option NodeId) (go : Bool) :
    Behaviour Exit (State σ) (Option Value) :=
  fun s r => r = turned loop exit (.ok go s)

theorem bind_turn (round : Behaviour Exit (State σ) Bool) (loop : NodeId) (exit : Option NodeId) :
    round >>= turn loop exit = round.ending (turned loop exit) := by
  ext s r
  constructor
  · intro hEnd
    cases hEnd with
    | next hRound hTurn => exact ⟨_, hRound, hTurn.symm⟩
    | early hRound => exact ⟨_, hRound, rfl⟩
  · rintro ⟨_ | _, hRound, rfl⟩
    · exact .next hRound rfl
    · exact .early hRound

theorem loopVerdict_again (hAgain : loopVerdict n r = .inl s) : s = finalState r := by
  unfold loopVerdict at hAgain
  split at hAgain
  · split at hAgain <;> cases hAgain
    rfl
  · cases hAgain

/- The verdict on a round is that on the code it is turned into. -/
theorem afterRound_eq (hNe : block ≠ loop) (hExit : ∀ b ∈ exit, b = block)
    (r : Result Exit (State σ) Bool) :
    afterRound loop block r
      = (loopVerdict loop (turned loop exit r)).map id (leaveBlock block) := by
  cases r with
  | ok go s =>
    cases go with
    | true => simp [afterRound, turned, loopVerdict]
    | false =>
      rcases exit with _ | b
      · rfl
      · cases hExit b rfl
        simp [afterRound, turned, loopVerdict, leaveBlock, hNe]
  | error e s =>
    cases e with
    | branch target =>
      by_cases hLoop : target = loop
      · simp [afterRound, turned, loopVerdict, hLoop]
      · by_cases hBlock : target = block <;>
          simp [afterRound, turned, loopVerdict, leaveBlock, hLoop, hBlock, hNe]
    | ret | trap | outOfFuel => rfl

theorem block_ne_loop (hHeld : Held t ⟨block, .block, ty, [⟨loop, .loop, ty', cs⟩]⟩) :
    block ≠ loop := by
  rintro rfl
  cases hHeld.instr.symm.trans (hHeld.child (.head _)).instr

/- A loop inside of a block does rounds. -/
theorem behaviour_rounds {round : Behaviour Exit (State σ) Bool}
    (exit : Option NodeId) (hExit : ∀ b ∈ exit, b = block)
    (hHeld : Held h.ctx.tree ⟨block, .block, ty, [⟨loop, .loop, ty', cs⟩]⟩)
    (hKeeps : Preserves P (fun _ => True) round)
    (hBody : AgreeOn P (behaviourOf h depth (cs.map (·.id))) (round >>= turn loop exit)) :
    AgreeOn P (behaviour h depth block) (Behaviour.Iterates (afterRound loop block) round) := by
  have hLoop := hHeld.child (.head _)
  have hTurns : Preserves P (fun _ => True) (round >>= turn loop exit) := by
    refine hKeeps.bind fun go _ => ?_
    rintro s hState _ rfl
    cases go <;> cases exit <;> exact ⟨hState, fun _ _ _ => trivial⟩
  rw [bind_turn] at hBody hTurns
  rw [behaviour_block hHeld, map_singleton, behaviourOf_single, behaviour_loop hLoop,
    ← Behaviour.iterates_ending (afterRound_eq (block_ne_loop hHeld) hExit)]
  exact (hBody.iterates hTurns loopVerdict_again).ending _

/- The arm of a conditional that a value picks. -/
def picked (arms : List Fragment) (v : Value) : Option Fragment :=
  if v.isTrue then arms[0]? else arms[1]?

/- Evaluate the arm that a condition picks. -/
def evalArm (eval : NodeId → Exec σ (Option Value)) (arms : List Fragment) (v : Option Value) :
    Exec σ (Option Value) :=
  match v with
  | none => Exec.stop .missingOperand
  | some v =>
    match picked arms v with
    | some arm => sequenceFrom eval none (arm.children.map (·.id))
    | none => return none

/- What the arm ends in that a condition picks. -/
def behaviourOfArm (h : Host σ) (depth : Nat) (arms : List Fragment) (v : Option Value) :
    Behaviour Exit (State σ) (Option Value) :=
  ends .outOfFuel fun fuel => evalArm (eval h fuel depth) arms v

theorem behaviourOfArm_some (hPicked : picked arms v = some arm) :
    behaviourOfArm h depth arms (some v) = behaviourOf h depth (arm.children.map (·.id)) := by
  simp only [behaviourOfArm, evalArm, hPicked]
  rfl

theorem behaviourOfArm_none (hPicked : picked arms v = none) :
    behaviourOfArm h depth arms (some v) = pure none := by
  simp only [behaviourOfArm, evalArm, hPicked]
  exact ends_pure none

theorem evalArm_grows (v : Option Value) :
    Grows .outOfFuel fun fuel => evalArm (eval h fuel depth) arms v := by
  cases v with
  | none => exact .const _
  | some v =>
    simp only [evalArm]
    cases picked arms v with
    | none => exact .const _
    | some arm => exact sequenceFrom_grows none _

theorem evalCond_eq {eval : NodeId → Exec σ (Option Value)}
    (hHeld : Held h.ctx.tree ⟨n, .cond, ty, test :: arms⟩) :
    evalCond h.ctx eval n = eval test.id >>= evalArm eval arms := by
  have hChildren := hHeld.children
  have hArm : ∀ arm ∈ arms, h.ctx.tree.children arm.id = arm.children.map (·.id) :=
    fun arm hMem => (hHeld.child (.tail _ hMem)).children
  dsimp only [map_cons] at hChildren
  rw [evalCond, hChildren]
  refine bind_congr fun v => ?_
  cases v with
  | none => rfl
  | some v =>
    have hPick : (if v.isTrue then (arms.map (·.id))[0]?
          else (arms.map (·.id))[1]?) = (picked arms v).map (·.id) := by
      unfold picked
      split <;> exact getElem?_map
    dsimp only [evalArm]
    rw [hPick]
    cases hArmPicked : picked arms v with
    | none => rfl
    | some arm =>
      have hMem : arm ∈ arms := by
        unfold picked at hArmPicked
        split at hArmPicked <;> exact mem_of_getElem? hArmPicked
      dsimp only [Option.map_some]
      rw [sequence, hArm arm hMem]

theorem behaviour_cond (hHeld : Held h.ctx.tree ⟨n, .cond, ty, test :: arms⟩) :
    behaviour h depth n = behaviour h depth test.id >>= behaviourOfArm h depth arms := by
  refine (behaviour_of fun fuel => ?_).trans (ends_bind (eval_grows h depth test.id) evalArm_grows)
  rw [evalNode, hHeld.shape.1]
  exact evalCond_eq hHeld

end Machine

end RubyWat
