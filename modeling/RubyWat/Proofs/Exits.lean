import RubyWat.Machine.Entry
import RubyWat.Proofs.ControlFlow
import RubyWat.Proofs.Fuel

/-
  How an evaluation is left.

  Key definitions: `Machine.ExitsBy`, `Machine.StaysIn`, `Machine.Steered`.

  Code that steers inside of a loop is left by branches to that loop and to its block only, and
  code outside of all loops is left by no branch at all.

  Main statement: no call of a method whose code steers, and that calls only such methods, is
  told of a branch out of a function (`callWithFuel_regular`).
-/

-- Regular Traps

namespace RubyWat

open Code

variable {f : Fragment} {n : NodeId} {fs : List Fragment}
variable {as : List Control} {t : Machine.Trap} {m : MethodId}

namespace Machine

/- A trap that tells of no branch out of a function. -/
def Trap.IsRegular (t : Trap) : Prop :=
  t.cause ≠ .notEvaluable .foreignBranch

/- A computation that fails with regular traps only. -/
def Regular {α : Type} (result : Except Trap α) : Prop :=
  ∀ t, result = .error t → t.IsRegular

namespace Regular

variable {α β : Type}

theorem ok (a : α) : Regular (.ok a) := by
  rintro t ⟨⟩

theorem error (hTrap : t.IsRegular) : Regular (.error t : Except Trap α) := by
  rintro t ⟨⟩
  exact hTrap

theorem bind {f : α → Except Trap β} (hFirst : Regular x)
    (hNext : ∀ a, Regular (f a)) : Regular (x >>= f) := by
  cases x with
  | error t => exact .error (hFirst t rfl)
  | ok a => exact hNext a

theorem map {f : α → β} (hFirst : Regular x) : Regular (x.map f) := by
  cases x with
  | error t => exact .error (hFirst t rfl)
  | ok a => exact .ok _

end Regular

/- A number of a type that is not evaluated is a regular trap. -/
theorem ofType_regular : Regular (Value.ofType ty raw) := by
  cases ty with
  | i32 | i64 => exact .ok _
  | f32 | f64 => exact .error (by simp [Trap.IsRegular])

/- An operator traps only on a division, or because floats are not evaluated. -/
theorem binary_regular : Regular (Value.binary op a b) := by
  unfold Value.binary
  split
  · exact ofType_regular
  · exact .error (by simp [Trap.IsRegular])

theorem unary_regular : Regular (Value.unary op a) := by
  unfold Value.unary
  split
  · exact ofType_regular
  · exact .error (by simp [Trap.IsRegular])

theorem outOfBounds_regular {memory : Memory} : (memory.outOfBounds address length).IsRegular := by
  simp [Trap.IsRegular, Memory.outOfBounds]

theorem load_regular {memory : Memory} : Regular (memory.load ty address) := by
  have hRead : ∀ length, Regular (memory.read address length) := by
    intro length
    unfold Memory.read
    split
    · exact .ok _
    · exact .error outOfBounds_regular
  cases ty with
  | i32 | i64 => exact .map (hRead _)
  | f32 | f64 => exact .error (by simp [Trap.IsRegular])

theorem storeFault?_regular {memory : Memory}
    (hFault : memory.storeFault? ty address = some t) : t.IsRegular := by
  unfold Memory.storeFault? at hFault
  split at hFault
  · cases hFault
    simp [Trap.IsRegular]
  split at hFault
  · cases hFault
  · cases hFault
    exact outOfBounds_regular

/- A frame is set up without a branch. -/
theorem bindParams_regular : Regular (bindParams frame params args) := by
  induction params generalizing frame args with
  | nil => exact .ok _
  | cons p ps ih =>
    cases args with
    | nil => exact .ok _
    | cons v vs =>
      unfold bindParams
      dsimp only
      split
      · exact .bind ofType_regular fun v => ih
      · exact .bind (.ok _) fun v => ih

theorem bindLocals_regular : Regular (bindLocals frame locals) := by
  induction locals generalizing frame with
  | nil => exact .ok _
  | cons slot slots ih =>
    unfold bindLocals
    split
    · exact .bind ofType_regular fun zero => ih
    · exact ih

theorem initialFrame_regular : Regular (initialFrame method args) :=
  .bind bindParams_regular fun _ => bindLocals_regular

theorem resultOf_regular : Regular (resultOf method name v) := by
  unfold resultOf
  split
  · exact .ok _
  · exact .map ofType_regular
  · exact .error (by simp [Trap.IsRegular])

-- Exits

variable {σ α β : Type}

/- A step that ends early in some ways only. -/
def ExitsBy (E : Exit → Prop) (step : Exec σ α) : Prop :=
  ∀ s e s', step s = .error e s' → E e

/- Ways to leave code inside of a loop and the block around it, or inside of none. -/
def StaysIn (L : Option (NodeId × NodeId)) : Exit → Prop
  | .branch target => ∃ loop block, L = some (loop, block) ∧ (target = loop ∨ target = block)
  | .trap t => t.IsRegular
  | .ret _ | .outOfFuel => True

namespace ExitsBy

variable {E : Exit → Prop}

/- What exits only in certain ways goes together as steps do. -/
theorem pure (a : α) : ExitsBy E (Pure.pure a : Exec σ α) := by
  rintro s e s' ⟨⟩

theorem throw (hExit : E e) : ExitsBy E (MonadExcept.throw e : Exec σ α) := by
  rintro s e s' ⟨⟩
  exact hExit

theorem get : ExitsBy E (MonadState.get : Exec σ (State σ)) := by
  rintro s e s' ⟨⟩

theorem set (s : State σ) : ExitsBy E (MonadStateOf.set s : Exec σ PUnit) := by
  rintro s e s' ⟨⟩

theorem modify (f : State σ → State σ) : ExitsBy E (modify f : Exec σ PUnit) := by
  rintro s e s' ⟨⟩

/- A sequence of steps exits as one of them does. -/
theorem bind (hFirst : ExitsBy E step)
    (hNext : ∀ a, ExitsBy E (next a)) : ExitsBy E (step >>= next) := by
  intro s e s' hRun
  change EStateM.bind step next s = .error e s' at hRun
  unfold EStateM.bind at hRun
  split at hRun
  · exact hNext _ _ e s' hRun
  · rename_i hStep
    cases hRun
    exact hFirst s e s' hStep

theorem map {f : α → β} (hStep : ExitsBy E step) : ExitsBy E (f <$> step) := by
  intro s e s' hRun
  change EStateM.map f step s = .error e s' at hRun
  unfold EStateM.map at hRun
  split at hRun
  · cases hRun
  · rename_i hFirst
    cases hRun
    exact hStep s e s' hFirst

theorem mono (hStep : ExitsBy E step) (hExits : ∀ e, E e → E' e) : ExitsBy E' step :=
  fun s e s' hRun => hExits e (hStep s e s' hRun)

end ExitsBy

-- Steps

variable {E : Exit → Prop} {L : Option (NodeId × NodeId)}

/- A step that stops for an obstacle stays where it is, unless the obstacle is a branch. -/
theorem stop_exits (hWhat : what ≠ .foreignBranch) :
    ExitsBy (StaysIn L) (Exec.stop what : Exec σ α) :=
  .throw (by simpa [StaysIn, Trap.IsRegular] using hWhat)

/- A regular result becomes a step that does not branch. -/
theorem settle_exits (hRegular : Regular result) :
    ExitsBy (StaysIn L) (Exec.settle result : Exec σ α) := by
  cases result with
  | ok a => exact .pure a
  | error t => exact .throw (hRegular t rfl)

/- Reads and writes of variables and of memory do not branch. -/
theorem getLocal_exits : ExitsBy (StaysIn L) (Exec.getLocal name : Exec σ Value) := by
  refine .bind .get fun s => ?_
  split
  · exact .pure _
  · exact stop_exits (by simp)

theorem setLocal_exits : ExitsBy (StaysIn L) (Exec.setLocal name v : Exec σ Unit) := by
  refine .bind .get fun s => ?_
  split
  · exact .modify _
  · exact stop_exits (by simp)

theorem getGlobal_exits : ExitsBy (StaysIn L) (Exec.getGlobal name : Exec σ Value) := by
  refine .bind .get fun s => ?_
  split
  · exact .pure _
  · exact stop_exits (by simp)

theorem setGlobal_exits : ExitsBy (StaysIn L) (Exec.setGlobal name v : Exec σ Unit) := by
  refine .bind .get fun s => ?_
  split
  · exact .modify _
  · exact stop_exits (by simp)

theorem load_exits : ExitsBy (StaysIn L) (Exec.load ty address : Exec σ Value) :=
  .bind .get fun _ => settle_exits load_regular

theorem store_exits : ExitsBy (StaysIn L) (Exec.store ty address v : Exec σ Unit) := by
  refine .bind .get fun s => ?_
  split
  · rename_i hFault
    exact .throw (storeFault?_regular hFault)
  · exact .modify _

/- A function of the host fails or gives a value.  Neither is a branch. -/
theorem callHost_exits {h : Host σ} : ExitsBy (StaysIn L) (callHost h method name args) := by
  unfold callHost
  split
  · exact .throw (by simp [StaysIn, Trap.IsRegular])
  split
  · exact .throw (by simp [StaysIn, Trap.IsRegular])
  refine .bind .get fun s => .bind (.set _) fun _ => ?_
  split
  · exact .pure _
  · exact .throw (by simp [StaysIn, Trap.IsRegular])

/- Exits are a property of the parts of a step, so that evaluation as a whole has it if they do. -/
theorem exits_congruent (hTraps : ∀ t : Trap, t.IsRegular → E (.trap t)) :
    Congruent (σ := σ) fun x _ => ExitsBy E x :=
  ⟨.pure, fun hWhat => .throw (hTraps _ (by simpa [Trap.IsRegular] using hWhat)), .bind⟩

theorem staysIn_congruent (L : Option (NodeId × NodeId)) :
    Congruent (σ := σ) fun x _ => ExitsBy (StaysIn L) x :=
  exits_congruent fun _ hTrap => hTrap

/- A block is left by no branch to it. -/
theorem asBlock_exits (hBody : ExitsBy E body) :
    ExitsBy (fun e => E e ∧ e ≠ .branch n) (asBlock n body) := by
  intro s e s' hRun
  unfold asBlock at hRun
  split at hRun
  · rename_i target s₁ hBranch
    split at hRun
    · cases hRun
    · rename_i hNe
      cases hRun
      exact ⟨hBody s _ _ hBranch, by simpa using hNe⟩
  · rename_i hOther
    refine ⟨hBody s e s' hRun, ?_⟩
    rintro rfl
    exact hOther n s' hRun

/- A loop is left by no branch to it. -/
theorem asLoop_exits (hFuel : E .outOfFuel) (hBody : ExitsBy E body) :
    ExitsBy (fun e => E e ∧ e ≠ .branch n) (asLoop n body fuel) := by
  induction fuel with
  | zero => exact .throw ⟨hFuel, by simp⟩
  | succ fuel ih =>
    intro s e s' hRun
    rw [asLoop] at hRun
    dsimp only at hRun
    split at hRun
    · rename_i target s₁ hBranch
      split at hRun
      · exact ih s₁ e s' hRun
      · rename_i hNe
        cases hRun
        exact ⟨hBody s _ _ hBranch, by simpa using hNe⟩
    · rename_i hOther
      refine ⟨hBody s e s' hRun, ?_⟩
      rintro rfl
      exact hOther n s' hRun

-- Code That Steers

variable {ctx : Context}
variable {eval : NodeId → Exec σ (Option Value)}
variable {call : MethodId → List Value → Exec σ (Option Value)}

/- Every part of code that steers does so. -/
theorem steers_of_mem (hSteers : Steers L fs cs) (hMem : f ∈ fs) : ∃ as, Steers L [f] as := by
  induction fs generalizing cs with
  | nil => cases hMem
  | cons g gs ih =>
    rcases hSteers.cons_inv with ⟨as, bs, _, hFirst, hRest⟩
    rcases List.mem_cons.mp hMem with rfl | hMem
    · exact ⟨as, hFirst⟩
    · exact ih hRest hMem

/- The way into nodes is left as the code there steers. -/
def EvalStays (ctx : Context) (eval : NodeId → Exec σ (Option Value)) : Prop :=
  ∀ L f as, Held ctx.tree f → Steers L [f] as → ExitsBy (StaysIn L) (eval f.id)

/- The children of a node that is steered are evaluated without leaving its loop. -/
theorem EvalStays.children (hEval : EvalStays ctx eval)
    (hChildren : ctx.tree.children n = fs.map Fragment.id) (hHeld : ∀ f ∈ fs, Held ctx.tree f)
    (hSteers : Steers L fs as) : ∀ c ∈ ctx.tree.children n, ExitsBy (StaysIn L) (eval c) := by
  intro c hChild
  rw [hChildren] at hChild
  rcases List.mem_map.mp hChild with ⟨f, hMem, rfl⟩
  rcases steers_of_mem hSteers hMem with ⟨bs, hF⟩
  exact hEval L f bs (hHeld f hMem) hF

/- Code without a branch of its own is left as its parts are. -/
theorem evalNode_straight (hEval : EvalStays ctx eval)
    (hCall : ∀ m args, ExitsBy (StaysIn L) (call m args)) (hHeld : Held ctx.tree f)
    (hStraight : f.Straight as) (hInside : Steers L f.children as) (fuel : Nat) :
    ExitsBy (StaysIn L) (evalNode ctx eval call fuel f.id) := by
  have hAll := hEval.children hHeld.children (fun _ => hHeld.child) hInside
  have hSequence := (staysIn_congruent L).sequence eval rfl hAll
  have hOperand := (staysIn_congruent L).operand eval rfl hAll
  have hPair := (staysIn_congruent L).operandPair eval rfl hAll
  have hIs := hStraight.isStraight
  unfold evalNode
  dsimp only
  rw [hHeld.instr]
  cases hInstr : f.instr with
  | root | classBody | function | inline => exact stop_exits (by simp)
  | thenArm | elseArm | nop => exact hSequence
  | call m => exact .bind ((staysIn_congruent L).operandsOf eval hAll) fun args => hCall m args
  | ret => exact .bind hSequence fun v => .throw trivial
  | const value => exact .map (settle_exits ofType_regular)
  | layout | comment => exact .pure _
  | localGet name => exact .map getLocal_exits
  | localSet name => exact .bind hOperand fun v => .bind setLocal_exits fun _ => .pure _
  | localTee name =>
    exact .bind hOperand fun v =>
      .bind setLocal_exits fun _ => .map getLocal_exits
  | globalGet name => exact .map getGlobal_exits
  | globalSet name => exact .bind hOperand fun v => .bind setGlobal_exits fun _ => .pure _
  | load offset => exact .bind hOperand fun base => .map load_exits
  | store stored offset => exact .bind hPair fun pair => .bind store_exits fun _ => .pure _
  | binary op => exact .bind hPair fun pair => .map (settle_exits binary_regular)
  | unary op => exact .bind hOperand fun a => .map (settle_exits unary_regular)
  | compare => exact .bind hPair fun pair => .pure _
  | extend | wrap => exact .bind hOperand fun a => .pure _
  | drop => exact .bind hSequence fun v => .pure _
  | block => exact (asBlock_exits hSequence).mono fun e hE => hE.1
  | cond =>
    refine (staysIn_congruent L).evalCond eval rfl hAll fun arm hArm => ⟨rfl, ?_⟩
    rw [hHeld.children, ← List.map_tail] at hArm
    rcases List.mem_map.mp hArm with ⟨g, hMem, rfl⟩
    have hG := List.mem_of_mem_tail hMem
    rcases steers_of_mem hInside hG with ⟨bs, hSteers⟩
    have hHeldG := hHeld.child hG
    exact hEval.children hHeldG.children (fun _ => hHeldG.child)
      (hSteers.inside (hStraight.arms hInstr g hMem)).2
  | br | brIf | loop =>
    rw [hInstr] at hIs
    cases hIs

/- A branch is left towards its target, or by its condition. -/
theorem evalNode_branch (hEval : EvalStays ctx eval) (hHeld : Held ctx.tree f)
    (hInstr : f.instr = .br target ∨ f.instr = .brIf target) (hTarget : StaysIn L (.branch target))
    (hInside : Steers L f.children as) (fuel : Nat) :
    ExitsBy (StaysIn L) (evalNode ctx eval call fuel f.id) := by
  have hAll := hEval.children hHeld.children (fun _ => hHeld.child) hInside
  unfold evalNode
  dsimp only
  rw [hHeld.instr]
  rcases hInstr with hInstr | hInstr
  · rw [hInstr]
    exact .throw hTarget
  rw [hInstr]
  refine .bind ((staysIn_congruent L).operand eval rfl hAll) fun v => ?_
  split
  · exact .bind (.throw hTarget) fun _ => .pure _
  · exact .pure _

/- A method that is called tells of no branch out of it. -/
theorem callMethod_exits (hBody : ∀ m n, (h.ctx.program.method m).body = some n →
        ExitsBy (StaysIn none) (sequence h.ctx eval n)) :
    ExitsBy (StaysIn L) (callMethod h eval depth m args) := by
  intro s e s' hRun
  unfold callMethod at hRun
  dsimp only at hRun
  split at hRun
  · exact callHost_exits s e s' hRun
  split at hRun
  · cases hRun
    simp [StaysIn, Trap.IsRegular]
  rename_i n hIs
  split at hRun
  · cases hRun
    simp [StaysIn, Trap.IsRegular]
  split at hRun
  · rename_i t hFrame
    cases hRun
    exact initialFrame_regular t hFrame
  rename_i frame _
  unfold leave at hRun
  split at hRun
  · split at hRun
    · cases hRun
    · rename_i t hTrap
      cases hRun
      exact resultOf_regular t hTrap
  · split at hRun
    · cases hRun
    · rename_i t hTrap
      cases hRun
      exact resultOf_regular t hTrap
  · rename_i t s₁ hTrap
    cases hRun
    exact hBody m n hIs _ _ _ hTrap
  · rename_i target s₁ hBranch
    rcases hBody m n hIs _ _ _ hBranch with ⟨loop, block, hNone, _⟩
    cases hNone
  · cases hRun
    trivial

/- A program all of whose methods steer. -/
def Steered (ctx : Context) : Prop :=
  ∀ m n, (ctx.program.method m).body = some n →
    ∃ f cs, f.id = n ∧ Held ctx.tree f ∧ Steers none f.children cs

/- The code of a method is in no loop. -/
theorem Steered.body (hSteered : Steered ctx) (hEval : EvalStays ctx eval)
    (hBody : (ctx.program.method m).body = some n) :
    ExitsBy (StaysIn none) (sequence ctx eval n) := by
  rcases hSteered m n hBody with ⟨f, cs, rfl, hHeld, hSteers⟩
  exact (staysIn_congruent none).sequence eval rfl
    (hEval.children hHeld.children (fun _ => hHeld.child) hSteers)

/- A loop on its own is left by branches to the block around it, since it takes those to itself. -/
def LoopStays (ctx : Context) (eval : NodeId → Exec σ (Option Value)) : Prop :=
  ∀ loop block body as, Held ctx.tree ⟨loop, .loop, .none, body⟩ →
      Steers (some (loop, block)) body as → ExitsBy
          (fun e => StaysIn (some (loop, block)) e ∧ e ≠ .branch loop)
          (eval loop)

/- The evaluation of a node stays in its loop. -/
theorem evalNode_stays (hEval : EvalStays ctx eval) (hLoop : LoopStays ctx eval)
    (hCall : ∀ m args, ExitsBy (StaysIn L) (call m args)) (hHeld : Held ctx.tree f)
    (hSteers : Steers L [f] as) (fuel : Nat) :
    ExitsBy (StaysIn L) (evalNode ctx eval call fuel f.id) := by
  generalize hList : [f] = fs at hSteers
  cases hSteers with
  | nil => cases hList
  | straight hStraight hInside =>
    cases hList
    exact evalNode_straight hEval hCall hHeld hStraight hInside fuel
  | @exit block loop =>
    cases hList
    exact evalNode_branch hEval hHeld (.inl rfl) ⟨loop, block, rfl, .inr rfl⟩ .nil fuel
  | @again block loop =>
    cases hList
    exact evalNode_branch hEval hHeld (.inl rfl) ⟨loop, block, rfl, .inl rfl⟩ .nil fuel
  | @exitIf block loop _ _ _ _ _ hTest =>
    cases hList
    exact evalNode_branch hEval hHeld (.inr rfl) ⟨loop, block, rfl, .inr rfl⟩ hTest fuel
  | @againIf block loop _ _ _ _ _ hTest =>
    cases hList
    exact evalNode_branch hEval hHeld (.inr rfl) ⟨loop, block, rfl, .inl rfl⟩ hTest fuel
  | @loop _ block loop body _ _ _ hBody =>
    cases hList
    have hInner := hLoop loop block body _ (hHeld.child (.head _)) hBody
    have hSequence : ExitsBy (fun e => StaysIn (some (loop, block)) e ∧ e ≠ .branch loop)
          (sequence ctx eval block) := by
      refine (exits_congruent fun t hTrap => ⟨hTrap, by simp⟩).sequence eval rfl ?_
      rw [hHeld.children, List.map_singleton, List.forall_mem_singleton]
      exact hInner
    unfold evalNode
    dsimp only
    rw [hHeld.instr]
    refine (asBlock_exits hSequence).mono ?_
    rintro e ⟨⟨hStays, hNotLoop⟩, hNotBlock⟩
    cases e with
    | branch target =>
      rcases hStays with ⟨_, _, hSome, hTarget⟩
      cases hSome
      rcases hTarget with rfl | rfl
      · exact absurd rfl hNotLoop
      · exact absurd rfl hNotBlock
    | ret | outOfFuel => trivial
    | trap t => exact hStays

/- A loop catches the branches to itself and lets those to its block through. -/
theorem evalNode_loop (hEval : EvalStays ctx eval)
    (hHeld : Held ctx.tree ⟨loop, .loop, .none, body⟩) (hBody : Steers (some (loop, block)) body as)
    (fuel : Nat) :
    ExitsBy (fun e => StaysIn (some (loop, block)) e ∧ e ≠ .branch loop)
      (evalNode ctx eval call fuel loop) := by
  have hSequence : ExitsBy _ (sequence ctx eval loop) :=
    (staysIn_congruent _).sequence eval rfl
      (hEval.children hHeld.children (fun _ => hHeld.child) hBody)
  unfold evalNode
  dsimp only
  rw [hHeld.instr]
  exact asLoop_exits trivial hSequence

end Machine

-- Calls

namespace Machine

variable {σ : Type}

/- No fuel is enough to leave a loop towards anything else. -/
theorem eval_stays (hSteered : Steered h.ctx) (fuel depth : Nat) :
    EvalStays h.ctx (eval h fuel depth) ∧ LoopStays h.ctx (eval h fuel depth) := by
  induction fuel generalizing depth with
  | zero =>
    constructor
    · exact fun L f as _ _ => .throw trivial
    · exact fun loop block body as _ _ => .throw ⟨trivial, by simp⟩
  | succ fuel ih =>
    rcases ih depth with ⟨hEval, hLoop⟩
    constructor
    · intro L f as hHeld hSteers
      refine evalNode_stays hEval hLoop (fun _ _ => ?_) hHeld hSteers fuel
      exact callMethod_exits fun m n => hSteered.body (ih (depth + 1)).1
    · intro loop block body as hHeld hBody
      exact evalNode_loop hEval hHeld hBody fuel

/- A call that starts from outside never ends in a foreign branch. -/
theorem callWithFuel_regular
    (hSteered : Steered h.ctx) (hTrap : (callWithFuel fuel h m args store).1 = .trap t) :
    t.IsRegular := by
  have hCall : ExitsBy (StaysIn none) (callMethod h (eval h fuel 1) 0 m args) :=
    callMethod_exits fun m n => hSteered.body (eval_stays hSteered fuel 1).1
  unfold callWithFuel at hTrap
  rcases hResult : callMethod h (eval h fuel 1) 0 m args ⟨[], store⟩ with ⟨v, s⟩ | ⟨e, s⟩
  · rw [hResult] at hTrap
    cases hTrap
  have hExit := hCall _ e s hResult
  rw [hResult] at hTrap
  cases e with
  | branch target =>
    rcases hExit with ⟨_, _, hNone, _⟩
    cases hNone
  | ret | outOfFuel => cases hTrap
  | trap t' =>
    cases hTrap
    exact hExit

end Machine

end RubyWat
