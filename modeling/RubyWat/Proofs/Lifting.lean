import RubyWat.Proofs.Computation

/-
  The meaning of statements on the machine.

  Key definitions: `Integral.exitOf`, `Integral.lifted`, `Integral.Fitting`.

  Statements change variables only, and the machine has a store besides.  Where statements leave
  a loop or repeat it, the machine branches to a node.

  Main statement: rounds of statements are rounds of a loop inside of a block
  (`lifted_iterates`).
-/

-- Ends On The Machine

namespace RubyWat.Integral

open Machine

open Code (NodeId)
/- What the machine reports when a program stops. -/
def trapOf : Fault → Trap
  | .divisionByZero => ⟨.divisionByZero, none⟩
  | .unread x => ⟨.notEvaluable (.localRead x), none⟩
  | .unwritten x => ⟨.notEvaluable (.localWrite x), none⟩
  | .noValue => ⟨.notEvaluable .unaryOperand, none⟩
  | .noLoop => ⟨.notEvaluable .foreignBranch, none⟩
  | .noResult => ⟨.notEvaluable .missingResult, none⟩

/-
  How the machine leaves statements early, inside of a loop with
  a block around it or outside of loops.
-/
def exitOf (L : Option (NodeId × NodeId)) : Jump → Exit
  | .leave => L.elim .outOfFuel fun (_, block) => .branch block
  | .again => L.elim .outOfFuel fun (loop, _) => .branch loop
  | .ret v => .ret v
  | .fault f => .trap (trapOf f)
  | .timeout => .outOfFuel

variable {σ α β : Type}

/- The end of statements, with a store that they leave alone. -/
def onMachine (L : Option (NodeId × NodeId)) (store : Store σ) :
    EStateM.Result Jump Slots α → EStateM.Result Exit (State σ) α
  | .ok a frame => .ok a ⟨frame, store⟩
  | .error e frame => .error (exitOf L e) ⟨frame, store⟩

/- What statements mean for the machine. -/
def lifted (L : Option (NodeId × NodeId)) (B : Meaning α) : Behaviour Exit (State σ) α :=
  fun s r => ∃ r', B s.frame r' ∧ onMachine L s.store r' = r

/- States whose variables have certain widths. -/
def Fitting (Γ : Scope) (s : State σ) : Prop :=
  Fits Γ s.frame

section

variable (L : Option (NodeId × NodeId))

theorem lifted_pure (a : α) : (lifted L (pure a) : Behaviour Exit (State σ) α) = pure a := by
  ext s r
  constructor
  · rintro ⟨_, rfl, rfl⟩
    rfl
  · rintro rfl
    exact ⟨_, rfl, rfl⟩

theorem lifted_fail (e : Jump) :
    (lifted L (.fail e) : Behaviour Exit (State σ) α) = .fail (exitOf L e) := by
  ext s r
  constructor
  · rintro ⟨_, rfl, rfl⟩
    rfl
  · rintro rfl
    exact ⟨_, rfl, rfl⟩

theorem lifted_bind (B : Meaning α) (K : α → Meaning β) :
    (lifted L (B >>= K) : Behaviour Exit (State σ) β) = lifted L B >>= fun a => lifted L (K a) := by
  ext s r
  constructor
  · rintro ⟨_, hEnd, rfl⟩
    cases hEnd with
    | next hFirst hNext => exact .next ⟨_, hFirst, rfl⟩ ⟨_, hNext, rfl⟩
    | early hFirst => exact .early ⟨_, hFirst, rfl⟩
  · intro hEnd
    cases hEnd with
    | next hFirst hNext =>
      rcases hFirst with ⟨r', hFirst, hSame⟩
      rcases hNext with ⟨r'', hNext, rfl⟩
      cases r' with
      | ok a frame =>
        cases hSame
        exact ⟨r'', .next hFirst hNext, rfl⟩
      | error e frame => cases hSame
    | early hFirst =>
      rcases hFirst with ⟨r', hFirst, hSame⟩
      cases r' with
      | ok a frame => cases hSame
      | error e frame =>
        cases hSame
        exact ⟨_, .early hFirst, rfl⟩

theorem lifted_map (f : α → β) (B : Meaning α) :
    (lifted L (f <$> B) : Behaviour Exit (State σ) β) = f <$> lifted L B := by
  rw [map_eq_pure_bind, lifted_bind, map_eq_pure_bind]
  simp only [lifted_pure]

theorem lifted_ite {c : Prop} [Decidable c] (B B' : Meaning α) :
    (lifted L (if c then B else B') : Behaviour Exit (State σ) α)
      = if c then lifted L B else lifted L B' := by
  split <;> rfl

theorem lifted_agree (hAgree : AgreeOn (Fits Γ) B B') :
    AgreeOn (Fitting Γ) (lifted L B : Behaviour Exit (State σ) α) (lifted L B') := by
  intro s hFits r
  constructor
  · rintro ⟨r', hEnd, rfl⟩
    exact ⟨r', (hAgree _ hFits r').mp hEnd, rfl⟩
  · rintro ⟨r', hEnd, rfl⟩
    exact ⟨r', (hAgree _ hFits r').mpr hEnd, rfl⟩

theorem lifted_keeps (hKeeps : Preserves (Fits Γ) Q B) :
    Preserves (Fitting Γ) Q (lifted L B : Behaviour Exit (State σ) α) := by
  rintro s hFits _ ⟨r', hEnd, rfl⟩
  rcases hKeeps _ hFits r' hEnd with ⟨hFinal, hGives⟩
  cases r' with
  | ok a frame =>
    refine ⟨hFinal, ?_⟩
    rintro _ _ ⟨⟩
    exact hGives a frame rfl
  | error e frame => exact ⟨hFinal, by rintro _ _ ⟨⟩⟩

/- A computation that can only stop, on the machine. -/
theorem lifted_once {x : Run α} {y : Exec σ α}
    (hSame : ∀ frame store, y ⟨frame, store⟩ = onMachine L store (x frame))
    (hFaults : ∀ frame e frame', x frame = .error e frame' → ∃ f, e = .fault f) :
    lifted L (once .timeout x) = once .outOfFuel y := by
  ext ⟨frame, store⟩ r
  constructor
  · rintro ⟨r', ⟨⟨_, hEnd⟩, _⟩, rfl⟩
    refine ⟨⟨0, (hSame frame store).trans (congrArg _ hEnd)⟩, ?_⟩
    intro s' hStop
    cases r' with
    | ok a frame' => cases hStop
    | error e frame' =>
      rcases hFaults frame e frame' hEnd with ⟨f, rfl⟩
      cases hStop
  · rintro ⟨⟨_, hEnd⟩, _⟩
    refine ⟨x frame, ⟨⟨0, rfl⟩, fun frame' hStop => ?_⟩, (hSame frame store).symm.trans hEnd⟩
    rcases hFaults frame _ frame' hStop with ⟨f, hFault⟩
    cases hFault

theorem lifted_readVar (x : String) : (lifted L (once .timeout (readVar x))
        : Behaviour Exit (State σ) Value)
      = once .outOfFuel (Exec.getLocal x) := by
  refine lifted_once L (fun frame store => (bind_of_ok rfl _).trans ?_)
    fun frame e frame' hEnd => ?_
  · rw [readVar_eq]
    cases frame.lookup x <;> rfl
  · rw [readVar_eq] at hEnd
    split at hEnd <;> cases hEnd
    exact ⟨_, rfl⟩

theorem lifted_writeVar (x : String) (v : Value) : (lifted L (once .timeout (writeVar x v))
        : Behaviour Exit (State σ) Unit)
      = once .outOfFuel (Exec.setLocal x v) := by
  refine lifted_once L (fun frame store => (bind_of_ok rfl _).trans ?_)
    fun frame e frame' hEnd => ?_
  · rw [writeVar_eq]
    cases frame.assign? x v <;> rfl
  · rw [writeVar_eq] at hEnd
    split at hEnd <;> cases hEnd
    exact ⟨_, rfl⟩

theorem lifted_divided (v : Option Value) :
    (lifted L (once .timeout (divided v)) : Behaviour Exit (State σ) Value) = quotient v := by
  cases v with
  | none =>
    rw [once_divided_none, lifted_fail]
    rfl
  | some v =>
    rw [once_divided_some, lifted_pure]
    rfl

end

-- Loops

/- The verdict on a round is the same on the machine. -/
theorem afterRound_onMachine (L : Option (NodeId × NodeId)) (hNe : block ≠ loop) (store : Store σ)
    (r : EStateM.Result Jump Slots Bool) :
    afterRound loop block (onMachine (some (loop, block)) store r)
      = (roundVerdict r).map (⟨·, store⟩) (onMachine L store) := by
  cases r with
  | ok go frame => cases go <;> rfl
  | error e frame =>
    cases e with
    | leave => exact (if_neg hNe).trans (if_pos rfl)
    | again => exact if_pos rfl
    | ret | fault | timeout => rfl

/- Rounds of statements are rounds on the machine. -/
theorem lifted_iterates (L : Option (NodeId × NodeId)) (hNe : block ≠ loop) (round : Meaning Bool) :
    (lifted L (Behaviour.Iterates roundVerdict round) : Behaviour Exit (State σ) (Option Value))
      = Behaviour.Iterates (afterRound loop block) (lifted (some (loop, block)) round) := by
  ext ⟨frame, store⟩ r
  constructor
  · rintro ⟨_, hEnd, rfl⟩
    dsimp only at hEnd
    induction hEnd with
    | again hRound hAgain _ ih =>
      exact .again ⟨_, hRound, rfl⟩ (by rw [afterRound_onMachine L hNe, hAgain]; rfl) ih
    | done hRound hDone =>
      exact .done ⟨_, hRound, rfl⟩ (by rw [afterRound_onMachine L hNe, hDone]; rfl)
  · intro hEnd
    generalize hState : State.mk frame store = s at hEnd
    induction hEnd generalizing frame with
    | again hRound hAgain _ ih =>
      subst hState
      rcases hRound with ⟨r', hRound, rfl⟩
      rw [afterRound_onMachine L hNe] at hAgain
      cases hVerdict : roundVerdict r' with
      | inl frame' =>
        cases hVerdict ▸ hAgain
        rcases ih frame' rfl with ⟨_, hRest, rfl⟩
        exact ⟨_, .again hRound hVerdict hRest, rfl⟩
      | inr end' => cases hVerdict ▸ hAgain
    | done hRound hDone =>
      subst hState
      rcases hRound with ⟨r', hRound, rfl⟩
      rw [afterRound_onMachine L hNe] at hDone
      cases hVerdict : roundVerdict r' with
      | inl frame' => cases hVerdict ▸ hDone
      | inr end' =>
        cases hVerdict ▸ hDone
        exact ⟨end', .done hRound hVerdict, rfl⟩

end RubyWat.Integral
