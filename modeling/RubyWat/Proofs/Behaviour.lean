/-
  What computations with fuel end in.

  Key definitions: `Behaviour`, `Grows`, `ends`, `AgreeOn`, `Preserves`.

  A computation with fuel may stop because it has too little of it.  If more fuel never changes
  any other end, the computation has a behaviour, which says in what it ends with fuel enough.
  Behaviours can be put after each other like computations.

  Main statement: the behaviour of a sequence is the sequence of behaviours (`ends_bind`).
-/

-- Behaviours

namespace RubyWat

open EStateM

/- The ends that are possible from a state. -/
def Behaviour (ε σ α : Type) : Type :=
  σ → Result ε σ α → Prop

namespace Behaviour

variable {ε σ α β γ : Type}

@[ext]
theorem ext {B B' : Behaviour ε σ α} (hSame : ∀ s r, B s r ↔ B' s r) : B = B' := by
  funext s r
  exact propext (hSame s r)

/- One behaviour after another, unless the first ends early. -/
inductive After (B : Behaviour ε σ α) (K : α → Behaviour ε σ β) (s : σ) : Result ε σ β → Prop where
  | next {s' : σ} {a : α} {r : Result ε σ β} (hFirst : B s (.ok a s')) (hNext : K a s' r) :
      After B K s r
  | early {s' : σ} {e : ε} (hFirst : B s (.error e s')) : After B K s (.error e s')

/- The behaviour that ends early at once. -/
def fail (e : ε) : Behaviour ε σ α :=
  fun s r => r = .error e s

instance : Monad (Behaviour ε σ) where
  pure a := fun s r => r = .ok a s
  bind := After

theorem after_pure (B : Behaviour ε σ α) : B.After (fun a s r => r = .ok a s) = B := by
  ext s r
  constructor
  · intro hEnd
    cases hEnd with
    | next hFirst hNext => exact hNext ▸ hFirst
    | early hFirst => exact hFirst
  · intro hEnd
    cases r with
    | ok a s' => exact .next hEnd rfl
    | error e s' => exact .early hEnd

theorem pure_after (a : α) (K : α → Behaviour ε σ β) : After (fun s r => r = .ok a s) K = K a := by
  ext s r
  constructor
  · intro hEnd
    cases hEnd with
    | next hFirst hNext =>
      cases hFirst
      exact hNext
    | early hFirst => cases hFirst
  · exact .next rfl

theorem after_assoc (B : Behaviour ε σ α) (K : α → Behaviour ε σ β) (L : β → Behaviour ε σ γ) :
    After (B.After K) L = B.After fun a => (K a).After L := by
  ext s r
  constructor
  · intro hEnd
    cases hEnd with
    | next hFirst hLast =>
      cases hFirst with
      | next hFirst hNext => exact .next hFirst (.next hNext hLast)
    | early hEarly =>
      cases hEarly with
      | next hFirst hNext => exact .next hFirst (.early hNext)
      | early hFirst => exact .early hFirst
  · intro hEnd
    cases hEnd with
    | next hFirst hRest =>
      cases hRest with
      | next hNext hLast => exact .next (.next hFirst hNext) hLast
      | early hNext => exact .early (.next hFirst hNext)
    | early hFirst => exact .early (.early hFirst)

instance : LawfulMonad (Behaviour ε σ) :=
  LawfulMonad.mk' _ after_pure pure_after after_assoc

theorem map_ok_iff {B : Behaviour ε σ α} {f : α → β} {s s' : σ} {b : β} :
    (f <$> B) s (.ok b s') ↔ ∃ a, B s (.ok a s') ∧ f a = b := by
  constructor
  · intro hEnd
    cases hEnd with
    | next hFirst hNext =>
      cases hNext
      exact ⟨_, hFirst, rfl⟩
  · rintro ⟨a, hFirst, rfl⟩
    exact .next hFirst rfl

theorem map_error_iff {B : Behaviour ε σ α} {f : α → β} {s s' : σ} {e : ε} :
    (f <$> B) s (.error e s') ↔ B s (.error e s') := by
  constructor
  · intro hEnd
    cases hEnd with
    | next hFirst hNext => cases hNext
    | early hFirst => exact hFirst
  · exact .early

theorem fail_bind (e : ε) (K : α → Behaviour ε σ β) :
    (fail e : Behaviour ε σ α) >>= K = fail e := by
  ext s r
  constructor
  · intro hEnd
    cases hEnd with
    | next hFirst hNext => cases hFirst
    | early hFirst =>
      cases hFirst
      rfl
  · rintro rfl
    exact .early rfl

end Behaviour

-- Fuel

variable {ε σ α β : Type}

theorem bind_of_ok (hFirst : x s = .ok a s') (k : α → EStateM ε σ β) : (x >>= k) s = k a s' := by
  change EStateM.bind x k s = _
  rw [EStateM.bind, hFirst]

theorem map_of_ok {x : EStateM ε σ α} {s s' : σ} {a : α} (hFirst : x s = .ok a s') (f : α → β) :
    (f <$> x) s = .ok (f a) s' := by
  change EStateM.map f x s = _
  rw [EStateM.map, hFirst]

theorem bind_of_error (hFirst : x s = .error e s')
    (k : α → EStateM ε σ β) : (x >>= k) s = .error e s' := by
  change EStateM.bind x k s = _
  rw [EStateM.bind, hFirst]

theorem ok_of_bind {k : α → EStateM ε σ β}
    (hEnd : (x >>= k) s = .ok b s') : ∃ a t, x s = .ok a t ∧ k a t = .ok b s' := by
  cases hFirst : x s with
  | ok a t => exact ⟨a, t, rfl, (bind_of_ok hFirst k).symm.trans hEnd⟩
  | error e t => cases (bind_of_error hFirst k).symm.trans hEnd

/- A computation that ends like another or for lack of fuel. -/
def Refines (stop : ε) (x y : EStateM ε σ α) : Prop :=
  ∀ s, (∃ s', x s = .error stop s') ∨ x s = y s

namespace Refines

variable {stop : ε}

theorem refl (x : EStateM ε σ α) : Refines stop x x :=
  fun _ => .inr rfl

theorem trans (hFirst : Refines stop x y) (hSecond : Refines stop y z) : Refines stop x z := by
  intro s
  rcases hFirst s with hStop | hSame
  · exact .inl hStop
  · rw [hSame]
    exact hSecond s

theorem throw (y : EStateM ε σ α) : Refines stop (MonadExcept.throw stop) y :=
  fun s => .inl ⟨s, rfl⟩

theorem bind (hFirst : Refines stop x y)
    (hNext : ∀ a, Refines stop (k a) (l a)) : Refines stop (x >>= k) (y >>= l) := by
  intro s
  rcases hFirst s with ⟨s', hStop⟩ | hSame
  · exact .inl ⟨s', bind_of_error hStop k⟩
  cases hX : x s with
  | ok a s' =>
    rw [bind_of_ok hX, bind_of_ok (hSame.symm.trans hX)]
    exact hNext a s'
  | error e s' =>
    rw [bind_of_error hX, bind_of_error (hSame.symm.trans hX)]
    exact .inr rfl

end Refines

/- A computation whose ends last when it gets more fuel. -/
def Grows (stop : ε) (x : Nat → EStateM ε σ α) : Prop :=
  ∀ n, Refines stop (x n) (x (n + 1))

namespace Grows

variable {stop : ε}

theorem const (x : EStateM ε σ α) : Grows stop fun _ => x :=
  fun _ => .refl x

theorem le (hGrows : Grows stop x) (hLe : n ≤ k) : Refines stop (x n) (x k) := by
  induction hLe with
  | refl => exact .refl _
  | step _ ih => exact ih.trans (hGrows _)

theorem bind {x : Nat → EStateM ε σ α} {k : Nat → α → EStateM ε σ β} (hFirst : Grows stop x)
    (hNext : ∀ a, Grows stop fun n => k n a) : Grows stop fun n => x n >>= k n :=
  fun n => .bind (hFirst n) fun a => hNext a n

/- An end lasts, unless it was reached for lack of fuel. -/
theorem eq_of_le
    (hGrows : Grows stop x) (hLe : n ≤ k) (hEnd : x n s = r) (hReal : ∀ s', r ≠ .error stop s') :
    x k s = r := by
  rcases hGrows.le hLe s with ⟨s', hStop⟩ | hSame
  · exact absurd (hEnd.symm.trans hStop) (hReal s')
  · rw [← hSame, hEnd]

end Grows

/- What a computation ends in if it gets fuel enough. -/
def ends (stop : ε) (x : Nat → EStateM ε σ α) : Behaviour ε σ α :=
  fun s r => (∃ n, x n s = r) ∧ ∀ s', r ≠ .error stop s'

variable {stop : ε}

theorem ends_pure (a : α) : ends stop (fun _ => (pure a : EStateM ε σ α)) = pure a := by
  ext s r
  constructor
  · rintro ⟨⟨_, hEnd⟩, _⟩
    exact hEnd.symm
  · rintro rfl
    exact ⟨⟨0, rfl⟩, by rintro s' ⟨⟩⟩

theorem ends_throw {e : ε} (hReal : e ≠ stop) :
    ends stop (fun _ => (throw e : EStateM ε σ α)) = Behaviour.fail e := by
  ext s r
  constructor
  · rintro ⟨⟨_, hEnd⟩, _⟩
    exact hEnd.symm
  · rintro rfl
    refine ⟨⟨0, rfl⟩, ?_⟩
    rintro s' ⟨⟩
    exact hReal rfl

/- The behaviour of a sequence is a sequence of behaviours. -/
theorem ends_bind {x : Nat → EStateM ε σ α} {k : Nat → α → EStateM ε σ β} (hFirst : Grows stop x)
    (hNext : ∀ a, Grows stop fun n => k n a) :
    ends stop (fun n => x n >>= k n) = ends stop x >>= fun a => ends stop fun n => k n a := by
  ext s r
  constructor
  · rintro ⟨⟨n, hEnd⟩, hReal⟩
    cases hX : x n s with
    | ok a s' =>
      exact .next ⟨⟨n, hX⟩, by rintro _ ⟨⟩⟩ ⟨⟨n, (bind_of_ok hX _).symm.trans hEnd⟩, hReal⟩
    | error e s' =>
      rcases (bind_of_error hX _).symm.trans hEnd with rfl
      exact .early ⟨⟨n, hX⟩, by rintro _ ⟨⟩; exact hReal _ rfl⟩
  · intro hEnd
    cases hEnd with
    | next hStart hRest =>
      rcases hStart with ⟨⟨n, hX⟩, hReal⟩
      rcases hRest with ⟨⟨k', hK⟩, hReal'⟩
      -- with the larger amount of fuel, both come to their ends
      have hX' := hFirst.eq_of_le (Nat.le_max_left n k') hX hReal
      have hK' := (hNext _).eq_of_le (Nat.le_max_right n k') hK hReal'
      exact ⟨⟨max n k', (bind_of_ok hX' _).trans hK'⟩, hReal'⟩
    | early hStart =>
      rcases hStart with ⟨⟨n, hX⟩, hReal⟩
      refine ⟨⟨n, bind_of_error hX _⟩, ?_⟩
      rintro _ ⟨⟩
      exact hReal _ rfl

theorem ends_map {x : Nat → EStateM ε σ α} (f : α → β) (hFirst : Grows stop x) :
    ends stop (fun n => f <$> x n) = f <$> ends stop x := by
  simp only [map_eq_pure_bind]
  refine (ends_bind (k := fun _ a => pure (f a)) hFirst fun a => .const _).trans ?_
  simp only [ends_pure]

/- Ends that are turned into other ends. -/
def Behaviour.ending (g : Result ε σ α → Result ε σ β) (B : Behaviour ε σ α) : Behaviour ε σ β :=
  fun s r => ∃ r', B s r' ∧ g r' = r

theorem ends_ending {x : Nat → EStateM ε σ α} {g : Result ε σ α → Result ε σ β}
    (hPasses : ∀ r s, g r = .error stop s ↔ r = .error stop s) :
    ends stop (fun n s => g (x n s)) = (ends stop x).ending g := by
  ext s r
  constructor
  · rintro ⟨⟨n, rfl⟩, hReal⟩
    refine ⟨x n s, ⟨⟨n, rfl⟩, fun s' hStop => ?_⟩, rfl⟩
    exact hReal s' ((hPasses _ s').mpr hStop)
  · rintro ⟨_, ⟨⟨n, rfl⟩, hReal⟩, rfl⟩
    refine ⟨⟨n, rfl⟩, fun s' hStop => ?_⟩
    exact hReal s' ((hPasses _ s').mp hStop)

/- What a computation without fuel ends in. -/
def once (stop : ε) (x : EStateM ε σ α) : Behaviour ε σ α :=
  ends stop fun _ => x

theorem once_pure (a : α) : once stop (pure a : EStateM ε σ α) = pure a :=
  ends_pure a

theorem once_throw (hReal : e ≠ stop) : once stop (throw e : EStateM ε σ α) = Behaviour.fail e :=
  ends_throw hReal

theorem once_bind (x : EStateM ε σ α) (k : α → EStateM ε σ β) :
    once stop (x >>= k) = once stop x >>= fun a => once stop (k a) :=
  ends_bind (k := fun _ => k) (.const x) fun a => .const (k a)

theorem once_map (f : α → β) (x : EStateM ε σ α) : once stop (f <$> x) = f <$> once stop x :=
  ends_map f (.const x)

theorem Grows.ite {c : Prop} [Decidable c] (hThen : Grows stop x)
    (hElse : Grows stop y) : Grows stop fun n => if c then x n else y n := by
  by_cases hCond : c
  · simpa only [hCond, if_true] using hThen
  · simpa only [hCond, if_false] using hElse

theorem ends_ite {c : Prop} [Decidable c] :
    ends stop (fun n => if c then x n else y n) = if c then ends stop x else ends stop y := by
  by_cases hCond : c
  · simp only [hCond, if_true]
  · simp only [hCond, if_false]

/- The first bit of fuel buys nothing. -/
theorem ends_succ {x : Nat → EStateM ε σ α} (hGrows : Grows stop x) :
    ends stop (fun n => x (n + 1)) = ends stop x := by
  ext s r
  constructor
  · rintro ⟨⟨n, hEnd⟩, hReal⟩
    exact ⟨⟨n + 1, hEnd⟩, hReal⟩
  · rintro ⟨⟨n, hEnd⟩, hReal⟩
    exact ⟨⟨n, hGrows.eq_of_le (Nat.le_succ n) hEnd hReal⟩, hReal⟩

-- Repetition

/-
  Repeat a computation.  A verdict on what it ends in tells from
  which state it starts again, or what all of it ends in.
-/
def iterate (stop : ε) (verdict : Result ε σ α → σ ⊕ Result ε σ β)
    (x : EStateM ε σ α) : Nat → EStateM ε σ β
  | 0 => throw stop
  | fuel + 1 => fun s =>
    match verdict (x s) with
    | .inl s' => iterate stop verdict x fuel s'
    | .inr r => r

/- What repeated behaviours end in. -/
inductive Behaviour.Iterates (verdict : Result ε σ α → σ ⊕ Result ε σ β)
    (B : Behaviour ε σ α) : Behaviour ε σ β where
  | again {s s' : σ} {r : Result ε σ α} {r' : Result ε σ β} (hRound : B s r)
      (hAgain : verdict r = .inl s') (hRest : Iterates verdict B s' r') : Iterates verdict B s r'
  | done {s : σ} {r : Result ε σ α} {r' : Result ε σ β} (hRound : B s r)
      (hDone : verdict r = .inr r') : Iterates verdict B s r'

/- A verdict that stops for lack of fuel when a round does. -/
def PassesStop (stop : ε) (verdict : Result ε σ α → σ ⊕ Result ε σ β) : Prop :=
  ∀ r s, verdict r = .inr (.error stop s) ↔ r = .error stop s

section

variable {verdict : Result ε σ α → σ ⊕ Result ε σ β}

theorem iterate_again (hAgain : verdict (x s) = .inl s')
    (fuel : Nat) : iterate stop verdict x (fuel + 1) s = iterate stop verdict x fuel s' := by
  rw [iterate]
  dsimp only
  rw [hAgain]

theorem iterate_done
    (hDone : verdict (x s) = .inr r) (fuel : Nat) : iterate stop verdict x (fuel + 1) s = r := by
  rw [iterate]
  dsimp only
  rw [hDone]

section

variable (hPasses : PassesStop stop verdict)
include hPasses

theorem iterate_refines (hRound : Refines stop x y) (hLe : fuel ≤ fuel') :
    Refines stop (iterate stop verdict x fuel) (iterate stop verdict y fuel') := by
  induction fuel generalizing fuel' with
  | zero => exact .throw _
  | succ fuel ih =>
    rcases fuel' with _ | fuel'
    · cases hLe
    intro s
    rcases hRound s with ⟨s', hStop⟩ | hSame
    · have hDone := (hPasses (x s) s').mpr hStop
      exact .inl ⟨s', iterate_done hDone fuel⟩
    cases hVerdict : verdict (x s) with
    | inl s' =>
      rw [iterate_again hVerdict, iterate_again (hSame ▸ hVerdict)]
      exact ih (Nat.le_of_succ_le_succ hLe) s'
    | inr r =>
      rw [iterate_done hVerdict, iterate_done (hSame ▸ hVerdict)]
      exact .inr rfl

theorem Grows.iterate (hGrows : Grows stop x) :
    Grows stop fun n => RubyWat.iterate stop verdict (x n) n :=
  fun n => iterate_refines hPasses (hGrows n) (Nat.le_succ n)

/- Rounds with one amount of fuel are rounds of the behaviour. -/
theorem iterates_of_iterate (hEnd : iterate stop verdict (x n) fuel s = r)
    (hReal : ∀ s', r ≠ .error stop s') : Behaviour.Iterates verdict (ends stop x) s r := by
  induction fuel generalizing s with
  | zero => exact absurd hEnd.symm (hReal s)
  | succ fuel ih =>
    have hRound : (∀ s', verdict (x n s) ≠ .inr (.error stop s')) → ends stop x s (x n s) := by
      intro hOther
      refine ⟨⟨n, rfl⟩, fun s' hStop => ?_⟩
      exact hOther s' ((hPasses _ s').mpr hStop)
    cases hVerdict : verdict (x n s) with
    | inl s' =>
      rw [iterate_again hVerdict] at hEnd
      exact .again (hRound (by simp [hVerdict])) hVerdict (ih hEnd)
    | inr r' =>
      rw [iterate_done hVerdict] at hEnd
      subst hEnd
      refine .done (hRound fun s' hStop => ?_) hVerdict
      rw [hVerdict] at hStop
      exact hReal s' (Sum.inr.inj hStop)

/- The behaviour of a repetition repeats behaviours. -/
theorem ends_iterate {x : Nat → EStateM ε σ α} (hGrows : Grows stop x) :
    ends stop (fun n => iterate stop verdict (x n) n)
      = Behaviour.Iterates verdict (ends stop x) := by
  ext s r
  constructor
  · rintro ⟨⟨n, hEnd⟩, hReal⟩
    exact iterates_of_iterate hPasses hEnd hReal
  · intro hEnds
    induction hEnds with
    | again hRound hAgain _ ih =>
      rcases hRound with ⟨⟨n, hX⟩, hReal⟩
      rcases ih with ⟨⟨k, hK⟩, hReal'⟩
      -- one round more, and all rounds with the larger amount
      refine ⟨⟨max n k + 1, ?_⟩, hReal'⟩
      have hX' := hGrows.eq_of_le (Nat.le_succ_of_le (Nat.le_max_left n k)) hX hReal
      refine (iterate_again (hX' ▸ hAgain) (max n k)).trans ?_
      have hMore := iterate_refines hPasses (hGrows.le (Nat.le_succ_of_le (Nat.le_max_right n k)))
          (Nat.le_max_right n k)
      rcases hMore _ with ⟨s', hStop⟩ | hSame
      · exact absurd (hK.symm.trans hStop) (hReal' s')
      · exact hSame.symm.trans hK
    | done hRound hDone =>
      rcases hRound with ⟨⟨n, hX⟩, hReal⟩
      have hX' := hGrows.eq_of_le (Nat.le_succ n) hX hReal
      refine ⟨⟨n + 1, iterate_done (by rw [hX']; exact hDone) n⟩, ?_⟩
      rintro s' rfl
      exact hReal s' ((hPasses _ s').mp hDone)

end

end

-- Agreement

variable {P : σ → Prop}

/- Two behaviours that are the same from certain states. -/
def AgreeOn (P : σ → Prop) (B B' : Behaviour ε σ α) : Prop :=
  ∀ s, P s → ∀ r, B s r ↔ B' s r

/- The state in which something ends. -/
def finalState : Result ε σ α → σ
  | .ok _ s | .error _ s => s

/- A behaviour that keeps to certain states and gives certain results. -/
def Preserves (P : σ → Prop) (Q : α → Prop) (B : Behaviour ε σ α) : Prop :=
  ∀ s, P s → ∀ r, B s r → P (finalState r) ∧ ∀ a s', r = .ok a s' → Q a

namespace Preserves

variable {Q : α → Prop} {R : β → Prop}

theorem pure (hResult : Q a) : Preserves P Q (Pure.pure a : Behaviour ε σ α) := by
  rintro s hState _ rfl
  refine ⟨hState, ?_⟩
  rintro _ _ ⟨⟩
  exact hResult

theorem fail (e : ε) : Preserves P Q (Behaviour.fail e : Behaviour ε σ α) := by
  rintro s hState _ rfl
  exact ⟨hState, by rintro _ _ ⟨⟩⟩

theorem bind (hFirst : Preserves P Q B)
    (hNext : ∀ a, Q a → Preserves P R (K a)) : Preserves P R (B >>= K) := by
  intro s hState r hEnd
  cases hEnd with
  | next hStart hRest =>
    rcases hFirst s hState _ hStart with ⟨hMiddle, hGives⟩
    exact hNext _ (hGives _ _ rfl) _ hMiddle r hRest
  | early hStart => exact ⟨(hFirst s hState _ hStart).1, by rintro _ _ ⟨⟩⟩

theorem map (hFirst : Preserves P Q B)
    (hResult : ∀ a, Q a → R (f a)) : Preserves P R (f <$> B) := by
  rw [map_eq_pure_bind]
  exact hFirst.bind fun a hA => .pure (hResult a hA)

theorem mono (hKeeps : Preserves P Q B) (hResult : ∀ a, Q a → Q' a) : Preserves P Q' B := by
  intro s hState r hEnd
  rcases hKeeps s hState r hEnd with ⟨hFinal, hGives⟩
  exact ⟨hFinal, fun a s' hOk => hResult a (hGives a s' hOk)⟩

theorem ite {c : Prop} [Decidable c] (hThen : Preserves P Q B)
    (hElse : Preserves P Q B') : Preserves P Q (if c then B else B') := by
  by_cases hCond : c
  · rwa [if_pos hCond]
  · rwa [if_neg hCond]

/- What every verdict keeps is kept by all rounds. -/
theorem iterates {verdict : Result ε σ α → σ ⊕ Result ε σ β}
    (hRound : Preserves P Q B) (hAgain : ∀ r s', verdict r = .inl s' → s' = finalState r)
    (hDone :
      ∀ r r', verdict r = .inr r' → finalState r' = finalState r ∧ ∀ b s', r' = .ok b s' → R b) :
    Preserves P R (Behaviour.Iterates verdict B) := by
  intro s hState r hEnd
  induction hEnd with
  | again hStart hVerdict _ ih =>
    apply ih
    rw [hAgain _ _ hVerdict]
    exact (hRound _ hState _ hStart).1
  | done hStart hVerdict =>
    rcases hDone _ _ hVerdict with ⟨hSame, hGives⟩
    rw [hSame]
    exact ⟨(hRound _ hState _ hStart).1, hGives⟩

theorem congr (hKeeps : Preserves P Q B) (hSame : AgreeOn P B B') : Preserves P Q B' :=
  fun s hState r hEnd => hKeeps s hState r ((hSame s hState r).mpr hEnd)

end Preserves

namespace AgreeOn

variable {Q : α → Prop}

theorem refl (B : Behaviour ε σ α) : AgreeOn P B B :=
  fun _ _ _ => .rfl

theorem of_eq (hEq : B = B') : AgreeOn P B B' := by
  rw [hEq]
  exact .refl B'

theorem symm (hAgree : AgreeOn P B B') : AgreeOn P B' B :=
  fun s hState r => (hAgree s hState r).symm

theorem trans (hFirst : AgreeOn P B B') (hSecond : AgreeOn P B' B'') : AgreeOn P B B'' :=
  fun s hState r => (hFirst s hState r).trans (hSecond s hState r)

/- What comes next has to agree on what the first part gives. -/
theorem bind (hFirst : AgreeOn P B B')
    (hKeeps : Preserves P Q B') (hNext : ∀ a, Q a → AgreeOn P (K a) (K' a)) :
    AgreeOn P (B >>= K) (B' >>= K') := by
  have hStep : ∀ s, P s → ∀ a s', B' s (.ok a s') → ∀ r, K a s' r ↔ K' a s' r := by
    intro s hState a s' hEnd
    rcases hKeeps s hState _ hEnd with ⟨hMiddle, hGives⟩
    exact hNext a (hGives a s' rfl) s' hMiddle
  intro s hState r
  constructor
  · intro hEnd
    cases hEnd with
    | next hStart hRest =>
      have hStart' := (hFirst s hState _).mp hStart
      exact .next hStart' ((hStep s hState _ _ hStart' r).mp hRest)
    | early hStart => exact .early ((hFirst s hState _).mp hStart)
  · intro hEnd
    cases hEnd with
    | next hStart hRest =>
      exact .next ((hFirst s hState _).mpr hStart) ((hStep s hState _ _ hStart r).mpr hRest)
    | early hStart => exact .early ((hFirst s hState _).mpr hStart)

theorem map {B B' : Behaviour ε σ α} (f : α → β) (hFirst : AgreeOn P B B') :
    AgreeOn P (f <$> B) (f <$> B') := by
  intro s hState r
  cases r with
  | ok b s' => simp only [Behaviour.map_ok_iff, hFirst s hState]
  | error e s' => simp only [Behaviour.map_error_iff, hFirst s hState]

/- A change that changes no result. -/
theorem map_self {B : Behaviour ε σ α} {f : α → α}
    (hFixed : ∀ s, P s → ∀ a s', B s (.ok a s') → f a = a) : AgreeOn P B (f <$> B) := by
  intro s hState r
  cases r with
  | ok b s' =>
    rw [Behaviour.map_ok_iff]
    constructor
    · intro hEnd
      exact ⟨b, hEnd, hFixed s hState b s' hEnd⟩
    · rintro ⟨a, hEnd, hSame⟩
      rw [hFixed s hState a s' hEnd] at hSame
      exact hSame ▸ hEnd
  | error e s' => exact Behaviour.map_error_iff.symm

/- A change of results that are never given. -/
theorem map_never {β : Type} {C : Behaviour ε σ β} {f : β → α} (g : β → α)
    (hAgree : AgreeOn P B (f <$> C)) (hNever : ∀ s a s', ¬B s (.ok a s')) :
    AgreeOn P B (g <$> C) := by
  intro s hState r
  cases r with
  | ok a s' =>
    rw [Behaviour.map_ok_iff]
    constructor
    · intro hEnd
      exact absurd hEnd (hNever s a s')
    · rintro ⟨b, hEnd, _⟩
      have hOk : (f <$> C) s (.ok (f b) s') := Behaviour.map_ok_iff.mpr ⟨b, hEnd, rfl⟩
      exact absurd ((hAgree s hState _).mpr hOk) (hNever s _ s')
  | error e s' => rw [hAgree s hState, Behaviour.map_error_iff, Behaviour.map_error_iff]

theorem ending {γ : Type} (g : Result ε σ α → Result ε σ γ) (hSame : AgreeOn P B B') :
    AgreeOn P (B.ending g) (B'.ending g) :=
  fun s hState _ => exists_congr fun r => and_congr_left fun _ => hSame s hState r

/- Rounds that agree, if each one starts where one ended. -/
theorem iterates {verdict : Result ε σ α → σ ⊕ Result ε σ β}
    (hRound : AgreeOn P B B') (hKeeps : Preserves P Q B')
    (hAgain : ∀ {r s'}, verdict r = .inl s' → s' = finalState r) :
    AgreeOn P (Behaviour.Iterates verdict B) (Behaviour.Iterates verdict B') := by
  have hOne : ∀ {B B' : Behaviour ε σ α}, AgreeOn P B B' → Preserves P Q B' → ∀ s, P s → ∀ r,
        Behaviour.Iterates verdict B s r → Behaviour.Iterates verdict B' s r := by
    intro B B' hSame hKeeps s hState r hEnd
    induction hEnd with
    | again hStart hVerdict _ ih =>
      have hStart' := (hSame _ hState _).mp hStart
      refine .again hStart' hVerdict (ih ?_)
      rw [hAgain hVerdict]
      exact (hKeeps _ hState _ hStart').1
    | done hStart hDone => exact .done ((hSame _ hState _).mp hStart) hDone
  exact fun s hState r => ⟨hOne hRound hKeeps s hState r,
    hOne hRound.symm (hKeeps.congr hRound.symm) s hState r⟩

end AgreeOn

/- Rounds that end in other ways, with a verdict that knows them. -/
theorem Behaviour.iterates_ending {γ δ : Type} {B : Behaviour ε σ γ}
    {verdict : Result ε σ α → σ ⊕ Result ε σ β}
    {verdict' : Result ε σ γ → σ ⊕ Result ε σ δ}
    {f : Result ε σ γ → Result ε σ α}
    {g : Result ε σ β → Result ε σ δ}
    (hVerdict : ∀ r, verdict' r = (verdict (f r)).map id g) :
    (Iterates verdict (B.ending f)).ending g = Iterates verdict' B := by
  ext s r
  constructor
  · rintro ⟨_, hEnd, rfl⟩
    induction hEnd with
    | again hRound hAgain _ ih =>
      rcases hRound with ⟨_, hRound, rfl⟩
      exact .again hRound (by rw [hVerdict, hAgain]; rfl) ih
    | done hRound hDone =>
      rcases hRound with ⟨_, hRound, rfl⟩
      exact .done hRound (by rw [hVerdict, hDone]; rfl)
  · intro hEnd
    induction hEnd with
    | @again _ _ r _ hRound hAgain _ ih =>
      rcases ih with ⟨_, hRest, rfl⟩
      rw [hVerdict] at hAgain
      cases hRead : verdict (f r) with
      | inl s' =>
        cases hRead ▸ hAgain
        exact ⟨_, .again ⟨r, hRound, rfl⟩ hRead hRest, rfl⟩
      | inr r' => cases hRead ▸ hAgain
    | @done _ r _ hRound hDone =>
      rw [hVerdict] at hDone
      cases hRead : verdict (f r) with
      | inl s' => cases hRead ▸ hDone
      | inr r' =>
        cases hRead ▸ hDone
        exact ⟨r', .done ⟨r, hRound, rfl⟩ hRead, rfl⟩

end RubyWat
