import RubyWat.Proofs.Conditions

/-
  Statements and the code that runs them.

  The code of an expression computes its value, or leaves no value behind and does what the
  expression does to variables. Code for statements is made of such code.

  Main statements: arms give the values that their conditional has (`Runs.settled`), and the
  code of a loop does rounds (`Supplies.testedLoop`, `Supplies.postTestedLoop`).
-/

-- Expressions And Statements

namespace RubyWat

open Code Machine Translation Integral List

variable {fold keep truth : Bool}
variable {arm f first g last second : Fragment} {n : NodeId}
variable {e : Expr} {M : Meaning Value}
variable {Γ : Scope} {w : Width}
variable {before fs rest : List Fragment} {ns : List NodeId}
variable {depth : Nat} {L : Option (NodeId × NodeId)}
variable {result : Option Width} {ty : ValueType}

namespace Integral

section

variable {es : List Expr}

theorem valueOf_of_meaning (hMeaning : meaning Γ result e = some <$> M) :
    valueOf Γ result e = M := by
  rw [valueOf, hMeaning, bind_map_left]
  simp only [once_need_some, bind_pure]

/- An expression with a width has a value. -/
theorem meaning_value (result : Option Width) (hType : typeOf Γ e = some w) :
    AgreeOn (Fits Γ) (some <$> valueOf Γ result e) (meaning Γ result e) := by
  have hBoth : AgreeOn (Fits Γ) (meaning Γ result e >>= fun v => some <$> once .timeout (need v))
        (meaning Γ result e >>= fun v => pure v) := by
    refine .bind (.refl _) (meaning_keeps e) fun v hWidth => ?_
    rw [hType] at hWidth
    rcases Option.map_eq_some_iff.mp hWidth with ⟨u, rfl, _⟩
    rw [once_need_some, map_pure]
    exact .refl _
  rw [bind_pure] at hBoth
  rwa [valueOf, map_bind]

/- Statements whose last one has no width have no value. -/
theorem meaningAll_none (result : Option Width) (hType : lastType Γ es = none) :
    AgreeOn (Fits Γ) (meaningAll Γ result es) ((fun _ => none) <$> meaningAll Γ result es) := by
  refine .map_self fun frame hFits v frame' hEnd => ?_
  have hWidth := (meaningAll_keeps es frame hFits _ hEnd).2 v frame' rfl
  rw [hType, Option.map_eq_none_iff] at hWidth
  exact hWidth.symm

/- Statements whose value is forgotten keep all widths. -/
theorem lifted_none_keeps {σ : Type} (es : List Expr) : Preserves (Fitting Γ) (fun _ => True)
      ((fun _ => (none : Option Value)) <$> lifted (σ := σ) L (meaningAll Γ result es)) :=
  (lifted_keeps L (meaningAll_keeps es)).map fun _ _ => trivial

end

section

variable {σ : Type} (h : Host σ) (depth : Nat) (Γ : Scope) (result : Option Width)
variable (L : Option (NodeId × NodeId))

/-
  Code that computes the value of an expression, or that leaves
  no value and has the effects of the expression.
-/
inductive Carries (e : Expr) (f : Fragment) : Prop where
  | value {w : Width} (hType : typeOf Γ e = some w)
      (hComputes : Computes h depth (Fitting Γ) f w (lifted L (valueOf Γ result e)))
  | effect (hTy : f.ty = .none) (hAgrees : Held h.ctx.tree f →
          AgreeOn (Fitting Γ) (behaviour h depth f.id)
            ((fun _ => none) <$> lifted L (meaning Γ result e)))

/-
  Code that has the effects of statements, and whose last part
  computes the value of the last statement if there is one.
-/
inductive Runs (es : List Expr) (keep : Bool) (fs : List Fragment) : Prop where
  | silent (hTy : lastTy? fs = none) (hType : keep = true → lastType Γ es = none) (hAgrees :
        (∀ f ∈ fs, Held h.ctx.tree f) → AgreeOn (Fitting Γ) (behaviourOf h depth (fs.map (·.id)))
            ((fun _ => none) <$> lifted L (meaningAll Γ result es)))
  | valued {before : List Fragment} {last : Fragment} {w : Width}
      {A : Behaviour Exit (State σ) (Option Value)} {B : Behaviour Exit (State σ) Value}
      (hKeep : keep = true) (hParts : fs = before ++ [last])
      (hKeeps : Preserves (Fitting Γ) (fun _ => True) A)
      (hFront : (∀ f ∈ before, Held h.ctx.tree f) →
          AgreeOn (Fitting Γ) (behaviourOf h depth (before.map (·.id))) A)
      (hLast : Computes h depth (Fitting Γ) last w B)
      (hSame : AgreeOn (Fitting Γ) (A >>= fun _ => some <$> B) (lifted L (meaningAll Γ result es)))

end

variable {σ : Type} {h : Host σ}

namespace Carries

/- The value of an expression, from its meaning. -/
theorem of_meaning (hType : typeOf Γ e = some w) (hMeaning : meaning Γ result e = some <$> M)
    (hComputes : Computes h depth (Fitting Γ) f w (lifted L M)) : Carries h depth Γ result L e f :=
  .value hType (valueOf_of_meaning hMeaning ▸ hComputes)

/- Code that leaves a value computes it. -/
theorem computes (hCarries : Carries h depth Γ result L e f) (hTy : f.ty ≠ .none) :
    ∃ w, typeOf Γ e = some w
      ∧ Computes h depth (Fitting Γ) f w (lifted L (valueOf Γ result e)) := by
  cases hCarries with
  | value hType hComputes => exact ⟨_, hType, hComputes⟩
  | effect hNone => exact absurd hNone hTy

/- Code whose value is discarded has the effects only. -/
theorem discarded (hCarries : Carries h depth Γ result L e f)
    (hDiscards : Discards false f g) (hHeld : Held h.ctx.tree g) :
    AgreeOn (Fitting Γ) (behaviour h depth g.id)
      ((fun _ => none) <$> lifted L (meaning Γ result e)) := by
  cases hDiscards with
  | keep hKeep =>
    have hNone := hKeep.resolve_left (by simp)
    cases hCarries with
    | value hType hComputes => exact absurd hNone hComputes.ne_none
    | effect _ hAgrees => exact hAgrees hHeld
  | drop hTy =>
    rcases hCarries.computes hTy with ⟨w, hType, hComputes⟩
    have hOperand := hComputes.agrees (hHeld.child (.head _))
    have hValue := lifted_agree (σ := σ) L (meaning_value result hType)
    rw [lifted_map] at hValue
    rw [behaviour_drop hHeld]
    exact (hOperand.trans hValue).map fun _ => none

end Carries

/- A node after others. -/
theorem behaviourOf_snoc (h : Host σ) (depth : Nat) (ns : List NodeId) (n : NodeId) :
    behaviourOf h depth (ns ++ [n]) = behaviourOf h depth ns >>= fun _ => behaviour h depth n := by
  induction ns with
  | nil => rw [behaviourOf_nil, pure_bind, nil_append, behaviourOf_single]
  | cons m ns ih =>
    cases ns with
    | nil =>
      rw [behaviourOf_single]
      refine (behaviourOf_cons m n []).trans ?_
      rw [behaviourOf_single]
    | cons k ns =>
      rw [behaviourOf_cons, bind_assoc, ← ih]
      exact behaviourOf_cons m k (ns ++ [n])

/- A node that leaves no value, and what comes after it. -/
theorem behaviourOf_quiet {P : State σ → Prop} {α : Type} {A : Behaviour Exit (State σ) α}
    (hKeeps : Preserves P (fun _ => True) A)
    (hFirst : AgreeOn P (behaviour h depth n) ((fun _ => none) <$> A))
    (hRest : AgreeOn P (behaviourOf h depth ns) B) :
    AgreeOn P (behaviourOf h depth (n :: ns)) (A >>= fun _ => B) := by
  have hNone : Preserves P (fun _ => True) ((fun _ => (none : Option Value)) <$> A) :=
    hKeeps.map fun _ _ => trivial
  cases ns with
  | nil =>
    rw [behaviourOf_nil] at hRest
    rw [behaviourOf_single]
    refine hFirst.trans ?_
    rw [map_eq_pure_bind]
    exact .bind (.refl A) hKeeps fun _ _ => hRest
  | cons m ns =>
    rw [behaviourOf_cons]
    have hBoth := hFirst.bind hNone fun _ _ => hRest
    rwa [bind_map_left] at hBoth

/- Control never goes on after a branch or a return. -/
theorem behaviour_terminator (hHeld : Held h.ctx.tree f) (hEnds : f.instr.isTerminator = true) :
    ¬behaviour h depth f.id s (.ok v s') := by
  rcases f with ⟨n, instr, ty, cs⟩
  intro hEnd
  cases instr with
  | br target =>
    rw [behaviour_br hHeld] at hEnd
    cases hEnd
  | ret =>
    rw [behaviour_ret hHeld] at hEnd
    rcases hEnd with ⟨_, hFail⟩
    cases hFail
  | _ => cases hEnds

theorem lastTy?_snoc (fs : List Fragment) (f : Fragment) : lastTy? (fs ++ [f]) = lastTy? [f] := by
  simp [lastTy?]

theorem lastTy?_eq_none (hNone : lastTy? (fs ++ [f]) = none) : f.ty = .none := by
  rw [lastTy?_snoc] at hNone
  cases hTy : f.ty with
  | none => rfl
  | machine | ref => simp [lastTy?, hTy, ValueType.isNone] at hNone

namespace Runs

variable {es : List Expr}

/- A statement before others. -/
theorem cons (hRuns : Runs h depth Γ result L (e' :: es) keep fs)
    (hCarries : Carries h depth Γ result L e f) (hDiscards : Discards false f g) :
    Runs h depth Γ result L (e :: e' :: es) keep (g :: fs) := by
  have hKeeps : Preserves (Fitting Γ) (fun _ => True) (lifted (σ := σ) L (meaning Γ result e)) :=
    lifted_keeps L ((meaning_keeps e).mono fun _ _ => trivial)
  cases hRuns with
  | silent hTy hType hAgrees =>
    refine .silent ?_ ?_ fun hHeld => ?_
    · rcases fs with _ | ⟨f', fs⟩
      · exact lastTy?_single (w := none) hDiscards.blank
      · rw [lastTy?_cons, hTy]
    · intro hKeep
      simpa only [lastType] using hType hKeep
    · have hFirst := hCarries.discarded hDiscards (hHeld g (.head _))
      have hRest := hAgrees fun f hMem => hHeld f (.tail _ hMem)
      rw [meaningAll_cons, lifted_bind, map_bind]
      exact behaviourOf_quiet hKeeps hFirst hRest
  | @valued before last w A B hKeep hParts hKeepsA hFront hLast hSame =>
    have hAll : g :: fs = (g :: before) ++ [last] := by
      rw [hParts]
      rfl
    refine .valued (A := lifted L (meaning Γ result e) >>= fun _ => A)
      hKeep hAll (hKeeps.bind fun _ _ => hKeepsA)
      (fun hHeld => ?_) hLast ?_
    · have hFirst := hCarries.discarded hDiscards (hHeld g (.head _))
      have hRest := hFront fun f hMem => hHeld f (.tail _ hMem)
      exact behaviourOf_quiet hKeeps hFirst hRest
    · rw [meaningAll_cons, lifted_bind, bind_assoc]
      exact .bind (.refl _) hKeeps fun _ _ => hSame

/- The last statement. -/
theorem single (hCarries : Carries h depth Γ result L e f)
    (hTyped : f.ty = codeType (typeOf Γ e) ∨ keep = false ∧ f.ty = .none)
    (hDiscards : Discards keep f g) : Runs h depth Γ result L [e] keep [g] := by
  cases keep with
  | false =>
    refine .silent (lastTy?_single (w := none) hDiscards.blank) (by simp) fun hHeld => ?_
    rw [meaningAll_single]
    refine .trans ?_ (hCarries.discarded hDiscards (hHeld g (.head _)))
    exact .of_eq (behaviourOf_single g.id)
  | true =>
    cases hDiscards
    cases hCarries with
    | value hType hComputes =>
      have hValue := lifted_agree (σ := σ) L (meaning_value result hType)
      refine .valued rfl (nil_append [f]).symm (.pure trivial)
        (fun _ => .of_eq behaviourOf_nil) hComputes ?_
      rw [pure_bind, meaningAll_single, ← lifted_map]
      exact hValue
    | effect hTy hAgrees =>
      refine .silent (lastTy?_single (w := none) hTy) ?_ fun hHeld => ?_
      · intro _
        have hCode := hTyped.resolve_right (by simp)
        rw [hTy] at hCode
        simp only [lastType]
        cases hWidth : typeOf Γ e with
        | none => rfl
        | some w =>
          rw [hWidth] at hCode
          exact absurd hCode.symm w.type_ne_none
      · rw [meaningAll_single]
        refine .trans ?_ (hAgrees (hHeld f (.head _)))
        exact .of_eq (behaviourOf_single f.id)

/- Nothing for nothing. -/
theorem of_quiet (hMeaning : meaningAll Γ result es = pure none) (hType : lastType Γ es = none) :
    Runs h depth Γ result L es keep [] := by
  refine .silent rfl (fun _ => hType) fun _ => ?_
  rw [hMeaning, lifted_pure, map_pure]
  exact .of_eq behaviourOf_nil

/- An empty statement before others. -/
theorem skip (hRuns : Runs h depth Γ result L (e :: es) keep fs) :
    Runs h depth Γ result L (.skip :: e :: es) keep fs := by
  have hMeaning : meaningAll Γ result (.skip :: e :: es) = meaningAll Γ result (e :: es) := by
    rw [meaningAll_cons, meaning_skip, pure_bind]
  cases hRuns with
  | silent hTy hType hAgrees =>
    refine .silent hTy ?_ (hMeaning ▸ hAgrees)
    simpa only [lastType] using hType
  | valued hKeep hParts hKeeps hFront hLast hSame =>
    exact .valued hKeep hParts hKeeps hFront hLast (hMeaning ▸ hSame)

/- Code that leaves no value, as it has to if none is wanted. -/
theorem quiet (hRuns : Runs h depth Γ result L es keep fs)
    (hQuiet : lastTy? fs = none ∨ keep = false) :
    (keep = true → lastType Γ es = none) ∧ ((∀ f ∈ fs, Held h.ctx.tree f) →
        AgreeOn (Fitting Γ) (behaviourOf h depth (fs.map (·.id)))
          ((fun _ => none) <$> lifted L (meaningAll Γ result es))) := by
  cases hRuns with
  | silent _ hType hAgrees => exact ⟨hType, hAgrees⟩
  | valued hKeep hParts _ _ hLast =>
    rcases hQuiet with hTy | hDrop
    · exact absurd (lastTy?_eq_none (hParts ▸ hTy)) hLast.ne_none
    · cases hKeep.symm.trans hDrop

end Runs

-- Arms

variable {es : List Expr}

namespace Runs

/- Statements that leave a value, which is cast. -/
theorem promoted (hGives : ∀ v, φ (some v) = some (resize w v))
    (hRuns : Runs h depth Γ result L es true (before ++ [last])) (hSome : last.ty ≠ .none)
    (hTy : ty.held? = some w.machine) (hCast : Casts true ty last last')
    (hHeld : ∀ f ∈ before ++ [last'], Held h.ctx.tree f) :
    AgreeOn (Fitting Γ) (behaviourOf h depth ((before ++ [last']).map (·.id)))
      (φ <$> lifted L (meaningAll Γ result es)) := by
  cases hRuns with
  | silent hNone => exact absurd (lastTy?_eq_none hNone) hSome
  | @valued _ _ _ A B _ hParts hKeeps hFront hLast hSame =>
    rcases append_inj' hParts rfl with ⟨rfl, hSingle⟩
    cases hSingle
    have hBefore := hFront fun f hMem => hHeld f (mem_append_left _ hMem)
    have hValue := hLast.results hTy hCast (hHeld last' (mem_append_right _ (.head _)))
    rw [map_append, map_singleton, behaviourOf_snoc]
    refine (hBefore.bind hKeeps fun _ _ => hValue).trans ?_
    have hMapped : φ <$> (A >>= fun _ => some <$> B) = A >>= fun _ => some <$> resize w <$> B := by
      simp only [map_bind, Functor.map_map, hGives]
    rw [← hMapped]
    exact hSame.map _

/- Statements that leave no value, and a zero in its place. -/
theorem padded (hRuns : Runs h depth Γ result L es true fs) (hTy : lastTy? fs = none)
    (hHeld : ∀ f ∈ fs ++ [.leaf n (.const 0) w.type], Held h.ctx.tree f) :
    AgreeOn (Fitting Γ) (behaviourOf h depth
        ((fs ++ [Fragment.leaf n (.const 0) w.type]).map (·.id)))
      (settle (some w) <$> lifted L (meaningAll Γ result es)) := by
  rcases hRuns.quiet (.inl hTy) with ⟨hType, hAgrees⟩
  have hFront := hAgrees fun f hMem => hHeld f (mem_append_left _ hMem)
  have hZero : Computes h depth (Fitting Γ) (.leaf n (.const 0) w.type) w (pure (w.value 0)) :=
    .const (widthOf_value w 0) (by cases w <;> rfl) rfl
  have hLast := hZero.agrees (hHeld _ (mem_append_right _ (.head _)))
  have hNone := lifted_agree (σ := σ) L (meaningAll_none result (hType rfl))
  rw [lifted_map] at hNone
  rw [map_append, map_singleton, behaviourOf_snoc]
  refine (hFront.bind (lifted_none_keeps es) fun _ _ => hLast).trans ?_
  refine .trans (.of_eq ?_) (hNone.symm.map (settle (some w)))
  rw [bind_map_left, map_pure, bind_pure_comp, Functor.map_map]
  rfl

/- Code does what statements mean, but for their value. -/
theorem exists_agrees (hRuns : Runs h depth Γ result L es keep fs) :
    ∃ φ : Option Value → Option Value, (∀ f ∈ fs, Held h.ctx.tree f) →
        AgreeOn (Fitting Γ) (behaviourOf h depth (fs.map (·.id)))
          (φ <$> lifted L (meaningAll Γ result es)) := by
  cases hRuns with
  | silent _ _ hAgrees => exact ⟨_, hAgrees⟩
  | valued _ hParts hKeeps hFront hLast hSame =>
    refine ⟨id, fun hHeld => ?_⟩
    rw [hParts] at hHeld ⊢
    have hBefore := hFront fun f hMem => hHeld f (mem_append_left _ hMem)
    have hValue := hLast.agrees (hHeld _ (mem_append_right _ (.head _)))
    rw [map_append, map_singleton, behaviourOf_snoc, id_map]
    exact (hBefore.bind hKeeps fun _ _ => hValue).trans hSame

/- Statements that are left in any case. -/
theorem terminated (φ : Option Value → Option Value)
    (hRuns : Runs h depth Γ result L es keep (before ++ [last]))
    (hEnds : last.instr.isTerminator = true) (hHeld : ∀ f ∈ before ++ [last], Held h.ctx.tree f) :
    AgreeOn (Fitting Γ) (behaviourOf h depth ((before ++ [last]).map (·.id)))
      (φ <$> lifted L (meaningAll Γ result es)) := by
  rcases hRuns.exists_agrees with ⟨_, hAgrees⟩
  refine (hAgrees hHeld).map_never φ fun s v s' hEnd => ?_
  rw [map_append, map_singleton, behaviourOf_snoc] at hEnd
  rcases hEnd with ⟨_, hEnd⟩
  exact behaviour_terminator (hHeld last (mem_append_right _ (.head _))) hEnds hEnd

/- An arm gives the value that its conditional has. -/
theorem settled (hRuns : Runs h depth Γ result L es true arm.children)
    (hSettles : Settles (codeType W) arm arm') (hHeld : ∀ f ∈ arm'.children, Held h.ctx.tree f) :
    AgreeOn (Fitting Γ) (behaviourOf h depth (arm'.children.map (·.id)))
      (settle W <$> lifted L (meaningAll Γ result es)) := by
  cases hSettles with
  | same hTy =>
    have hParts := hRuns
    replace hTy : lastTy? arm.children = some (codeType W) := hTy
    cases hParts with
    | silent hNone => cases hNone.symm.trans hTy
    | @valued _ last w _ _ _ hParts _ _ hLast =>
      have hType : last.ty = codeType W := by
        rw [hParts, lastTy?_snoc] at hTy
        simp only [lastTy?, getLast?_singleton, Option.map_some, Option.filter_eq_some_iff,
          Option.some.injEq] at hTy
        exact hTy.1
      rcases W with _ | w
      · exact absurd hType hLast.ne_none
      rw [hParts] at hRuns hHeld ⊢
      exact hRuns.promoted (fun _ => rfl) hLast.ne_none rfl (.keep (if_pos hType)) hHeld
  | @promote before last last' hChildren hNone _ hCast =>
    rcases W with _ | w
    · exact absurd (hCast.none_iff.mpr rfl) hNone
    · rw [hChildren] at hRuns
      exact hRuns.promoted (fun _ => rfl) hNone rfl hCast hHeld
  | zero hTy hNone =>
    rcases W with _ | w
    · exact absurd rfl hNone
    · exact hRuns.padded hTy hHeld
  | blank hTy hNone =>
    rcases hNone with hNone | hEnds
    · rcases W with _ | w
      · exact (hRuns.quiet (.inl hTy)).2 hHeld
      · exact absurd hNone w.type_ne_none
    rcases hLast : arm.children.getLast? with _ | last
    · rw [Fragment.terminates, hLast] at hEnds
      cases hEnds
    rw [Fragment.terminates, hLast, Option.any_some] at hEnds
    rcases getLast?_eq_some_iff.mp hLast with ⟨before, hParts⟩
    rw [hParts] at hRuns hHeld ⊢
    exact hRuns.terminated (settle W) hEnds hHeld

end Runs

end Integral

-- Control

namespace Translation

/- The value of a condition is held as an integer. -/
theorem Tests.held (hTests : Tests fold f g) : ∃ w : Width, f.ty.held? = some w.machine := by
  cases hTests with
  | narrow hTy | ref hTy => exact ⟨.narrow, by rw [hTy]; rfl⟩
  | wide hTy => exact ⟨.wide, by rw [hTy]; rfl⟩

theorem Tests.ne_none (hTests : Tests fold f g) : f.ty ≠ .none := by
  rcases hTests.held with ⟨_, hHeld⟩
  exact ValueType.ne_none_of_held? hHeld

theorem BranchesOn.held (hBranches : BranchesOn fold truth f g) :
    ∃ w : Width, f.ty.held? = some w.machine := by
  cases hBranches with
  | direct hTests | inverted hTests => exact hTests.held

theorem BranchesOn.ne_none (hBranches : BranchesOn fold truth f g) : f.ty ≠ .none := by
  rcases hBranches.held with ⟨_, hHeld⟩
  exact ValueType.ne_none_of_held? hHeld

theorem ShortCircuits.operands (hShort : ShortCircuits fold ⟨n, .cond, ty, [left, right]⟩ isAnd g) :
    g.ty = .i32 ∧ (∀ raw, g.instr ≠ .const raw) ∧ (∃ w : Width, left.ty.held? = some w.machine)
      ∧ ∃ w : Width, right.ty.held? = some w.machine := by
  cases hShort with
  | conjunction hChildren hTests hDecides | disjunction hChildren hTests hDecides =>
    cases hChildren
    cases hDecides with
    | boolean hRight | compare hRight => exact ⟨rfl, by simp, hTests.held, hRight.held⟩

end Translation

namespace Integral

variable {σ : Type} {h : Host σ}

/- A second arm, which may be left out if nothing is in it. -/
def SecondArm (arm : Fragment) (rest : List Fragment) : Prop :=
  rest = [arm] ∨ rest = [] ∧ arm.children = []

theorem secondArm_nonempty (arm : Fragment) : SecondArm arm (nonempty arm) := by
  unfold nonempty
  split
  · rename_i hEmpty
    exact .inr ⟨rfl, isEmpty_iff.mp hEmpty⟩
  · exact .inl rfl

theorem secondArm_settled (ty : ValueType) (arm : Fragment) : SecondArm arm (secondArm ty arm) := by
  unfold secondArm
  split
  · exact secondArm_nonempty arm
  · exact .inl rfl

theorem SecondArm.held {h : Host σ} (hSecond : SecondArm arm rest)
    (hHeld : ∀ f ∈ rest, Held h.ctx.tree f) : ∀ f ∈ arm.children, Held h.ctx.tree f := by
  rcases hSecond with rfl | ⟨_, hEmpty⟩
  · exact fun f hMem => (hHeld arm (.head _)).child hMem
  · rw [hEmpty]
    exact fun f hMem => absurd hMem not_mem_nil

/- The arm that a truth value picks. -/
theorem behaviourOfArm_eq (hSecond : SecondArm second rest) (v : Value) :
    behaviourOfArm h depth (first :: rest) (some v) = if v.isTrue then
          behaviourOf h depth (first.children.map (·.id))
        else behaviourOf h depth (second.children.map (·.id)) := by
  cases hTrue : v.isTrue with
  | true => exact behaviourOfArm_some (if_pos hTrue)
  | false =>
    have hPicked : picked (first :: rest) v = rest[0]? := by
      rw [picked, hTrue]
      exact getElem?_cons_succ
    rcases hSecond with rfl | ⟨rfl, hEmpty⟩
    · exact behaviourOfArm_some hPicked
    · refine (behaviourOfArm_none hPicked).trans ?_
      rw [hEmpty]
      exact behaviourOf_nil.symm

theorem behaviourOf_cons_of_ne (n : NodeId) (hSome : ns ≠ []) :
    behaviourOf h depth (n :: ns) = behaviour h depth n >>= fun _ => behaviourOf h depth ns := by
  cases ns with
  | nil => exact absurd rfl hSome
  | cons m ns => exact behaviourOf_cons n m ns

namespace Supplies

variable {P : State σ → Prop} {c c' : Fragment}
variable {B : Behaviour Exit (State σ) Value}

/- A conditional goes on with the arm that its condition picks. -/
theorem picks (hTest : Supplies h depth P c w B)
    (hTests : Tests fold c c') (hSecond : SecondArm second rest)
    (hHeld : Held h.ctx.tree ⟨n, .cond, ty, c' :: first :: rest⟩)
    (hYes : AgreeOn P (behaviourOf h depth (first.children.map (·.id))) Y)
    (hNo : AgreeOn P (behaviourOf h depth (second.children.map (·.id))) N) :
    AgreeOn P (behaviour h depth n) (B >>= fun v => if v.isTrue then Y else N) := by
  rcases hTest.tests hTests with ⟨t, hTruth, hC, _⟩
  rw [behaviour_cond hHeld]
  refine (hC.operand (hHeld.child (.head _)) _).trans ?_
  rw [bind_map_left]
  refine .bind (.refl B) hTest.keeps fun v _ => ?_
  rw [behaviourOfArm_eq hSecond, hTruth]
  split
  · exact hYes
  · exact hNo

/-
  Two operands of which the first one decides whether the second
  one is evaluated, and what the result is if not.
-/
theorem shortCircuits (hLeft : Supplies h depth P left u B)
    (hRight : Supplies h depth P right w C) (hExact : Exact right w)
    (hShort : ShortCircuits fold ⟨n, .cond, ty', [left, right]⟩ isAnd g)
    (hHeld : Held h.ctx.tree { g with ty }) :
    AgreeOn P (behaviour h depth g.id) (B >>= fun v =>
      if v.isTrue = isAnd then (fun x => some (.ofBool x.isTrue)) <$> C
      else pure (some (.ofBool !isAnd))) := by
  have hLiteral : ∀ {k : NodeId} {b : Bool},
      Held h.ctx.tree (.leaf k (.const (if b then 1 else 0)) .i32) →
      AgreeOn P (behaviourOf h depth [k]) (pure (some (.ofBool b))) := by
    intro k b hLeaf
    rw [behaviourOf_single]
    refine .of_eq (behaviour_const hLeaf ?_)
    cases b <;> rfl
  cases hShort with
  | conjunction hChildren hTests hDecides =>
    cases hChildren
    have hThen := hHeld.child (.tail _ (.head _))
    have hElse := hHeld.child (.tail _ (.tail _ (.head _)))
    have hYes := (hRight.decides hExact hDecides).1.agrees (hThen.child (.head _))
    rw [← behaviourOf_single, Functor.map_map] at hYes
    exact hLeft.picks hTests (.inl rfl) hHeld hYes (hLiteral (b := false) (hElse.child (.head _)))
  | disjunction hChildren hTests hDecides =>
    cases hChildren
    have hThen := hHeld.child (.tail _ (.head _))
    have hElse := hHeld.child (.tail _ (.tail _ (.head _)))
    have hNo := (hRight.decides hExact hDecides).1.agrees (hElse.child (.head _))
    rw [← behaviourOf_single, Functor.map_map] at hNo
    refine (hLeft.picks hTests (.inl rfl) hHeld
      (hLiteral (b := true) (hThen.child (.head _))) hNo).trans (.of_eq ?_)
    refine bind_congr fun v => ?_
    cases v.isTrue <;> rfl

/- A branch that is taken unless a condition has its truth. -/
theorem brIf (hTest : Supplies h depth P c w B)
    (hBranches : BranchesOn fold truth c c') (hHeld : Held h.ctx.tree ⟨n, .brIf target, ty, [c']⟩) :
    AgreeOn P (behaviour h depth n) (B >>= fun v =>
        if v.isTrue = truth then pure none
        else .fail (.branch target)) := by
  rcases hTest.branches hBranches with ⟨t, hTruth, hC⟩
  rw [behaviour_operand hHeld rfl]
  refine (hC.operand (hHeld.child (.head _)) _).trans ?_
  rw [bind_map_left]
  refine .bind (.refl B) hTest.keeps fun v _ => .of_eq ?_
  simp only [demand, pure_bind, hTruth]
  by_cases hSame : v.isTrue = truth
  · rw [if_pos hSame, hSame, bne_self_eq_false]
    exact once_pure none
  · rw [if_neg hSame, bne_iff_ne.mpr hSame]
    exact once_throw (by simp)

variable {block loop : NodeId} {C : Behaviour Exit (State σ) (Option Value)}

/- A loop that tests its condition first. -/
theorem testedLoop (hTest : Supplies h depth P c w B) (hBranches : BranchesOn fold truth c c')
    (hKeeps : Preserves P (fun _ => True) C)
    (hBody : AgreeOn P (behaviourOf h depth (fs.map (·.id))) C)
    (hHeld :
      Held h.ctx.tree ⟨block, .block, ty, [⟨loop, .loop, .none, ⟨exit, .brIf block, .none, [c']⟩
        :: (fs ++ [.leaf back (.br loop) .none])⟩]⟩) :
    AgreeOn P (behaviour h depth block)
      (Behaviour.Iterates (afterRound loop block) (testedRound truth B C)) := by
  have hLoop := hHeld.child (.head _)
  have hExit := hTest.brIf hBranches (hLoop.child (.head _))
  have hBack : behaviour h depth back = .fail (.branch loop) :=
    behaviour_br (hLoop.child (.tail _ (mem_append_right _ (.head _))))
  refine behaviour_rounds (some block) (by simp) hHeld (hTest.keeps.bind fun v _ =>
    .ite (hKeeps.bind fun _ _ => .pure trivial) (.pure trivial)) ?_
  have hKeepsExit : Preserves P (fun _ => True) (B >>= fun v =>
        if v.isTrue = truth then pure (none : Option Value) else .fail (.branch block)) :=
    hTest.keeps.bind fun v _ => .ite (.pure trivial) (.fail _)
  rw [map_cons, map_append, map_singleton, behaviourOf_cons_of_ne exit (by simp), behaviourOf_snoc]
  refine (hExit.bind hKeepsExit fun _ _ => hBody.bind hKeeps fun _ _ => .of_eq hBack).trans ?_
  rw [testedRound, bind_assoc, bind_assoc]
  refine .of_eq (bind_congr fun v => ?_)
  by_cases hSame : v.isTrue = truth
  · simp only [if_pos hSame, bind_assoc, pure_bind]
    rfl
  · simp only [if_neg hSame, pure_bind, Behaviour.fail_bind]
    rfl

/- A loop that tests its condition last. -/
theorem postTestedLoop (hTest : Supplies h depth P c w B)
    (hBranches : BranchesOn fold (!truth) c c') (hKeeps : Preserves P (fun _ => True) C)
    (hBody : AgreeOn P (behaviourOf h depth (fs.map (·.id))) C)
    (hHeld : Held h.ctx.tree ⟨block, .block, ty, [⟨loop, .loop, .none,
        fs ++ [⟨again, .brIf loop, .none, [c']⟩]⟩]⟩) :
    AgreeOn P (behaviour h depth block)
      (Behaviour.Iterates (afterRound loop block) (postTestedRound truth B C)) := by
  have hLoop := hHeld.child (.head _)
  have hAgain := hTest.brIf hBranches (hLoop.child (mem_append_right _ (.head _)))
  refine behaviour_rounds none nofun hHeld
    (hKeeps.bind fun _ _ => hTest.keeps.bind fun v _ => .pure trivial) ?_
  rw [map_append, map_singleton, behaviourOf_snoc]
  refine (hBody.bind hKeeps fun _ _ => hAgain).trans ?_
  simp only [postTestedRound, bind_assoc, pure_bind]
  refine .of_eq (bind_congr fun _ => ?_)
  refine bind_congr fun v => ?_
  cases v.isTrue <;> cases truth <;> rfl

end Supplies

/- Code that does all that an expression means. -/
theorem Carries.of_agrees (hTy : f.ty = codeType (typeOf Γ e))
    (hConst : ∀ raw, f.instr ≠ .const raw)
    (hAgrees : ∀ ty : ValueType, Held h.ctx.tree { f with ty } →
        AgreeOn (Fitting Γ) (behaviour h depth f.id) (lifted L (meaning Γ result e))) :
    Carries h depth Γ result L e f := by
  cases hType : typeOf Γ e with
  | none =>
    rw [hType] at hTy
    have hLast : lastType Γ [e] = none := by simp only [lastType, hType]
    have hNone := meaningAll_none result hLast
    rw [meaningAll_single] at hNone
    refine .effect hTy fun hHeld => ?_
    rw [← lifted_map]
    refine .trans ?_ (lifted_agree L hNone)
    cases f
    exact hAgrees _ hHeld
  | some w =>
    rw [hType] at hTy
    refine .value hType (.of_silent (by rw [hTy]; rfl) ?_ hConst fun ty hHeld => ?_)
    · refine lifted_keeps L ((valueOf_keeps e).mono fun v hWidth => ?_)
      exact Option.some.inj (hWidth.symm.trans hType)
    · rw [← lifted_map]
      exact (hAgrees ty hHeld).trans (lifted_agree L (meaning_value result hType)).symm

/- What a conditional means on the machine. -/
theorem lifted_cond (test : Expr) (yes no : List Expr) :
    (lifted L (meaning Γ result (.cond test yes no)) : Behaviour Exit (State σ) (Option Value))
      = lifted L (valueOf Γ result test) >>= fun c =>
        let W := joinArms (lastType Γ yes) (lastType Γ no)
        if c.isTrue then settle W <$> lifted L (meaningAll Γ result yes)
        else settle W <$> lifted L (meaningAll Γ result no) := by
  rw [meaning_cond, lifted_bind]
  refine bind_congr fun c => ?_
  rw [lifted_map, lifted_ite]
  split <;> rfl

end Integral

end RubyWat
