import RubyWat.Proofs.Statements

/-
  Code does what statements mean.

  There is a lemma for each construct, from the code of its parts to its own.

  Main statement: code that is emitted for statements runs them (`emits_simulates`).
-/

-- Constructs

namespace RubyWat

open Code Machine Integral List ValueType

variable {truth : Bool} {c c' f f' : Fragment}
variable {block n : NodeId}
variable {a e test : Expr} {w : Width}
variable {fs : List Fragment}
variable {body : List Expr}

namespace Integral

open Translation

variable {σ : Type} {h : Host σ} {depth : Nat} {Γ : Scope} {result : Option Width}
variable {L : Option (NodeId × NodeId)} {fold : Bool}

theorem Alters.ne_none (hAlters : Alters fold n f op g) : f.ty ≠ .none := by
  cases hAlters with
  | minus hTy | complement hTy | native hTy =>
    rw [hTy]
    exact Width.type_ne_none _

theorem Combines.ne_none (hCombines : Combines fold n f f' op g) :
    f.ty ≠ .none ∧ f'.ty ≠ .none := by
  cases hCombines with
  | arith hLeft hRight | relation hLeft hRight =>
    exact ⟨ne_none_of_held? hLeft, ne_none_of_held? hRight⟩

namespace Carries

theorem int (value : Int64) (n : NodeId) : Carries h depth Γ result L (.int value)
      (.leaf n (.const value) (Width.ofLiteral value).type) := by
  have hNumber : ((Width.ofLiteral value).value value).toInt64 = value := by
    unfold Width.ofLiteral
    split
    · assumption
    · rfl
  refine of_meaning (w := .ofLiteral value) (by simp only [typeOf])
    ((meaning_int value).trans (map_pure _ _).symm) ?_
  rw [lifted_pure]
  exact .const (widthOf_value _ _) (congrArg Instr.const hNumber.symm) rfl

theorem bool (b : Bool) (n : NodeId) : Carries h depth Γ result L (.bool b)
      (.leaf n (.const (if b then 1 else 0)) Width.narrow.type) := by
  refine of_meaning (w := .narrow) (by simp only [typeOf])
    ((meaning_bool b).trans (map_pure _ _).symm) ?_
  rw [lifted_pure]
  exact .const (widthOf_ofBool b) (by cases b <;> rfl) rfl

theorem get (n : NodeId) (hVar : Γ.lookup x = some w) :
    Carries h depth Γ result L (.get x) (.leaf n (.localGet x) w.type) := by
  refine of_meaning (by simp only [typeOf, hVar]) ?_ (.reads n hVar)
  rw [meaning_get, once_map]

/- A value that is stored, from what is stored. -/
theorem stores {a : Width} (hType : typeOf Γ e = Γ.lookup x) (hMeaning :
      meaning Γ result e = V >>= fun v => once .timeout (do writeVar x v; some <$> readVar x))
    (hValue : Computes h depth (Fitting Γ) f a (lifted L V))
    (hStores : Stores Γ x keep f g) : Carries h depth Γ result L e g := by
  cases hStores with
  | @intro w value' n hVar hCasts =>
    cases keep with
    | true =>
      refine of_meaning (hType.trans hVar) ?_ (hValue.tees n hVar hCasts)
      rw [hMeaning, map_bind]
      simp only [once_bind, once_map, map_bind]
    | false =>
      refine effect rfl fun hHeld => ?_
      rw [hMeaning]
      exact sets_agrees hVar hValue hCasts hHeld

theorem unary (hValue : Carries h depth Γ result L e f)
    (hAlters : Alters fold n f op g) : Carries h depth Γ result L (.unary op e) g := by
  rcases hValue.computes hAlters.ne_none with ⟨w, hType, hF⟩
  have hCode := hF.alters hAlters
  rw [← lifted_map] at hCode
  refine of_meaning (by simp only [typeOf, hType, Option.map_some]) ?_ hCode
  rw [meaning_unary, Functor.map_map, bind_pure_comp]

theorem binary (hLeft : Carries h depth Γ result L a f) (hRight : Carries h depth Γ result L b f')
    (hCombines : Combines fold n f f' op g) : Carries h depth Γ result L (.binary op a b) g := by
  rcases hLeft.computes hCombines.ne_none.1 with ⟨u, hTypeA, hF⟩
  rcases hRight.computes hCombines.ne_none.2 with ⟨v, hTypeB, hF'⟩
  have hCode := hF.combines hF' hCombines
  simp only [← lifted_divided L, ← lifted_bind] at hCode
  refine of_meaning ?_ ?_ hCode
  · simp only [typeOf, hTypeA, hTypeB]
    rfl
  · rw [meaning_binary]
    simp only [map_bind, once_map]

theorem update (hVar : Γ.lookup x = some w) (hValue : Carries h depth Γ result L e f)
    (hCombines : Combines fold n (.leaf k (.localGet x) w.type) f op g)
    (hStores : Stores Γ x keep g g') : Carries h depth Γ result L (.update x op e) g' := by
  rcases hValue.computes hCombines.ne_none.2 with ⟨v, _, hF⟩
  have hCode := (Computes.reads (L := L) k hVar).combines hF hCombines
  simp only [← lifted_divided L, ← lifted_bind] at hCode
  refine stores (by simp only [typeOf]) ?_ hCode hStores
  rw [meaning_update]
  simp only [bind_assoc, once_bind]

theorem cast (hValue : Carries h depth Γ result L e f)
    (hCasts : Casts signed w.type f g) : Carries h depth Γ result L (.cast w signed e) g := by
  have hTy := mt hCasts.none_iff.mp w.type_ne_none
  rcases hValue.computes hTy with ⟨a, _, hF⟩
  have hCode := hF.casts rfl hCasts
  rw [← lifted_map] at hCode
  refine of_meaning (by simp only [typeOf]) ?_ hCode
  rw [meaning_cast, Functor.map_map, bind_pure_comp]

theorem logical (hLeft : Carries h depth Γ result L a f) (hRight : Carries h depth Γ result L b f')
    (hShort : ShortCircuits fold ⟨n, .cond, .none, [f, f']⟩ isAnd g) :
    Carries h depth Γ result L (if isAnd then .both a b else .either a b) g := by
  rcases hShort.operands with ⟨hTy, hConst, ⟨_, hTyF⟩, ⟨_, hTyF'⟩⟩
  rcases hLeft.computes (ne_none_of_held? hTyF) with ⟨u, _, hF⟩
  rcases hRight.computes (ne_none_of_held? hTyF') with ⟨v, _, hF'⟩
  refine of_agrees (hTy.trans (by cases isAnd <;> simp [typeOf] <;> rfl)) hConst fun ty hHeld => ?_
  refine (hF.shortCircuits hF'.toSupplies hF'.exact hShort hHeld).trans (.of_eq ?_)
  cases isAnd
  all_goals
    simp only [if_true, Bool.false_eq_true, if_false, meaning_both, meaning_either, lifted_bind]
    refine bind_congr fun v => ?_
    cases v.isTrue <;> simp [lifted_map, lifted_pure]

/- A conditional whose value is not wanted. -/
theorem cond_statement (second : Fragment)
    (hTest : Carries h depth Γ result L test c) (hTests : Tests fold c c')
    (hYes : Runs h depth Γ result L yes false first.children)
    (hNo : Runs h depth Γ result L no false second.children) (hArm : SecondArm second rest) :
    Carries h depth Γ result L (.cond test yes no) ⟨n, .cond, .none, c' :: first :: rest⟩ := by
  rcases hTest.computes hTests.ne_none with ⟨w, _, hC⟩
  refine effect rfl fun hHeld => ?_
  have hFirst := hHeld.child (.tail _ (.head _))
  have hSecond := hArm.held fun f hMem => hHeld.child (.tail _ (.tail _ hMem))
  have hPicks := hC.picks hTests hArm hHeld ((hYes.quiet (.inr rfl)).2 fun _ => hFirst.child)
    ((hNo.quiet (.inr rfl)).2 hSecond)
  refine hPicks.trans (.of_eq ?_)
  rw [lifted_cond, map_bind]
  refine bind_congr fun v => ?_
  dsimp only
  split <;> rw [Functor.map_map]

theorem cond {a : NodeId} (hTest : Carries h depth Γ result L test c)
    (hTests : Tests fold c c') (hYes : Runs h depth Γ result L yes keep fs)
    (hNo : Runs h depth Γ result L no keep gs)
    (hTypes :
      f.ty = codeType (joinArms (lastType Γ yes) (lastType Γ no)) ∨ keep = false ∧ f.ty = .none)
    (hElse : (∃ b, rest = [⟨b, .elseArm, .none, gs⟩]) ∨ rest = [] ∧ no = [])
    (hFinish : FinishesIf ⟨n, .cond, .none, c' :: ⟨a, .thenArm, .none, fs⟩ :: rest⟩ keep f) :
    Carries h depth Γ result L (.cond test yes no) f := by
  rcases hTest.computes hTests.ne_none with ⟨w, _, hC⟩
  have hNothing : Runs h depth Γ result L [] keep [] :=
    .of_quiet meaningAll_nil (by simp only [lastType])
  cases hFinish with
  | @value _ _ _ e ty t' e' hChildren hRest _ hThen hSecond =>
    cases hChildren
    have hTy := hTypes.resolve_right (by simp)
    dsimp only at hTy
    subst hTy
    have hRuns : Runs h depth Γ result L no true e.children := by
      rcases hRest with rfl | ⟨rfl, k, rfl⟩
      · rcases hElse with ⟨b, hArm⟩ | ⟨hNil, _⟩
        · cases hArm
          exact hNo
        · cases hNil
      · rcases hElse with ⟨b, hArm⟩ | ⟨_, rfl⟩
        · cases hArm
        · exact hNothing
    refine of_agrees (by simp only [typeOf]) (by simp) fun ty hHeld => ?_
    have hArm := secondArm_settled (codeType (joinArms (lastType Γ yes) (lastType Γ no))) e'
    have hFirst := hHeld.child (.tail _ (.head _))
    have hHeldElse := hArm.held fun f hMem => hHeld.child (.tail _ (.tail _ hMem))
    rw [lifted_cond]
    exact hC.picks hTests hArm hHeld (hYes.settled hThen fun _ => hFirst.child)
      (hRuns.settled hSecond hHeldElse)
  | statement hChildren =>
    cases hChildren
    rcases hElse with ⟨b, hArm⟩ | ⟨_, rfl⟩
    · cases hArm
    · exact cond_statement (.leaf n .elseArm .none) hTest hTests hYes hNothing (.inr ⟨rfl, rfl⟩)
  | @statementElse _ _ e hChildren =>
    cases hChildren
    rcases hElse with ⟨b, hArm⟩ | ⟨hNil, _⟩
    · cases hArm
      exact cond_statement _ hTest hTests hYes hNo (secondArm_nonempty _)
    · cases hNil

theorem loop {loop exit back : NodeId}
    (hTest : Carries h depth Γ result (some (loop, block)) test c)
    (hBranch : BranchesOn fold truth c c')
    (hBody : Runs h depth Γ result (some (loop, block)) body false fs) :
    Carries h depth Γ result L (.loop truth test body)
      ⟨block, .block, .none, [⟨loop, .loop, .none, ⟨exit, .brIf block, .none, [c']⟩
            :: (fs ++ [.leaf back (.br loop) .none])⟩]⟩ := by
  rcases hTest.computes hBranch.ne_none with ⟨w, _, hC⟩
  refine of_agrees (by simp only [typeOf]; rfl) (by simp) fun ty hHeld => ?_
  have hLoop := hHeld.child (.head _)
  have hFront := (hBody.quiet (.inr rfl)).2 fun f hMem =>
    hLoop.child (.tail _ (mem_append_left _ hMem))
  rw [meaning_loop, lifted_iterates L (block_ne_loop hHeld)]
  refine (hC.testedLoop hBranch (lifted_none_keeps body) hFront hHeld).trans (.of_eq ?_)
  simp only [testedRound, roundOf, lifted_bind, lifted_ite, lifted_pure, bind_map_left]

theorem postLoop {loop again : NodeId}
    (hBody : Runs h depth Γ result (some (loop, block)) body false fs)
    (hTest : Carries h depth Γ result (some (loop, block)) test c)
    (hBranch : BranchesOn fold (!truth) c c') :
    Carries h depth Γ result L (.postLoop truth test body)
      ⟨block, .block, .none, [⟨loop, .loop, .none, fs ++ [⟨again, .brIf loop, .none, [c']⟩]⟩]⟩ := by
  rcases hTest.computes hBranch.ne_none with ⟨w, _, hC⟩
  refine of_agrees (by simp only [typeOf]; rfl) (by simp) fun ty hHeld => ?_
  have hLoop := hHeld.child (.head _)
  have hFront := (hBody.quiet (.inr rfl)).2 fun f hMem => hLoop.child (mem_append_left _ hMem)
  rw [meaning_postLoop, lifted_iterates L (block_ne_loop hHeld)]
  refine (hC.postTestedLoop hBranch (lifted_none_keeps body) hFront hHeld).trans (.of_eq ?_)
  simp only [postTestedRound, postRoundOf, lifted_bind, lifted_pure, bind_map_left]

theorem leave {loop : NodeId} (n : NodeId) :
    Carries h depth Γ result (some (loop, block)) .leave (.leaf n (.br block) .none) := by
  refine of_agrees (by simp only [typeOf]; rfl) (by simp) fun ty hHeld => ?_
  rw [meaning_leave, lifted_fail]
  exact .of_eq (behaviour_br hHeld)

theorem again {loop : NodeId} (n : NodeId) :
    Carries h depth Γ result (some (loop, block)) .again (.leaf n (.br loop) .none) := by
  refine of_agrees (by simp only [typeOf]; rfl) (by simp) fun ty hHeld => ?_
  rw [meaning_again, lifted_fail]
  exact .of_eq (behaviour_br hHeld)

theorem ret (n : NodeId) : Carries h depth Γ result L .ret ⟨n, .ret, .none, []⟩ := by
  refine of_agrees (by simp only [typeOf]; rfl) (by simp) fun ty hHeld => ?_
  rw [meaning_ret, lifted_fail]
  refine .of_eq ((behaviour_ret hHeld).trans ?_)
  rw [map_nil, behaviourOf_nil, pure_bind]
  rfl

theorem retWith (hValue : Carries h depth Γ result L e f) (hNone : ty ≠ .none)
    (hResult : ty.held? = result.map Width.machine) (hCasts : Casts true ty f f') :
    Carries h depth Γ result L (.retWith e) ⟨n, .ret, .none, [f']⟩ := by
  rcases hValue.computes (mt hCasts.none_iff.mp hNone) with ⟨a, _, hF⟩
  rcases result with _ | w
  · cases ty with
    | none => exact absurd rfl hNone
    | machine | ref => cases hResult
  refine of_agrees (by simp only [typeOf]; rfl) (by simp) fun ty hHeld => ?_
  have hCast := hF.results hResult hCasts (hHeld.child (.head _))
  have hKeeps : Preserves (Fitting Γ) (fun _ => True) (some <$> resize w
          <$> lifted (σ := σ) L (valueOf Γ (some w) e)) :=
    (hF.keeps.map (R := fun _ => True) fun _ _ => trivial).map fun _ _ => trivial
  rw [behaviour_ret hHeld, map_singleton, behaviourOf_single]
  refine (hCast.bind hKeeps fun _ _ => .refl _).trans (.of_eq ?_)
  rw [meaning_retWith, lifted_bind, bind_map_left, bind_map_left]
  simp only [lifted_fail]
  rfl

end Carries

/- What code for a job does. -/
def Job.Simulated {σ : Type} (h : Host σ) (depth : Nat) (Γ : Scope) (result : Option Width)
    (L : Option (NodeId × NodeId)) : Job → Prop
  | .one e _ f => Carries h depth Γ result L e f
  | .all es keep fs => Runs h depth Γ result L es keep fs

/- The code of expressions and statements does what they mean. -/
theorem emits_simulates (hEmits : Emits S L job)
    (hResult : S.result.held? = result.map Width.machine) :
    job.Simulated h depth S.scope result L := by
  induction hEmits with
  | int => exact .int _ _
  | bool => exact .bool _ _
  | get hVar => exact .get _ hVar
  | set hValue hStores ih =>
    cases hStores with
    | intro hVar hCasts =>
      have hTy := mt hCasts.none_iff.mp (Width.type_ne_none _)
      rcases Carries.computes ih hTy with ⟨a, _, hF⟩
      exact .stores (by simp only [typeOf]) (meaning_set _ _) hF (.intro hVar hCasts)
  | update hVar _ hCombines hStores ih => exact .update hVar ih hCombines hStores
  | unary _ hAlters ih => exact .unary ih hAlters
  | binary _ _ hCombines ihLeft ihRight => exact .binary ihLeft ihRight hCombines
  | cast _ hCasts ih => exact .cast ih hCasts
  | logical _ _ hShort ihLeft ihRight => exact .logical ihLeft ihRight hShort
  | cond hTest hTests hYes hNo hElse hFinish ihTest ihYes ihNo =>
    exact .cond ihTest hTests ihYes ihNo
      (FinishesIf.ty_eq (emits_typed hYes) (emits_typed hNo) hElse hFinish) hElse hFinish
  | loop _ hBranch _ ihTest ihBody => exact .loop ihTest hBranch ihBody
  | postLoop _ _ hBranch ihBody ihTest => exact .postLoop ihBody ihTest hBranch
  | leave => exact .leave _
  | again => exact .again _
  | ret => exact .ret _
  | retWith _ hNone hCasts ih => exact .retWith ih hNone hResult hCasts
  | nil => exact .of_quiet meaningAll_nil (by simp only [lastType])
  | blank =>
    refine .of_quiet ?_ (by simp only [lastType, typeOf])
    rw [meaningAll_single, meaning_skip]
  | skip _ ih => exact .skip ih
  | last hOne hDiscards ih => exact .single ih (emits_typed hOne) hDiscards
  | next _ hDiscards _ ihOne ihRest => exact .cons ihRest ihOne hDiscards

end Integral

end RubyWat
