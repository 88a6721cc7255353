import RubyWat.Proofs.Operate

/-
  Conditionals, logical operators and returns as edits of fragments.

  Main statements: what the compiler does to a conditional, a logical operator or a return is
  what the rules of the translation say.
-/

-- Arms

namespace RubyWat

open Translation Code Step Option Context

variable {f : Fragment} {result : ValueType}

@[simp] theorem ValueType.isNone_iff (ty : ValueType) : ty.isNone = true ↔ ty = .none := by
  cases ty <;> simp [isNone]

@[simp] theorem ValueType.isNone_eq_false_iff (ty : ValueType) :
    ty.isNone = false ↔ ty ≠ .none := by
  cases ty <;> simp [isNone]

namespace Code

namespace Fragment

variable {last : Fragment} {before : List Fragment}

theorem lastType?_of_value (hChildren : f.children = before ++ [last]) (hNone : last.ty ≠ .none) :
    f.lastType? = some last.ty := by
  simp [lastType?, hChildren, hNone]

theorem lastType?_of_blank (hChildren : f.children = before ++ [last]) (hNone : last.ty = .none) :
    f.lastType? = none := by
  simp [lastType?, hChildren, hNone]

end Fragment

namespace Held

variable {t : Tree}

theorem lastChild? (hHeld : Held t f) :
    t.lastChild? f.id = f.children.getLast?.map Fragment.id := by
  rw [Tree.lastChild?, hHeld.children, List.getLast?_map]

theorem firstChild? (hHeld : Held t f) : t.firstChild? f.id = f.children.head?.map Fragment.id := by
  rw [Tree.firstChild?, hHeld.children, List.head?_map]

theorem last (hHeld : Held t f) (hLast : f.children.getLast? = some c) : Held t c :=
  hHeld.child (List.mem_of_getLast? hLast)

end Held

end Code

namespace Context

variable {ctx : Context}

theorem armType?_eq (hHeld : Held ctx.tree f) : ctx.armType? f.id = f.lastType? := by
  rw [armType?, hHeld.lastChild?, Fragment.lastType?]
  cases hLast : f.children.getLast? with
  | none => rfl
  | some c => simp only [map_some, (hHeld.last hLast).ty]

theorem armTerminates_eq (hHeld : Held ctx.tree f) : ctx.armTerminates f.id = f.terminates := by
  rw [armTerminates, hHeld.lastChild?, Fragment.terminates]
  cases hLast : f.children.getLast? with
  | none => rfl
  | some c => simp only [map_some, any_some, (hHeld.last hLast).instr]

end Context

namespace Build

variable {ctx ctx' : Context} {p n : NodeId}

theorem keepOrDrop_ok (hHung : Hung ctx.tree p f) (hRun : keepOrDrop f.id keep ctx = .ok n ctx') :
    ∃ g, Discards keep f g ∧ n = g.id ∧ Rewrites ctx ctx' p f g := by
  simp only [keepOrDrop, tyOf_bind, hHung.held.ty] at hRun
  by_cases hKeep : keep = true ∨ f.ty = .none
  · rw [if_pos (by simpa using hKeep)] at hRun
    cases hRun
    exact ⟨f, .keep hKeep, rfl, .refl hHung⟩
  rw [if_neg (by simpa using hKeep)] at hRun
  rw [not_or, Bool.not_eq_true] at hKeep
  rcases hKeep with ⟨rfl, hNone⟩
  cases hRun
  exact ⟨_, .drop hNone, rfl, .insertAbove hHung _ _⟩

theorem joinArms_ok
    (hRun : joinArms first second span ctx = .ok ty ctx') : Joins first second ty ∧ ctx' = ctx := by
  unfold joinArms at hRun
  cases first with
  | none =>
    cases second with
    | none =>
      cases hRun
      exact ⟨.neither, rfl⟩
    | some b =>
      cases hRun
      exact ⟨.second, rfl⟩
  | some a =>
    cases second with
    | none =>
      cases hRun
      exact ⟨.first, rfl⟩
    | some b =>
      by_cases hEq : a = b
      · subst hEq
        simp only [if_true] at hRun
        cases hRun
        exact ⟨.same, rfl⟩
      · simp only [if_neg hEq] at hRun
        by_cases hMachine : (a.isMachine && b.isMachine) = true
        · rw [if_pos hMachine] at hRun
          rw [Bool.and_eq_true] at hMachine
          cases hRun
          exact ⟨.leading hEq hMachine.1 hMachine.2, rfl⟩
        · rw [if_neg hMachine, describe_bind, describe_bind] at hRun
          exact (throw_ok hRun).elim

theorem settleArm_ok (hHung : Hung ctx.tree p f) (hRun : settleArm result f.id ctx = .ok () ctx') :
    ∃ g, Settles result f g ∧ Rewrites ctx ctx' p f g := by
  simp only [settleArm, get_bind, armType?_eq hHung.held, armTerminates_eq
    hHung.held, hHung.held.lastChild?] at hRun
  -- an arm that leaves no value may need a zero
  have hBlank : f.lastType? = none → (if (!result.isNone && !f.terminates) = true then do
          let _ ← addNode f.id (.const 0) result
        else pure () : Build Unit) ctx = .ok () ctx' →
      ∃ g, Settles result f g ∧ Rewrites ctx ctx' p f g := by
    intro hType hRun
    by_cases hZero : result ≠ .none ∧ f.terminates = false
    · rw [if_pos (by simpa using hZero), addNode_bind] at hRun
      cases hRun
      exact ⟨_, .zero hType hZero.1 hZero.2, .add hHung _ _⟩
    rw [if_neg (by simpa using hZero)] at hRun
    cases hRun
    refine ⟨f, .blank hType ?_, .refl hHung⟩
    rw [not_and, Bool.not_eq_false] at hZero
    by_cases hNone : result = .none
    · exact .inl hNone
    · exact .inr (hZero hNone)
  rcases List.eq_nil_or_concat' f.children with hNil | ⟨before, last, hChildren⟩
  · have hType : f.lastType? = none := by
      simp [Fragment.lastType?, hNil]
    simp only [hType] at hRun
    exact hBlank hType hRun
  have hLast : f.children.getLast? = some last := by simp [hChildren]
  by_cases hNone : last.ty = .none
  · have hType := Fragment.lastType?_of_blank hChildren hNone
    simp only [hType] at hRun
    exact hBlank hType hRun
  have hType := Fragment.lastType?_of_value hChildren hNone
  simp only [hType, hLast, map_some] at hRun
  by_cases hEq : last.ty = result
  · rw [if_neg (by simpa using hEq)] at hRun
    cases hRun
    exact ⟨f, .same (hEq ▸ hType), .refl hHung⟩
  rw [if_pos hEq] at hRun
  rcases bind_ok hRun with ⟨_, ctx₁, hPromote, hEnd⟩
  cases hEnd
  have hHungL : Hung ctx.tree f.id last := hHung.child (by simp [hChildren])
  rcases promote_ok hHungL hPromote with ⟨last', hCast, _, hStep⟩
  exact ⟨_, .promote hChildren hNone hEq hCast, .inside hHung hChildren hStep⟩

end Build

theorem Translation.Settles.id_eq (hSettles : Settles result f g) : g.id = f.id := by
  cases hSettles <;> rfl

-- Conditionals

variable {fold : Bool} {arm left right : Fragment}
variable {p : NodeId}
variable {next : NodeId → NodeId → Build NodeId}
variable {after before : List Fragment} {span : Span}

namespace Build

variable {ctx ctx' : Context} {n : NodeId}

/- Drop a last arm that is empty. -/
theorem dropEmpty_ok {c : Prop} [Decidable c] {next : Build NodeId} (hHung : Hung ctx.tree p f)
    (hChildren : f.children = before ++ [arm])
    (hRun : (do
        if c then modifyTree (·.detach arm.id)
        next) ctx = .ok n ctx') :
    ∃ ctx₁, Rewrites ctx ctx₁ p f { f with children := if c then before else before ++ [arm] }
        ∧ next ctx₁ = .ok n ctx' := by
  by_cases hDrop : c
  · rw [if_pos hDrop]
    simp only [if_pos hDrop, modifyTree_bind] at hRun
    have hStep := Rewrites.detach hHung hChildren
    rw [List.append_nil] at hStep
    exact ⟨_, hStep, hRun⟩
  · rw [if_neg hDrop, ← hChildren, Fragment.eta]
    simp only [if_neg hDrop] at hRun
    exact ⟨ctx, .refl hHung, hRun⟩

/- The part of a conditional with a value once it has two arms. -/
def settleArms (n thenArm elseArm : NodeId) (span : Span) : Build NodeId := do
  let ctx ← get
  let result ← joinArms (ctx.armType? thenArm) (ctx.armType? elseArm) span
  settleArm result thenArm
  settleArm result elseArm
  if result.isNone && (← childrenOf elseArm).isEmpty then modifyTree (·.detach elseArm)
  setTy n result
  return n

theorem finishIfValue_eq (n thenArm : NodeId) (elseArm : Option NodeId) (span : Span) :
    finishIfValue n thenArm elseArm span = (do
          let elseArm ←
            match elseArm with
            | some e => pure e
            | none => addNode n .elseArm .none
          settleArms n thenArm elseArm span) :=
  rfl

theorem settleArms_ok (hHung : Hung ctx.tree p f) (hChildren : f.children = [head, t, e])
    (hRun : settleArms f.id t.id e.id span ctx = .ok n ctx') :
    ∃ result t' e', Joins t.lastType? e.lastType? result ∧ Settles result t t' ∧ Settles result e e'
        ∧ n = f.id
        ∧ Rewrites ctx ctx' p f { f with
            ty := result
            children := head :: t' :: secondArm result e' } := by
  have hHungT := hHung.second hChildren
  have hHungE : Hung ctx.tree f.id e := hHung.child (by simp [hChildren])
  rw [settleArms, get_bind, armType?_eq hHungT.held,
    armType?_eq hHungE.held] at hRun
  rcases bind_ok hRun with ⟨result, _, hJoin, hRun⟩
  rcases joinArms_ok hJoin with ⟨hJoins, hSame⟩
  rw [hSame] at hRun
  rcases bind_ok hRun with ⟨_, ctx₁, hThen, hRun⟩
  rcases settleArm_ok hHungT hThen with ⟨t', hT, hStepT⟩
  have hSplitT : f.children = [head] ++ t :: [e] := hChildren
  have hFirst := Rewrites.inside hHung hSplitT hStepT
  have hHung₁ := hFirst.hung
  rcases bind_ok hRun with ⟨_, ctx₂, hElse, hRun⟩
  have hHungE₁ : Hung ctx₁.tree f.id e := hHung₁.child (by simp)
  rcases settleArm_ok hHungE₁ hElse with ⟨e', hE, hStepE⟩
  have hSplitE : ({ f with children := [head] ++ t' :: [e] } : Fragment).children
        = [head, t'] ++ e :: [] := rfl
  have hSecond := Rewrites.inside hHung₁ hSplitE hStepE
  rw [childrenOf_bind, ← hE.id_eq, hStepE.hung.held.children] at hRun
  have hSplit : ({ f with children := [head, t'] ++ e' :: [] }
        : Fragment).children = [head, t'] ++ [e'] := rfl
  rcases dropEmpty_ok hSecond.hung hSplit hRun with ⟨ctx₃, hThird, hRun⟩
  rcases setTy_step hThird.hung hRun with ⟨ctx₄, hLast, hRun⟩
  rcases pure_ok hRun with ⟨rfl, rfl⟩
  refine ⟨result, t', e', hJoins, hT, hE, rfl, ?_⟩
  have hAll := ((hFirst.trans hSecond).trans hThird).trans hLast
  have hArms : (if (result.isNone && (e'.children.map Fragment.id).isEmpty) = true then
          [head, t']
        else [head, t'] ++ [e'])
        = head :: t' :: secondArm result e' := by
    simp only [secondArm, nonempty]
    by_cases hNone : result = .none
    · by_cases hEmpty : e'.children = []
      · simp [hNone, hEmpty]
      · simp [hNone, hEmpty]
    · simp [hNone]
  rwa [hArms] at hAll

theorem finishIf_ok (hHung : Hung ctx.tree p f) (hRun : finishIf f.id keep span ctx = .ok n ctx') :
    ∃ g, FinishesIf f keep g ∧ n = g.id ∧ Rewrites ctx ctx' p f g := by
  simp only [finishIf, childrenOf_bind, hHung.held.children] at hRun
  rcases hChildren : f.children with _ | ⟨head, _ | ⟨t, rest⟩⟩
  · simp only [hChildren] at hRun
    exact (throw_ok hRun).elim
  · simp only [hChildren] at hRun
    exact (throw_ok hRun).elim
  rcases rest with _ | ⟨e, _ | ⟨extra, rest⟩⟩
  · -- one arm
    simp only [hChildren, List.map_cons, List.map_nil, List.drop_succ_cons, List.drop_zero] at hRun
    cases keep with
    | false =>
      simp only [finishIfStatement, Bool.false_eq_true, if_false] at hRun
      cases hRun
      exact ⟨_, .statement hChildren, rfl, .setTy hHung .none⟩
    | true =>
      simp only [if_true, finishIfValue_eq] at hRun
      rcases addNode_step hHung hRun with ⟨ctx₁, k, hAdd, hRun⟩
      have hHung₁ := hAdd.hung
      rw [hChildren] at hAdd hHung₁
      rcases settleArms_ok hHung₁ rfl hRun with ⟨result, t', e', hJoins, hT, hE, hId, hStep⟩
      exact ⟨_, .value hChildren (.inr ⟨rfl, k, rfl⟩) hJoins hT hE, hId, hAdd.trans hStep⟩
  · simp only [hChildren, List.map_cons, List.map_nil, List.drop_succ_cons, List.drop_zero] at hRun
    cases keep with
    | false =>
      have hHungE : Hung ctx.tree f.id e := hHung.child (by simp [hChildren])
      simp only [finishIfStatement, Bool.false_eq_true, if_false,
        childrenOf_bind, hHungE.held.children] at hRun
      have hSplit : f.children = [head, t] ++ [e] := hChildren
      rcases dropEmpty_ok hHung hSplit hRun with ⟨ctx₁, hFirst, hRun⟩
      rcases setTy_step hFirst.hung hRun with ⟨ctx₂, hLast, hRun⟩
      rcases pure_ok hRun with ⟨rfl, rfl⟩
      refine ⟨_, .statementElse hChildren, rfl, ?_⟩
      have hAll := hFirst.trans hLast
      have hArms : (if ((e.children.map Fragment.id).isEmpty) = true then
              [head, t]
            else [head, t] ++ [e])
            = head :: t :: nonempty e := by
        simp only [nonempty]
        by_cases hEmpty : e.children = []
        · simp [hEmpty]
        · simp [hEmpty]
      rwa [hArms] at hAll
    | true =>
      simp only [if_true, finishIfValue_eq] at hRun
      rcases settleArms_ok hHung hChildren hRun with ⟨result, t', e', hJoins, hT, hE, hId, hStep⟩
      exact ⟨_, .value hChildren (.inl rfl) hJoins hT hE, hId, hStep⟩
  · simp only [hChildren] at hRun
    exact (throw_ok hRun).elim

end Build

-- Logical Operators

/-
  The second of two operands is taken off, two arms come in its
  place, and the operand goes into one of them.
-/
theorem Code.Tree.edited_toArm (hHung : Hung t p f) (hChildren : f.children = [left, right])
    (hFirst : ((t.detach right.id).add f.id .thenArm .none).2 = t₁)
    (hSecond : (t₁.add f.id .elseArm .none).2 = t₂)
    (hSplit : [left, .leaf ⟨(t.detach right.id).size⟩ .thenArm .none,
          .leaf ⟨t₁.size⟩ .elseArm .none]
        = before ++ arm :: after) :
    Edited t (t₂.reparent right.id arm.id) p f { f with
        children := before ++ { arm with children := arm.children ++ [right] } :: after } := by
  have hRight : right ∈ f.children := by simp [hChildren]
  have hPair : f.children = [left] ++ right :: [] := hChildren
  rcases edited_detach hHung hPair with ⟨hOff, hHeld, hLoose⟩
  have hHung₁ := hOff.hung
  have hThen := (grown_add hHung₁.root_isOpen .thenArm .none).2.edited hHung₁
  rw [hFirst] at hThen
  have hHung₂ := hThen.hung
  have hElse := (grown_add hHung₂.root_isOpen .elseArm .none).2.edited hHung₂
  rw [hSecond] at hElse
  have hArms := hThen.trans hElse
  -- the operand is apart from all that changes meanwhile
  have hApart : ∀ n ∈ right.ids, n ∉ ({ f with children := [left] ++ [] } : Fragment).ids := by
    intro n hMem hIn
    rw [Fragment.ids_eq] at hIn
    rcases List.mem_cons.mp hIn with rfl | hLeft
    · exact hHung.id_notMem_child hRight hMem
    have hNodup := hHung.row.nodup
    rw [hPair] at hNodup
    simp only [List.append_nil, List.flatMap_cons, List.flatMap_nil] at hLeft
    exact Fragment.disjoint_of_nodup hNodup (.inl (by simp)) hLeft hMem
  have hSame : ∀ n ∈ right.ids, t₂.node n = (t.detach right.id).node n := by
    intro n hMem
    refine hArms.outside n (hHeld.index_lt hMem) (hApart n hMem) ?_
    rintro rfl
    exact hHung.notMem (Fragment.mem_ids_of_child hRight hMem)
  have hLoose₂ : t₂.parent? right.id = none := by
    rw [Tree.parent?, hSame right.id right.id_mem_ids]
    exact hLoose
  have hMove := edited_reparent (hOff.trans hArms) hSplit (hHeld.congr hArms.size_le hSame) hLoose₂
      (hHung.child hRight).nodup
      fun n hMem => Fragment.mem_ids_of_child hRight hMem
  apply hMove
  intro n hMem hIn
  rcases hArms.fresh n hIn with hOld | hNew
  · exact hApart n hMem hOld
  · have := hHeld.index_lt hMem
    omega

namespace Build

variable {ctx ctx' : Context} {n : NodeId}

/- The second operand goes into the arm that is chosen. -/
theorem toArm_step {pick : NodeId → NodeId → NodeId} {instr : Instr}
    {before after : NodeId → NodeId → List Fragment} (hHung : Hung ctx.tree p f)
    (hChildren : f.children = [left, right])
    (hSplit : ∀ a b, [left, .leaf a .thenArm .none, .leaf b .elseArm .none]
        = before a b ++ .leaf (pick a b) instr .none :: after a b)
    (hRun : (do
        modifyTree (·.detach right.id)
        let a ← addNode f.id .thenArm .none
        let b ← addNode f.id .elseArm .none
        modifyTree (·.reparent right.id (pick a b))
        next a b) ctx = .ok n ctx') :
    ∃ ctx₁ a b, Rewrites ctx ctx₁ p f
          { f with children := before a b ++ ⟨pick a b, instr, .none, [right]⟩ :: after a b }
        ∧ next a b ctx₁ = .ok n ctx' := by
  simp only [modifyTree_bind, addNode_bind] at hRun
  have hMove := Tree.edited_toArm hHung hChildren rfl rfl (hSplit _ _)
  exact ⟨_, _, _, .of_edit hMove, hRun⟩

/-
  The value in one arm becomes zero or one and a literal goes into the other. The arms are met
  in either order, so where the second one stands is given for every value of the first.
-/
theorem fillArms_ok {other : NodeId} {instr literal : Instr}
    {before' after' : Fragment → List Fragment} (hFold : ctx.options.foldConstants = fold)
    (hHung : Hung ctx.tree p f) (hChildren : f.children = before ++ arm :: after)
    (hArm : arm.children = [value])
    (hOther : ∀ g, before ++ { arm with children := [g] } :: after
        = before' g ++ .leaf other instr .none :: after' g)
    (hRun : (do
        let _ ← boolean value.id
        let _ ← addNode other literal .i32
        setTy f.id .i32
        setSpan f.id span
        return f.id) ctx = .ok n ctx') :
    ∃ value' k, Decides fold value value' ∧ n = f.id ∧ Rewrites ctx ctx' p f { f with
        ty := .i32
        children :=
          before' value' ++ ⟨other, instr, .none, [.leaf k literal .i32]⟩ :: after' value' } := by
  have hHungA : Hung ctx.tree f.id arm := hHung.child (by simp [hChildren])
  rcases bind_ok hRun with ⟨_, ctx₁, hValue, hRun⟩
  rcases boolean_ok hFold (hHungA.first hArm) hValue with ⟨value', hDecides, _, hStep⟩
  have hBoolean := Rewrites.inside hHung hChildren (.head hHungA hArm hStep)
  have hHung₁ := hBoolean.hung
  have hSplit : ({ f with children := before ++ { arm with children := [value'] } :: after }
      : Fragment).children = before' value' ++ .leaf other instr .none :: after' value' :=
    hOther value'
  have hHungO : Hung ctx₁.tree f.id (.leaf other instr .none) := hHung₁.child (by rw [hSplit]; simp)
  rcases addNode_step hHungO hRun with ⟨ctx₂, k, hAdd, hRun⟩
  have hLiteral := Rewrites.inside hHung₁ hSplit hAdd
  rcases setTy_step hLiteral.hung hRun with ⟨ctx₃, hTy, hRun⟩
  rcases setSpan_step hTy.hung hRun with ⟨ctx₄, hSpan, hRun⟩
  rcases pure_ok hRun with ⟨rfl, rfl⟩
  exact ⟨value', k, hDecides, rfl, ((hBoolean.trans hLiteral).trans hTy).trans hSpan⟩

theorem shortCircuit_ok {isAnd : Bool} (hFold : ctx.options.foldConstants = fold)
    (hHung : Hung ctx.tree p f) (hRun : shortCircuit f.id isAnd span ctx = .ok n ctx') :
    ∃ g, ShortCircuits fold f isAnd g ∧ n = g.id ∧ Rewrites ctx ctx' p f g := by
  simp only [shortCircuit, childrenOf_bind, hHung.held.children] at hRun
  rcases hChildren : f.children with _ | ⟨left, _ | ⟨right, _ | ⟨extra, rest⟩⟩⟩
  · simp only [hChildren] at hRun
    exact (throw_ok hRun).elim
  · simp only [hChildren] at hRun
    exact (throw_ok hRun).elim
  · simp only [hChildren, List.map_cons, List.map_nil] at hRun
    rcases bind_ok hRun with ⟨_, ctx₁, hTest, hRun⟩
    rcases condition_ok hFold (hHung.first hChildren) hTest with ⟨left', hTests, _, hStep⟩
    have hFirst := Rewrites.head hHung hChildren hStep
    have hHung₁ := hFirst.hung
    have hFold₁ : ctx₁.options.foldConstants = fold := hFirst.options_eq ▸ hFold
    cases isAnd with
    | true =>
      rcases toArm_step hHung₁ rfl (fun a b => show _ = [left'] ++ _ :: [_] from rfl) hRun with
        ⟨ctx₂, a, b, hMove, hRun⟩
      rcases fillArms_ok (hMove.options_eq ▸ hFold₁) (hMove.hung) rfl rfl
          (fun g => show _ = [left', _] ++ _ :: [] from rfl) hRun with
        ⟨right', k, hDecides, hId, hFill⟩
      exact ⟨_, .conjunction hChildren hTests hDecides, hId, (hFirst.trans hMove).trans hFill⟩
    | false =>
      rcases toArm_step hHung₁ rfl (fun a b => show _ = [left', _] ++ _ :: [] from rfl) hRun with
        ⟨ctx₂, a, b, hMove, hRun⟩
      rcases fillArms_ok (hMove.options_eq ▸ hFold₁) (hMove.hung) rfl rfl
          (fun g => show _ = [left'] ++ _ :: [_] from rfl) hRun with
        ⟨right', k, hDecides, hId, hFill⟩
      exact ⟨_, .disjunction hChildren hTests hDecides, hId, (hFirst.trans hMove).trans hFill⟩
  · simp only [hChildren] at hRun
    exact (throw_ok hRun).elim

end Build

-- Returns

namespace Build

variable {ctx ctx' : Context} {n : NodeId}
variable {m : MethodId} {loop : Option (NodeId × NodeId)}

theorem resultMismatch_ok {α : Type} {a : α}
    (hRun : resultMismatch m found span ctx = .ok a ctx') : False := by
  rw [resultMismatch, program_bind] at hRun
  exact throw_ok hRun

/- A value that has to fit the result of a method. -/
theorem fitResult_ok (hHung : Hung ctx.tree p f)
    (hRun : fitResult m (f.children.head?.map Fragment.id) span ctx = .ok () ctx') :
    ((ctx.program.method m).result = .none ∧ (∀ v ∈ f.children.head?, v.ty = .none) ∧ ctx' = ctx)
      ∨ ∃ v rest v', f.children = v :: rest ∧ (ctx.program.method m).result ≠ .none ∧ v.ty ≠ .none
          ∧ Casts true (ctx.program.method m).result v v'
          ∧ Rewrites ctx ctx' p f { f with children := v' :: rest } := by
  rcases hChildren : f.children with _ | ⟨v, rest⟩
  · simp only [hChildren, List.head?_nil, map_none, fitResult, program_bind, pure_bind] at hRun
    by_cases hNone : (ctx.program.method m).result = .none
    · rw [if_neg (by simpa using hNone)] at hRun
      cases hRun
      exact .inl ⟨hNone, by simp, rfl⟩
    · rw [if_pos (by simpa using hNone)] at hRun
      exact (resultMismatch_ok hRun).elim
  · have hHungV := hHung.first hChildren
    simp only [hChildren, List.head?_cons, map_some, fitResult,
      program_bind, tyOf_bind, hHungV.held.ty] at hRun
    by_cases hNone : (ctx.program.method m).result = .none
    · rw [if_neg (by simp [hNone])] at hRun
      by_cases hBlank : v.ty = .none
      · rw [if_neg (by simp [hNone, hBlank])] at hRun
        cases hRun
        exact .inl ⟨hNone, by simpa using hBlank, rfl⟩
      · rw [if_pos (by simp [hNone, hBlank])] at hRun
        exact (resultMismatch_ok hRun).elim
    · by_cases hBlank : v.ty = .none
      · rw [if_neg (by simp [hBlank]), if_pos (by simp [hNone, hBlank])] at hRun
        exact (resultMismatch_ok hRun).elim
      rw [if_pos (by simp [hNone, hBlank])] at hRun
      rcases bind_ok hRun with ⟨_, ctx₁, hCast, hEnd⟩
      cases hEnd
      rcases cast_ok hHungV hCast with ⟨v', hCasts, _, hStep⟩
      exact .inr ⟨v, rest, v', rfl, hNone, hBlank, hCasts, .head hHung hChildren hStep⟩

theorem returnValue_ok (hPlace : InMethod ctx.tree m loop f.id) (hHung : Hung ctx.tree p f)
    (hRun : returnValue f.id span ctx = .ok n ctx') :
    ∃ g, Returns (ctx.program.method m).result f g ∧ n = g.id ∧ Rewrites ctx ctx' p f g := by
  simp only [returnValue, get_bind, tree_bind,
    methodOf?_inMethod hPlace, hHung.held.firstChild?] at hRun
  rcases bind_ok hRun with ⟨_, ctx₁, hFit, hRest⟩
  rcases fitResult_ok hHung hFit with ⟨hResult, hBlank, rfl⟩
      | ⟨v, rest, v', hChildren, hResult, hNone, hCast, hFirst⟩
  · rcases setNode_step hHung rfl hRest with ⟨ctx₂, hSet, hEnd⟩
    have hHung₁ := hSet.hung
    rcases setSpan_step hHung₁ hEnd with ⟨ctx₃, hSpan, hEnd⟩
    rcases pure_ok hEnd with ⟨rfl, rfl⟩
    exact ⟨_, .blank hBlank hResult, rfl, hSet.trans hSpan⟩
  · have hHung₁ := hFirst.hung
    rcases setNode_step hHung₁ rfl hRest with ⟨ctx₂, hSet, hEnd⟩
    rcases setSpan_step hSet.hung hEnd with ⟨ctx₃, hSpan, hEnd⟩
    rcases pure_ok hEnd with ⟨rfl, rfl⟩
    exact ⟨_, .value hChildren hResult hNone hCast, rfl, (hFirst.trans hSet).trans hSpan⟩

end Build

end RubyWat
