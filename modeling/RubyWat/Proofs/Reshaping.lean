import RubyWat.Proofs.Translation

/-
  Code that is put into other code.

  The rules of the translation put instructions above the code that they are given, let its
  values have other types, and add code without branches.  `Reshapes` lists these changes.  What
  stays true under each of them stays true under every rule that is made of them, so a property
  is looked at once for a change and not once for a rule.
-/

-- Changes Of Code

namespace RubyWat

open Code List Conversion

/- A read or a write of a field, with the type it has there. -/
structure Access where
  cls : ClassId
  slot : Nat
  held : Wasm.MachineType
deriving DecidableEq

namespace Code

/- What an instruction with a type accesses. -/
def Instr.access? (instr : Instr) (ty : ValueType) : Option Access :=
  match instr with
  | .load (.layout (.offset c slot)) => some ⟨c, slot, ty.held⟩
  | .store held (.layout (.offset c slot)) => some ⟨c, slot, held⟩
  | _ => none

/- Whether an instruction has all of its children as operands and does not branch. -/
def Instr.isInner : Instr → Bool
  | root | classBody _ | function _ | const _ | cond | thenArm | elseArm => false
  | block | loop | br _ | brIf _ | drop => false
  | _ => true

/- Fragments of which only the last one may leave a value. -/
def BlankUntilLast (fs : List Fragment) : Prop :=
  ∀ f ∈ fs.dropLast, f.ty = .none

/- An arm of a conditional, or what leaves a value. -/
def Fragment.IsArm (f : Fragment) : Prop :=
  f.ty ≠ .none ∨ f.instr = .thenArm ∨ f.instr = .elseArm

end Code

namespace Translation

open Lower (VariableKind)

/- Code made of other code, with accesses of a certain kind. -/
inductive Reshapes (Q : Access → Prop) : List Fragment → List Fragment → Prop where
  | refl (fs : List Fragment) : Reshapes Q fs fs
  | trans (hFirst : Reshapes Q fs gs) (hSecond : Reshapes Q gs hs) : Reshapes Q fs hs
  | append (hFirst : Reshapes Q fs gs) (hSecond : Reshapes Q fs' gs') :
      Reshapes Q (fs ++ fs') (gs ++ gs')
  | const : Reshapes Q [] [.leaf n (.const value) ty]
  | node {instr : Instr} (hInner : instr.isInner = true)
      (hOwn : ∀ a, instr.access? ty = some a → Q a) (hParts : Reshapes Q fs gs) :
      Reshapes Q fs [⟨n, instr, ty, gs⟩]
  | sequence (hInstr : instr = .thenArm ∨ instr = .elseArm ∨ instr = .block)
      (hBlank : BlankUntilLast gs) (hParts : Reshapes Q fs gs) : Reshapes Q fs [⟨n, instr, ty, gs⟩]
  | cond (hArms : ∀ c ∈ arms, c.IsArm) (hParts : Reshapes Q fs (test :: arms)) :
      Reshapes Q fs [⟨n, .cond, ty, test :: arms⟩]
  | literal {f : Fragment} (hConst : f.instr = .const value) :
      Reshapes Q [f] [{ f with instr := .const value', ty }]
  | retype {f : Fragment} {ty : ValueType} (hNone : f.ty ≠ .none) (hHeld : ty.held = f.ty.held) :
      Reshapes Q [f] [{ f with ty }]
  | folded {f : Fragment} (hInner : f.instr.isInner = true) : Reshapes Q [f] [f.folded fold]
  | drop {f : Fragment} (hNone : f.ty ≠ .none) : Reshapes Q [f] [⟨n, .drop, .none, [f]⟩]
  | last {arm last' : Fragment} (hArm : arm.IsArm) (hChildren : arm.children = before ++ [last])
      (hNone : last'.ty ≠ .none) (hLast : Reshapes Q [last] [last']) :
      Reshapes Q [arm] [{ arm with children := before ++ [last'] }]
  | zero {arm : Fragment} (hArm : arm.IsArm) (hTy : arm.lastType? = none) :
      Reshapes Q [arm] [{ arm with children := arm.children ++ [.leaf n (.const 0) ty] }]
  | empty {arm : Fragment} (hArm : arm.IsArm) (hNil : arm.children = []) : Reshapes Q [arm] []

variable {keep : Bool}

namespace Reshapes

/- An instruction that accesses nothing. -/
theorem above (hInner : instr.isInner = true) (hFree : instr.access? ty = none)
    (hParts : Reshapes Q fs gs) : Reshapes Q fs [⟨n, instr, ty, gs⟩] :=
  .node hInner (by simp [hFree]) hParts

theorem leaf (hInner : instr.isInner = true) (hFree : instr.access? ty = none) :
    Reshapes Q [] [.leaf n instr ty] :=
  .above hInner hFree (.refl [])

theorem cons (hFirst : Reshapes Q [f] [g]) (hRest : Reshapes Q fs gs) :
    Reshapes Q (f :: fs) (g :: gs) :=
  append hFirst hRest

theorem idle_cons (hFirst : Reshapes Q [] [g]) (hRest : Reshapes Q fs gs) :
    Reshapes Q fs (g :: gs) :=
  append hFirst hRest

/- The last of several parts is changed. -/
theorem replace (hLast : Reshapes Q [f] [g]) (before : List Fragment) :
    Reshapes Q (before ++ [f]) (before ++ [g]) :=
  append (.refl before) hLast

theorem foldedAbove (hInner : instr.isInner = true) (hFree : instr.access? ty = none)
    (hParts : Reshapes Q fs gs) : Reshapes Q fs [Fragment.folded fold ⟨n, instr, ty, gs⟩] :=
  (above hInner hFree hParts).trans (.folded hInner)

end Reshapes

-- Conversions And Tests

theorem held_of_retag (hKind : between a b = .retag) : b.held = a.held := by
  unfold between at hKind
  split at hKind
  · cases hKind
  · unfold ofDistinct at hKind
    split at hKind <;> first | rfl | cases hKind

section

variable (hCasts : Casts signed target f g)
include hCasts

theorem Casts.ty_eq : g.ty = target := by
  cases hCasts with
  | keep hKind =>
    generalize f.ty = source at hKind
    unfold between at hKind
    split at hKind
    · assumption
    · unfold ofDistinct at hKind
      split at hKind <;> contradiction
  | literal | retag | extend | wrap => rfl

/- Only values are cast, and only to types that values have. -/
theorem Casts.none_iff : f.ty = .none ↔ target = .none := by
  have hAllowed : (between f.ty target).isAllowed := by
    cases hCasts with
    | keep hKind | retag _ hKind | extend _ hKind =>
      rw [hKind]
      rfl
    | literal _ _ hAllowed => exact hAllowed
    | wrap _ hKind =>
      rcases hKind with hKind | hKind
      all_goals
        rw [hKind]
        rfl
  generalize f.ty = source at hAllowed
  unfold between at hAllowed
  split at hAllowed
  · rename_i hSame
    rw [hSame]
  cases source with
  | none => cases target <;> first | rfl | cases hAllowed
  | machine ty =>
    cases target with
    | none => cases ty <;> cases hAllowed
    | machine | ref => simp
  | ref =>
    cases target with
    | none => cases hAllowed
    | machine | ref => simp

theorem Casts.reshapes : Reshapes Q [f] [g] := by
  have hNone := hCasts.none_iff
  cases hCasts with
  | keep => exact .refl _
  | literal hConst => exact .literal hConst
  | retag _ hKind =>
    refine .retype (fun hIs => ?_) (held_of_retag hKind)
    rw [hIs, hNone.mp hIs] at hKind
    cases hKind
  | extend | wrap => exact .above rfl rfl (.refl _)

end

theorem CastsAll.reshapes (hCasts : CastsAll fs types gs) : Reshapes Q fs gs := by
  induction hCasts with
  | nil => exact .refl _
  | cons hFirst _ ih => exact hFirst.reshapes.cons ih

theorem Discards.reshapes (hDiscards : Discards keep f g) : Reshapes Q [f] [g] := by
  cases hDiscards with
  | keep => exact .refl _
  | drop hNone => exact .drop hNone

theorem Tests.reshapes (hTests : Tests fold f g) : Reshapes Q [f] [g] := by
  cases hTests with
  | narrow => exact .refl _
  | ref hTy => exact .retype (by simp [hTy]) (by rw [hTy]; rfl)
  | wide => exact .foldedAbove rfl rfl (.append (.refl [f]) .const)

/- What a test leaves is a narrow value. -/
theorem Tests.ty_eq (hTests : Tests fold f g) : g.ty = .i32 := by
  cases hTests with
  | narrow hTy => exact hTy
  | ref => rfl
  | wide =>
    unfold Fragment.folded
    split
    · split <;> rfl
    · rfl

theorem Decides.reshapes (hDecides : Decides fold f g) : Reshapes Q [f] [g] := by
  cases hDecides with
  | boolean hTests => exact hTests.reshapes
  | compare hTests => exact .foldedAbove rfl rfl (.append hTests.reshapes .const)

theorem BranchesOn.reshapes (hBranch : BranchesOn fold negate f g) : Reshapes Q [f] [g] := by
  cases hBranch with
  | direct hTests => exact hTests.reshapes
  | inverted hTests => exact .foldedAbove rfl rfl hTests.reshapes

-- Operators And Calls

theorem Operates.reshapes (hOperates : Operates fold name p f p' g) :
    Reshapes Q f.children [g] := by
  cases hOperates with
  | binary hChildren _ _ _ _ hLeft hRight hInstr =>
    rw [hChildren]
    have hPair : Reshapes Q _ _ := hLeft.reshapes.cons hRight.reshapes
    unfold Build.binaryInstr? at hInstr
    split at hInstr <;> cases hInstr <;> exact .foldedAbove rfl rfl hPair
  | negative hChildren =>
    rw [hChildren]
    exact .foldedAbove rfl rfl (.idle_cons .const (.refl _))
  | complement hChildren =>
    rw [hChildren]
    exact .foldedAbove rfl rfl (.append (.refl [_]) .const)
  | negation | unary => exact .foldedAbove rfl rfl (.refl _)
  | nullTest hChildren hTy =>
    rw [hChildren]
    exact .above rfl rfl (.retype (by simp [hTy]) (by rw [hTy]; rfl))
  | addressCompare hChildren _ _ hReceiver hArg =>
    rw [hChildren]
    exact .above rfl rfl (hReceiver.reshapes.cons hArg.reshapes)
  | @distance receiver arg _ _ _ _ _ _ _ hChildren hTy hArg =>
    rw [hChildren]
    have hReceiver : Reshapes Q [receiver] [{ receiver with ty := Build.address }] :=
      .retype (by simp [hTy]) (by rw [hTy]; rfl)
    have hOther : Reshapes Q [arg] [{ arg with ty := Build.address }] :=
      .retype (by simp [hArg]) (by rw [hArg]; rfl)
    exact .above rfl rfl (.append (.above rfl rfl (hReceiver.cons hOther)) (.leaf rfl rfl))
  | move _ hChildren _ _ _ hCast =>
    rw [hChildren]
    refine .above rfl rfl (.cons (.refl _) ?_)
    exact .above rfl rfl (.append hCast.reshapes (.leaf rfl rfl))

theorem Receives.reshapes (hReceives : Receives owner receiver fs gs) : Reshapes Q fs gs := by
  cases hReceives with
  | inNode | absent => exact .refl _
  | current => exact .idle_cons (.leaf rfl rfl) (.refl _)
  | null => exact .idle_cons .const (.refl _)

theorem Calls.reshapes (hCalls : Calls m receiver p f p' g) : Reshapes Q f.children [g] := by
  cases hCalls with
  | onInstance _ hReceives hThis hArgs =>
    exact .above rfl rfl (hReceives.reshapes.trans (hThis.reshapes.cons hArgs.reshapes))
  | onClass _ hReceives hArgs => exact .above rfl rfl (hReceives.reshapes.trans hArgs.reshapes)

theorem Applies.reshapes (hApplies : Applies fold name p f p' g) : Reshapes Q f.children [g] := by
  cases hApplies with
  | method _ _ _ hCall | forward _ _ _ hCall => exact hCall.reshapes
  | operator hOperates => exact hOperates.reshapes

-- Control

theorem Settles.isArm (hSettles : Settles result arm arm') (hArm : arm.IsArm) : arm'.IsArm := by
  cases hSettles <;> exact hArm

theorem Settles.reshapes (hSettles : Settles result arm arm') (hArm : arm.IsArm) :
    Reshapes Q [arm] [arm'] := by
  cases hSettles with
  | same | blank => exact .refl _
  | promote hChildren hNone _ hCast =>
    refine .last hArm hChildren ?_ hCast.reshapes
    rw [hCast.ty_eq, ne_eq, ← hCast.none_iff]
    exact hNone
  | zero hTy => exact .zero hArm hTy

theorem reshapes_nonempty (hArm : arm.IsArm) :
    Reshapes Q [arm] (nonempty arm) ∧ ∀ c ∈ nonempty arm, c.IsArm := by
  unfold nonempty
  split
  · rename_i hEmpty
    exact ⟨.empty hArm (isEmpty_iff.mp hEmpty), by simp⟩
  · exact ⟨.refl _, by simpa using hArm⟩

theorem reshapes_secondArm (result : ValueType) (hArm : arm.IsArm) :
    Reshapes Q [arm] (secondArm result arm) ∧ ∀ c ∈ secondArm result arm, c.IsArm := by
  unfold secondArm
  split
  · exact reshapes_nonempty hArm
  · exact ⟨.refl _, by simpa using hArm⟩

theorem FinishesIf.reshapes (hFinish : FinishesIf ⟨n, .cond, ty, fs⟩ keep g)
    (hArms : ∀ c ∈ fs.tail, c.IsArm) : Reshapes Q fs [g] := by
  cases hFinish with
  | @value head t rest e result t' e' hChildren hElse _ hThen hSecond =>
    dsimp only at hChildren
    subst hChildren
    rw [tail_cons, forall_mem_cons] at hArms
    have hStart : e.IsArm ∧ Reshapes Q rest [e] := by
      rcases hElse with rfl | ⟨rfl, n, rfl⟩
      · exact ⟨hArms.2 e (by simp), .refl _⟩
      · exact ⟨.inr (.inr rfl), .sequence (.inr (.inl rfl)) (by simp [BlankUntilLast]) (.refl [])⟩
    have hRest := reshapes_secondArm (Q := Q) result (hSecond.isArm hStart.1)
    refine .cond ?_ (.cons (.refl _) (.cons (hThen.reshapes hArms.1)
      (hStart.2.trans ((hSecond.reshapes hStart.1).trans hRest.1))))
    rw [forall_mem_cons]
    exact ⟨hThen.isArm hArms.1, hRest.2⟩
  | statement hChildren =>
    dsimp only at hChildren
    subst hChildren
    exact .cond hArms (.refl _)
  | @statementElse head t e hChildren =>
    dsimp only at hChildren
    subst hChildren
    rw [tail_cons, forall_mem_cons, forall_mem_singleton] at hArms
    have hRest := reshapes_nonempty (Q := Q) hArms.2
    refine .cond ?_ (.append (.refl [head, t]) hRest.1)
    rw [forall_mem_cons]
    exact ⟨hArms.1, hRest.2⟩

/- The test and at most two arms are what a conditional has. -/
theorem FinishesIf.length_le (hFinish : FinishesIf f keep g) : f.children.length ≤ 3 := by
  cases hFinish with
  | value hChildren hElse =>
    rw [hChildren]
    rcases hElse with rfl | ⟨rfl, _⟩ <;> simp
  | statement hChildren | statementElse hChildren => simp [hChildren]

/-
  A conditional with its test and its arms.  There is room for at most one fragment in front of
  the test, which is then in the place of the test and not of an arm.
-/
theorem reshapes_conditional (hFinish : FinishesIf ⟨n, .cond, .none, gs ++ c :: arms⟩ keep f)
    (hTests : Tests fold c' c) (hSome : arms ≠ [])
    (hArms : ∀ a ∈ arms, a.instr = .thenArm ∨ a.instr = .elseArm) :
    Reshapes Q (gs ++ c :: arms) [f] := by
  refine hFinish.reshapes fun a hMem => ?_
  have hTest : c.IsArm := .inl (by simp [hTests.ty_eq])
  have hLength := hFinish.length_le
  have hPos := length_pos_iff.mpr hSome
  rcases gs with _ | ⟨g, _ | ⟨g', gs⟩⟩
  · exact .inr (hArms a hMem)
  · rcases mem_cons.mp hMem with rfl | hMem
    · exact hTest
    · exact .inr (hArms a hMem)
  · simp only [length_append, length_cons] at hLength
    omega

theorem ShortCircuits.reshapes (hShort : ShortCircuits fold ⟨n, .cond, ty, fs⟩ isAnd g) :
    Reshapes Q fs [g] := by
  have hArms : ∀ (a b : NodeId) (g h : Fragment),
      ∀ c ∈ [(⟨a, .thenArm, .none, [g]⟩ : Fragment), ⟨b, .elseArm, .none, [h]⟩], c.IsArm := by
    simp [Fragment.IsArm]
  have hOne : ∀ g : Fragment, BlankUntilLast [g] := by simp [BlankUntilLast]
  cases hShort with
  | conjunction hChildren hLeft hRight =>
    dsimp only at hChildren
    subst hChildren
    refine .cond (hArms _ _ _ _) (hLeft.reshapes.cons ?_)
    exact .append (.sequence (.inl rfl) (hOne _) hRight.reshapes)
      (.sequence (.inr (.inl rfl)) (hOne _) .const)
  | disjunction hChildren hLeft hRight =>
    dsimp only at hChildren
    subst hChildren
    refine .cond (hArms _ _ _ _) (hLeft.reshapes.cons ?_)
    exact .idle_cons (.sequence (.inl rfl) (hOne _) .const)
      (.sequence (.inr (.inl rfl)) (hOne _) hRight.reshapes)

theorem Returns.reshapes (hReturns : Returns result f g) : Reshapes Q f.children [g] := by
  cases hReturns with
  | value hChildren _ _ hCast =>
    rw [hChildren]
    exact .above rfl rfl (hCast.reshapes.cons (.refl _))
  | blank => exact .above rfl rfl (.refl _)

-- Variables And Operands

theorem Reads.reshapes (hReads : Reads E p name kind f) (hOwn : ∀ slot v,
      (p.cls (p.method E.method).owner).ivarSlot? (Lower.bareName name) = some slot →
      (p.cls (p.method E.method).owner).ivar? (Lower.bareName name) = some v →
        Q ⟨(p.method E.method).owner, slot, v.ty.held⟩) : Reshapes Q [] [f] := by
  cases hReads with
  | localVar | globalVar => exact .leaf rfl rfl
  | classVar => exact .above rfl rfl .const
  | instanceVar _ hSlot hIvar =>
    refine .node rfl ?_ (.leaf rfl rfl)
    rintro a ⟨⟩
    exact hOwn _ _ hSlot hIvar

theorem Keeps.reshapes (hKeeps : Keeps store reload ty address keep g) (hBlank : store.ty = .none)
    (hInner : reload.isInner = true) (hOwn : ∀ a, reload.access? ty = some a → Q a)
    (hAddress : ∀ i ∈ address, ∀ n, Reshapes Q [] [.leaf n i .i32]) : Reshapes Q [store] [g] := by
  have hPair : ∀ g : Fragment, BlankUntilLast [store, g] := by simp [BlankUntilLast, hBlank]
  cases hKeeps with
  | dropped => exact .refl _
  | plain =>
    exact .sequence (.inr (.inr rfl)) (hPair _)
      (.append (.refl [store]) (.node hInner hOwn (.refl [])))
  | addressed =>
    exact .sequence (.inr (.inr rfl)) (hPair _)
      (.append (.refl [store]) (.node hInner hOwn (hAddress _ rfl _)))

theorem Assigns.reshapes (hAssigns : Assigns E name keep p f kind p' g)
    (hOwn : ∀ ty slot, p.declareIvar (p.method E.method).owner name ty true = (slot, p') →
      Q ⟨(p.method E.method).owner, slot,
        ((p'.cls (p.method E.method).owner).ivars.getD slot default).ty.held⟩) :
    Reshapes Q f.children [g] := by
  cases hAssigns with
  | localVar hChildren _ _ hCast =>
    rw [hChildren]
    cases keep <;> exact .above rfl rfl (hCast.reshapes.replace _)
  | instanceVar _ hChildren _ hDeclare hTy hCast hKeeps =>
    rw [hChildren]
    have hField := hOwn _ _ hDeclare
    rw [← hTy] at hField
    refine .trans (.node rfl ?_ (.idle_cons (.leaf rfl rfl) (hCast.reshapes.replace _)))
      (hKeeps.reshapes rfl rfl ?_ ?_)
    · rintro a ⟨⟩
      exact hField
    · rintro a ⟨⟩
      exact hField
    · rintro i ⟨⟩ n
      exact .leaf rfl rfl
  | classVar _ hChildren _ hCast hKeeps =>
    rw [hChildren]
    refine .trans (.above rfl rfl (.idle_cons .const (hCast.reshapes.replace _)))
      (hKeeps.reshapes rfl rfl (by rintro a ⟨⟩) ?_)
    rintro i ⟨⟩ n
    exact .const
  | globalVar _ hChildren _ hCast hKeeps =>
    rw [hChildren]
    exact .trans (.above rfl rfl (hCast.reshapes.replace _))
      (hKeeps.reshapes rfl rfl (by rintro a ⟨⟩) (by rintro i ⟨⟩))

theorem Operands.reshapes (hOperand : Operands E p node p' f)
    (hReads : ∀ name kind, Reads E p name kind f → Reshapes Q [] [f]) : Reshapes Q [] [f] := by
  cases hOperand with
  | read _ _ hRead => exact hReads _ _ hRead
  | selfRef | inlineText => exact .leaf rfl rfl
  | _ => exact .const

-- Methods

theorem Finishes.reshapes (hFinish : Finishes result gs fs) : Reshapes Q gs fs := by
  cases hFinish with
  | empty | terminated => exact .refl _
  | blank _ _ hDiscards => exact hDiscards.reshapes.replace _
  | value _ _ hCasts => exact hCasts.reshapes.replace _

theorem Allocates.reshapes (hAllocates : Allocates c f) : Reshapes Q [] [f] := by
  cases hAllocates with
  | shared => exact .const
  | fresh hCalls hCasts => exact .trans (.leaf rfl rfl) (hCalls.reshapes.trans hCasts.reshapes)

theorem reshapes_leaves (hLeaves : ∀ f ∈ fs, ∃ k x ty, f = .leaf k (.localGet x) ty) :
    Reshapes Q [] fs := by
  induction fs with
  | nil => exact .refl _
  | cons f fs ih =>
    rw [forall_mem_cons] at hLeaves
    rcases hLeaves.1 with ⟨k, x, ty, rfl⟩
    exact .idle_cons (.leaf rfl rfl) (ih hLeaves.2)

/- A new object is stored, set up and read again. -/
theorem reshapes_construct (hObject : Allocates c object)
    (hArgs : ∀ arg ∈ fs, ∃ k y ty, arg = .leaf k (.localGet y) ty)
    (hCalls :
      Calls init .inNode p ⟨call, .nop, .none, .leaf this (.localGet x) (.ref c) :: fs⟩ p' f)
    (hDiscards : Discards false f g) :
    Reshapes Q [] [⟨assign, .localSet x, .none, [object]⟩, g, .leaf n (.localGet x) (.ref c)] := by
  refine .idle_cons (.above rfl rfl hObject.reshapes) (.idle_cons ?_ (.leaf rfl rfl))
  exact .trans (.idle_cons (.leaf rfl rfl) (reshapes_leaves hArgs))
    (hCalls.reshapes.trans hDiscards.reshapes)

theorem Provides.reshapes (hProvides : Provides c name scope fs) :
    Reshapes (fun _ => True) [] fs := by
  cases hProvides with
  | size => exact .leaf rfl rfl
  | initializer => exact .refl _
  | reader => exact .node rfl (fun _ _ => trivial) (.leaf rfl rfl)
  | writer => exact .node rfl (fun _ _ => trivial) (.idle_cons (.leaf rfl rfl) (.leaf rfl rfl))
  | constructor hObject hArgs hCalls hDiscards =>
    exact reshapes_construct hObject hArgs hCalls hDiscards

end Translation

end RubyWat
