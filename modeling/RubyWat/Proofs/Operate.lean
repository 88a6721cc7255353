import RubyWat.Proofs.Names

/-
  Operators and calls as edits of fragments.

  Main statements: an operator or a call that compiles turns the node that holds its operands
  into what the rules of the translation give.
-/

-- Operators

namespace RubyWat

open Code Translation Build Wasm Step List Rewrites

variable {fold : Bool} {c : ClassId} {arg receiver : Fragment}
variable {ctx ctx' : Context} {args before : List Fragment}
variable {m size : MethodId} {span : Span} {name : String}
variable {ty : ValueType} {op : BinaryOp}

namespace Build

variable {p n : NodeId} {f : Fragment}

theorem promote_ok (hHung : Hung ctx.tree p f) (hRun : promote f.id target ctx = .ok n ctx') :
    ∃ g, Casts true target f g ∧ n = g.id ∧ Rewrites ctx ctx' p f g := by
  rw [promote, spanOf_bind] at hRun
  exact cast_ok hHung hRun

/- The names of operators do not depend on the type. -/
theorem binaryInstr?_isNone (name : String) (ty ty' : MachineType) :
    (binaryInstr? name ty).isNone = (binaryInstr? name ty').isNone := by
  unfold binaryInstr?
  split <;> rfl

/- No operator is a block or a loop. -/
theorem binaryInstr?_takesLabel {ty : MachineType} {instr : Instr} {result : ValueType}
    (hInstr : binaryInstr? name ty = some (instr, result)) : instr.takesLabel = false := by
  unfold binaryInstr? at hInstr
  split at hInstr
  · cases hInstr
    rfl
  · cases hInstr
    rfl
  · cases hInstr

theorem inapplicable_ok {α : Type} {a : α} (hRun : inapplicable ty name span ctx = .ok a ctx') :
    False := by
  rw [inapplicable, describe_bind] at hRun
  exact throw_ok hRun

theorem unknownOperator_ok {α : Type} {a : α}
    (hRun : unknownOperator ty name span ctx = .ok a ctx') : False := by
  rw [unknownOperator, describe_bind] at hRun
  exact throw_ok hRun

/- An operator gets its instruction, and then it may be folded. -/
theorem finishOperator_ok {ctx₁ : Context} {g : Fragment} {instr : Code.Instr}
    (hFold : ctx.options.foldConstants = fold) (hStep : Rewrites ctx ctx₁ p f g)
    (hSame : g.id = f.id) (hLabel : instr.takesLabel = false) (result : ValueType) (hRun : (do
        setNode f.id instr result
        Build.fold f.id) ctx₁ = .ok n ctx') :
    n = (Fragment.folded fold { g with instr, ty := result }).id
      ∧ Rewrites ctx ctx' p f (Fragment.folded fold { g with instr, ty := result }) := by
  have hFold₁ : ctx₁.options.foldConstants = fold := by rw [hStep.options_eq, hFold]
  rw [setNode_bind, ← hSame] at hRun
  have hSet := Rewrites.setNode hStep.hung hLabel result
  rcases fold_ok (by exact hFold₁) (hSet.hung) hRun with ⟨hId, hLast⟩
  exact ⟨hId.trans (Fragment.folded_id ..).symm, (hStep.trans hSet).trans hLast⟩

theorem binaryOperator_ok (hFold : ctx.options.foldConstants = fold)
    (hHung : Hung ctx.tree p f) (hChildren : f.children = [left, right])
    (hRef : left.ty.isRef = false)
    (hRun : binaryOperator f.id left.id right.id name span ctx = .ok n ctx') :
    ∃ g, Operates fold name ctx.program f ctx.program g ∧ n = g.id ∧ Rewrites ctx ctx' p f g := by
  have hHungL := hHung.first hChildren
  simp only [binaryOperator, tyOf_bind, hHungL.held.ty] at hRun
  rcases guard_ok (bind_not_ok fun _ _ => unknownOperator_ok) hRun with ⟨hKnown, hRun⟩
  rw [tyOf_bind, (hHung.second hChildren).held.ty] at hRun
  rcases hLeading : ValueType.leading? [left.ty, right.ty] with _ | leading
  · rw [hLeading] at hRun
    exact (inapplicable_ok hRun).elim
  rcases hMachine : leading.machine? with _ | ty
  · simp only [hLeading, hMachine] at hRun
    exact (throw_ok hRun).elim
  simp only [hLeading, hMachine] at hRun
  rcases guard_ok (bind_not_ok fun _ _ => throw_ok) hRun with ⟨hFloat, hRun⟩
  rcases bind_ok hRun with ⟨_, ctx₁, hCastL, hRun⟩
  rcases bind_ok hRun with ⟨_, ctx₂, hCastR, hRun⟩
  rcases promote_ok hHungL hCastL with ⟨left', hLeft, _, hStepL⟩
  have hFirst := Rewrites.head hHung hChildren hStepL
  have hHung₁ := hFirst.hung
  rcases promote_ok (hHung₁.child (by simp)) hCastR with ⟨right', hRight, _, hStepR⟩
  have hSplit :
      ({ f with children := [left', right] } : Fragment).children = [left'] ++ right :: [] := rfl
  have hBoth := hFirst.trans (Rewrites.inside hHung₁ hSplit hStepR)
  rcases hInstr : binaryInstr? name ty with _ | ⟨instr, result⟩
  · rw [binaryInstr?_isNone name .i32 ty, hInstr] at hKnown
    exact absurd rfl hKnown
  rw [hInstr] at hRun
  rcases finishOperator_ok hFold hBoth rfl (binaryInstr?_takesLabel hInstr) result hRun with
    ⟨hId, hLast⟩
  exact ⟨_, .binary hChildren hRef hLeading hMachine (by simpa using hFloat) hLeft hRight hInstr,
    hId, hLast⟩

theorem unaryOperator_ok (hFold : ctx.options.foldConstants = fold)
    (hHung : Hung ctx.tree p f) (hChildren : f.children = [operand])
    (hRun : unaryOperator f.id operand.id name span ctx = .ok n ctx') :
    ∃ g, Operates fold name ctx.program f ctx.program g ∧ n = g.id ∧ Rewrites ctx ctx' p f g := by
  simp only [unaryOperator, tyOf_bind, (hHung.first hChildren).held.ty] at hRun
  rcases hMachine : operand.ty.machine? with _ | ty
  · rw [hMachine] at hRun
    exact (inapplicable_ok hRun).elim
  have hTy : operand.ty = .machine ty := by
    generalize operand.ty = source at hMachine
    cases source <;> simp_all [ValueType.machine?]
  simp only [hMachine] at hRun
  rcases guard_ok (bind_not_ok fun _ _ => throw_ok) hRun with ⟨hFloat, hRun⟩
  replace hFloat : ty.isFloat = false := by simpa using hFloat
  by_cases hNegative : name = "-@"
  · subst hNegative
    simp only [createNode_bind, modifyTree_bind] at hRun
    rcases finishOperator_ok hFold (Rewrites.prepend hHung (.const 0) operand.ty) rfl rfl _ hRun
      with ⟨hId, hLast⟩
    rw [hChildren] at hId hLast
    exact ⟨_, .negative hChildren hTy hFloat, hId, hLast⟩
  by_cases hComplement : name = "~"
  · subst hComplement
    simp only [addNode_bind] at hRun
    rcases finishOperator_ok hFold (Rewrites.add hHung (.const (-1)) operand.ty) rfl rfl _ hRun with
      ⟨hId, hLast⟩
    rw [hChildren] at hId hLast
    exact ⟨_, .complement hChildren hTy hFloat, hId, hLast⟩
  by_cases hNot : name = "!"
  · subst hNot
    rcases finishOperator_ok hFold (.refl hHung) rfl rfl _ hRun with ⟨hId, hLast⟩
    exact ⟨_, .negation hChildren hTy hFloat, hId, hLast⟩
  simp only at hRun
  rcases hOp : Wasm.UnaryOp.ofName? name with _ | op
  · rw [hOp] at hRun
    exact (bind_not_ok (fun _ _ => unknownOperator_ok) hRun).elim
  rw [hOp] at hRun
  rcases finishOperator_ok hFold (.refl hHung) rfl rfl _ hRun with ⟨hId, hLast⟩
  exact ⟨_, .unary hChildren hTy hFloat hOp, hId, hLast⟩

-- Operators On References

section

variable (hHung : Hung ctx.tree p f)
include hHung

theorem pointerTest_ok (hChildren : f.children = [receiver]) (hTy : receiver.ty = .ref c)
    (hRun : pointerTest f.id receiver.id c name span ctx = .ok n ctx') :
    ∃ g, Operates fold name ctx.program f ctx.program g ∧ n = g.id ∧ Rewrites ctx ctx' p f g := by
  rcases guard_ok (bind_not_ok fun _ _ => inapplicable_ok) hRun with ⟨hName, hRun⟩
  replace hName : name = "!" ∨ name = "zero?" := by
    by_contra hOther
    rw [not_or] at hOther
    exact hName (by simp [hOther])
  have hFirst := Rewrites.head hHung hChildren (.setTy (hHung.first hChildren) address)
  have hLabel : (Instr.unary .eqz).takesLabel = false := rfl
  have hSecond := Rewrites.setNode (hFirst.hung) hLabel .i32
  cases hRun
  exact ⟨_, .nullTest hChildren hTy hName, rfl, hFirst.trans hSecond⟩

section

variable (hChildren : f.children = [receiver, arg])
include hChildren

theorem pointerCompare_ok {op : Relation} (hTy : receiver.ty = .ref c)
    (hOp : Relation.ofName? name = some op)
    (hRun : pointerCompare f.id receiver.id arg.id op span ctx = .ok n ctx') :
    ∃ g, Operates fold name ctx.program f ctx.program g ∧ n = g.id ∧ Rewrites ctx ctx' p f g := by
  rcases bind_ok hRun with ⟨_, ctx₁, hCastR, hRun⟩
  rcases bind_ok hRun with ⟨_, ctx₂, hCastA, hRun⟩
  rcases cast_ok (hHung.first hChildren) hCastR with ⟨receiver', hReceiver, _, hStepR⟩
  have hFirst := Rewrites.head hHung hChildren hStepR
  have hHung₁ := hFirst.hung
  rcases cast_ok (hHung₁.child (by simp)) hCastA with ⟨arg', hArg, _, hStepA⟩
  have hSplit : ({ f with children := [receiver', arg] } : Fragment).children
        = [receiver'] ++ arg :: [] := rfl
  have hBoth := hFirst.trans (Rewrites.inside hHung₁ hSplit hStepA)
  have hLabel : (Instr.compare op ValueType.pointer).takesLabel = false :=
    rfl
  have hSet := Rewrites.setNode (hBoth.hung) hLabel .i32
  cases hRun
  exact ⟨_, .addressCompare hChildren hTy hOp hReceiver hArg, rfl, hBoth.trans hSet⟩

theorem pointerDifference_ok
    (hRun : pointerDifference f.id receiver.id arg.id size ctx = .ok n ctx') :
    ∃ quotient call, n = quotient ∧ Rewrites ctx ctx' p f
        ⟨quotient, .binary .div, address, [{ f with
              instr := .binary .sub
              ty := address
              children := [{ receiver with ty := address }, { arg with ty := address }] },
            .leaf call (.call size) address]⟩ := by
  rcases setTy_step (hHung.first hChildren) hRun with ⟨ctx₁, hStepR, hRun⟩
  have hFirst := head hHung hChildren hStepR
  have hHung₁ := hFirst.hung
  have hHungA : Hung ctx₁.tree f.id arg := hHung₁.child (by simp)
  rcases setTy_step hHungA hRun with ⟨ctx₂, hStepA, hRun⟩
  have hSplit : ({ f with
          children := [{ receiver with ty := address }, arg] }
        : Fragment).children
        = [{ receiver with ty := address }] ++ arg :: [] := rfl
  have hSecond := inside hHung₁ hSplit hStepA
  rcases setNode_step hSecond.hung rfl hRun with ⟨ctx₃, hSet, hRun⟩
  rcases insertAbove_step hSet.hung hRun with ⟨ctx₄, quotient, hAbove, hRun⟩
  rcases addNode_step hAbove.hung hRun with ⟨ctx₅, call, hAdd, hRun⟩
  rcases pure_ok hRun with ⟨rfl, rfl⟩
  exact ⟨_, _, rfl, (((hFirst.trans hSecond).trans hSet).trans hAbove).trans hAdd⟩

theorem pointerMove_ok (hRun : pointerMove f.id arg.id c op size span ctx = .ok n ctx') :
    ∃ arg' scaled call, Casts true address arg arg' ∧ n = f.id ∧ Rewrites ctx ctx' p f { f with
          instr := .binary op
          ty := .ref c
          children := [receiver,
              ⟨scaled, .binary .mul, address, [arg', .leaf call (.call size) address]⟩] } := by
  rcases bind_ok hRun with ⟨_, ctx₁, hCast, hRun⟩
  rcases cast_ok (hHung.second hChildren) hCast with ⟨arg', hCasts, rfl, hStep⟩
  have hAbove := Rewrites.insertAbove hStep.hung (.binary .mul) address
  have hAdd := Rewrites.add hAbove.hung (.call size) address
  have hSplit : f.children = [receiver] ++ arg :: [] := hChildren
  have hInner := Rewrites.inside hHung hSplit ((hStep.trans hAbove).trans hAdd)
  have hLabel : (Instr.binary op).takesLabel = false := rfl
  have hSet := Rewrites.setNode (hInner.hung) hLabel (.ref c)
  cases hRun
  exact ⟨arg', _, _, hCasts, rfl, hInner.trans hSet⟩

theorem pointerArithmetic_ok (hTy : receiver.ty = .ref c)
    (hName : name = "+" ∧ op = .add ∨ name = "-" ∧ op = .sub)
    (hRun : pointerArithmetic f.id receiver.id arg.id c op name span ctx = .ok n ctx') :
    ∃ g, Operates fold name ctx.program f ctx'.program g ∧ n = g.id ∧ Reworks ctx ctx' p f g := by
  simp only [pointerArithmetic, tyOf_bind, (hHung.second hChildren).held.ty] at hRun
  rcases bind_ok hRun with ⟨size, ctx₁, hSize, hRun⟩
  have hSame := (sizeMethod_namesOnly _ _ _ hSize).same
  have hNames := sizeMethod_namesOnly.names hSize
  have hTree : ctx₁.tree = ctx.tree := by rw [hSame]
  have hDeclared := Reworks.of_names hHung hTree (by rw [hSame])
  have hHung₁ := hDeclared.hung
  by_cases hDistance : op = .sub ∧ arg.ty.isRef = true
  · rw [if_pos hDistance] at hRun
    rcases guard_ok (fun hThrow => by
        rw [describe_bind, describe_bind] at hThrow
        exact bind_not_ok (fun _ _ => throw_ok) hThrow)
      hRun with ⟨hArg, hRun⟩
    rcases pointerDifference_ok hHung₁ hChildren hRun with ⟨quotient, call, hId, hStep⟩
    have hMinus : name = "-" := by
      rcases hName with ⟨_, hAdd⟩ | ⟨hMinus, _⟩
      · rw [hDistance.1] at hAdd
        cases hAdd
      · exact hMinus
    subst hMinus
    refine ⟨_, ?_, hId, hDeclared.trans hStep.reworks⟩
    rw [hStep.program_eq]
    exact .distance hChildren hTy (not_not.mp hArg) hNames
  · rw [if_neg hDistance] at hRun
    rcases guard_ok inapplicable_ok hRun with ⟨hInteger, hRun⟩
    rcases pointerMove_ok hHung₁ hChildren hRun with ⟨arg', scaled, call, hCasts, hId, hStep⟩
    refine ⟨_, ?_, ?_, hDeclared.trans hStep.reworks⟩
    · rw [hStep.program_eq]
      exact .move hName hChildren hTy (by simpa using hInteger) hNames hCasts
    · exact hId

end

-- All Operators

theorem pointerOperator_ok (hChildren : f.children = receiver :: args) (hTy : receiver.ty = .ref c)
    (hRun : pointerOperator f.id receiver.id c name (args.map Fragment.id) span ctx = .ok n ctx') :
    ∃ g, Operates fold name ctx.program f ctx'.program g ∧ n = g.id ∧ Reworks ctx ctx' p f g := by
  rcases args with _ | ⟨arg, _ | ⟨other, rest⟩⟩
  · rcases pointerTest_ok hHung hChildren hTy hRun with ⟨g, hOperates, hId, hStep⟩
    exact ⟨g, by rwa [hStep.program_eq], hId, hStep.reworks⟩
  · simp only [pointerOperator, map_cons, map_nil] at hRun
    rcases hOp : Relation.ofName? name with _ | op
    · rw [hOp] at hRun
      by_cases hPlus : name = "+"
      · subst hPlus
        exact pointerArithmetic_ok hHung hChildren hTy (.inl ⟨rfl, rfl⟩) hRun
      by_cases hMinus : name = "-"
      · subst hMinus
        exact pointerArithmetic_ok hHung hChildren hTy (.inr ⟨rfl, rfl⟩) hRun
      simp only at hRun
      exact (inapplicable_ok hRun).elim
    · rw [hOp] at hRun
      rcases pointerCompare_ok hHung hChildren hTy hOp hRun with ⟨g, hOperates, hId, hStep⟩
      exact ⟨g, by rwa [hStep.program_eq], hId, hStep.reworks⟩
  · exact (throw_ok hRun).elim

end

theorem operator_ok (hFold : ctx.options.foldConstants = fold) (hHung : Hung ctx.tree p f)
    (hRun : operator f.id name span ctx = .ok n ctx') :
    ∃ g, Operates fold name ctx.program f ctx'.program g ∧ n = g.id ∧ Reworks ctx ctx' p f g := by
  simp only [operator, childrenOf_bind, hHung.held.children] at hRun
  rcases hChildren : f.children with _ | ⟨receiver, args⟩
  · simp only [hChildren] at hRun
    exact (throw_ok hRun).elim
  simp only [hChildren, map_cons, tyOf_bind, (hHung.first hChildren).held.ty] at hRun
  by_cases hRef : ∃ c, receiver.ty = .ref c
  · rcases hRef with ⟨c, hTy⟩
    rw [hTy] at hRun
    exact pointerOperator_ok hHung hChildren hTy hRun
  have hNotRef : ∀ c, receiver.ty ≠ .ref c := fun c hTy => hRef ⟨c, hTy⟩
  simp only at hRun
  rcases args with _ | ⟨arg, _ | ⟨other, rest⟩⟩
  · rcases unaryOperator_ok hFold hHung hChildren hRun with ⟨g, hOperates, hId, hStep⟩
    exact ⟨g, by rwa [hStep.program_eq], hId, hStep.reworks⟩
  · have hPlain : receiver.ty.isRef = false := by
      generalize receiver.ty = ty at hNotRef
      cases ty with
      | ref c => exact absurd rfl (hNotRef c)
      | none | machine ty => rfl
    rcases binaryOperator_ok hFold hHung hChildren hPlain hRun with ⟨g, hOperates, hId, hStep⟩
    exact ⟨g, by rwa [hStep.program_eq], hId, hStep.reworks⟩
  · exact (throw_ok hRun).elim

-- Calls

theorem placeReceiver_ok {owner : ClassId} {receiver : Receiver} (hHung : Hung ctx.tree p f)
    (hRun : placeReceiver f.id owner receiver ctx = .ok () ctx') :
    ∃ cs, Receives owner receiver f.children cs
      ∧ Rewrites ctx ctx' p f { f with children := cs } := by
  cases receiver with
  | inNode =>
    cases hRun
    exact ⟨_, .inNode, by rw [Fragment.eta]; exact .refl hHung⟩
  | absent =>
    cases hRun
    exact ⟨_, .absent, by rw [Fragment.eta]; exact .refl hHung⟩
  | current =>
    cases hRun
    exact ⟨_, .current, .prepend hHung _ _⟩
  | null =>
    cases hRun
    exact ⟨_, .null, .prepend hHung _ _⟩

theorem castArguments_ok (hLength : args.length = types.length)
    (hHung : Hung ctx.tree p f) (hChildren : f.children = before ++ args)
    (hRun : castArguments span (args.map Fragment.id) types ctx = .ok () ctx') :
    ∃ args', CastsAll args types args' ∧ Rewrites ctx ctx' p f
        { f with children := before ++ args' } := by
  induction args generalizing ctx before types f with
  | nil =>
    rcases types with _ | ⟨ty, types⟩
    · cases hRun
      refine ⟨[], .nil, ?_⟩
      rw [← hChildren, Fragment.eta]
      exact .refl hHung
    · cases hLength
  | cons arg rest ih =>
    rcases types with _ | ⟨ty, types⟩
    · cases hLength
    have hHungA : Hung ctx.tree f.id arg := hHung.child (by simp [hChildren])
    rw [map_cons, castArguments, spanOf_bind] at hRun
    rcases bind_ok hRun with ⟨_, ctx₁, hCast, hRun⟩
    rcases cast_ok hHungA hCast with ⟨arg', hCasts, _, hStep⟩
    have hFirst := inside hHung hChildren hStep
    have hSplit : ({ f with children := before ++ arg' :: rest }
          : Fragment).children = (before ++ [arg']) ++ rest := by
      simp
    rcases ih (by simpa using hLength) hFirst.hung hSplit hRun with ⟨rest', hAll, hRest⟩
    refine ⟨arg' :: rest', .cons hCasts hAll, ?_⟩
    have hBoth := hFirst.trans hRest
    simpa using hBoth

/- Parameters are taken from the first call of a method. -/
theorem assumeParams_eq (hTypes : (args.map Fragment.id).map ctx.tree.ty = args.map (·.ty))
    (hForward : (ctx.program.method m).isForward = true) :
    assumeParams m (args.map Fragment.id) ctx = .ok ()
      { ctx with program := assumed ctx.program m (args.map (·.ty)) } := by
  rw [assumeParams, tree_bind, hTypes]
  simp only [assumed, hForward, if_true]
  rfl

/- The part of a call behind its receiver. -/
def finishCall (n : NodeId) (m : MethodId) (span : Span) (args : List NodeId) : Build NodeId := do
  if ((← program).method m).isForward then assumeParams m args
  let x := (← program).method m
  if args.length ≠ x.params.length then
    throw (.argumentCount ((← program).describeMethod m) x.params.length args.length span)
  castArguments span args (x.params.map (·.ty))
  setNode n (.call m) x.result
  setSpan n span
  return n

theorem call_eq (n : NodeId) (m : MethodId) (receiver : Receiver) (span : Span) :
    call n m receiver span = (do
          placeReceiver n ((← program).method m).owner receiver
          let args ← callArguments n m span
          finishCall n m span args) :=
  rfl

/- A call that is the first of its target declares parameters. -/
theorem assume_ok (hHeld : ∀ a ∈ args, Held ctx.tree a) (hRun : (do
        if ((← program).method m).isForward then assumeParams m (args.map Fragment.id)
        rest) ctx = .ok n ctx') :
    rest { ctx with program := assumed ctx.program m (args.map (·.ty)) } = .ok n ctx' := by
  have hTypes : (args.map Fragment.id).map ctx.tree.ty = args.map (·.ty) := by
    rw [map_map]
    apply map_congr_left
    intro a hMem
    exact (hHeld a hMem).ty
  simp only [program_bind] at hRun
  cases hForward : (ctx.program.method m).isForward with
  | true =>
    rw [hForward, if_pos rfl] at hRun
    rcases bind_ok hRun with ⟨_, ctx₁, hAssume, hRest⟩
    rw [assumeParams_eq hTypes hForward] at hAssume
    cases hAssume
    exact hRest
  | false =>
    rw [hForward, if_neg Bool.false_ne_true] at hRun
    simp only [assumed, hForward, Bool.false_eq_true, if_false]
    exact hRun

theorem finishCall_ok (hHung : Hung ctx.tree p f) (hChildren : f.children = before ++ args)
    (hRun : finishCall f.id m span (args.map Fragment.id) ctx = .ok n ctx') :
    ∃ args', CastsAll args (((assumed ctx.program m (args.map (·.ty))).method
            m).params.map (·.ty)) args'
        ∧ n = f.id
        ∧ ctx'.program = assumed ctx.program m (args.map (·.ty))
        ∧ Reworks ctx ctx' p f { f with
            instr := .call m
            ty := ((assumed ctx.program m (args.map (·.ty))).method m).result
            children := before ++ args' } := by
  have hHeld : ∀ a ∈ args, Held ctx.tree a :=
    fun a hMem => hHung.held.child (by simp [hChildren, hMem])
  replace hRun := assume_ok hHeld hRun
  rw [program_bind] at hRun
  rcases guard_ok (fun hThrow => by
      rw [program_bind] at hThrow
      exact bind_not_ok (fun _ _ => throw_ok) hThrow)
    hRun with ⟨hLength, hRun⟩
  rcases bind_ok hRun with ⟨_, ctx₁, hCasts, hRun⟩
  have hDeclared : Reworks ctx { ctx with program := assumed ctx.program m (args.map (·.ty)) }
        p f f :=
    .of_names hHung rfl rfl
  have hHung₁ := hDeclared.hung
  rcases castArguments_ok (by simpa using hLength) hHung₁ hChildren hCasts with ⟨args', hAll, hStep⟩
  rcases setNode_step hStep.hung rfl hRun with ⟨ctx₂, hSet, hRun⟩
  rcases setSpan_step hSet.hung hRun with ⟨ctx₃, hSpan, hRun⟩
  rcases pure_ok hRun with ⟨rfl, rfl⟩
  have hTree := (hStep.trans hSet).trans hSpan
  refine ⟨args', hAll, rfl, ?_, hDeclared.trans hTree.reworks⟩
  rw [hTree.program_eq]

theorem call_ok {receiver : Receiver} (hHung : Hung ctx.tree p f)
    (hRun : call f.id m receiver span ctx = .ok n ctx') :
    ∃ g, Calls m receiver ctx.program f ctx'.program g ∧ n = g.id ∧ Reworks ctx ctx' p f g := by
  rw [call_eq, program_bind] at hRun
  rcases bind_ok hRun with ⟨_, ctx₁, hPlace, hRun⟩
  rcases placeReceiver_ok hHung hPlace with ⟨cs, hReceives, hFirst⟩
  have hHung₁ := hFirst.hung
  have hProgram := hFirst.program_eq
  rcases bind_ok hRun with ⟨args, ctx₂, hArguments, hRun⟩
  simp only [callArguments, program_bind, childrenOf_bind,
    hHung₁.held.children, hProgram] at hArguments
  cases hInstance : (ctx.program.method m).isInstance with
  | false =>
    rw [hInstance] at hArguments
    cases hArguments
    have hSplit : ({ f with children := cs } : Fragment).children = [] ++ cs := rfl
    rcases finishCall_ok hHung₁ hSplit hRun with ⟨args', hAll, hId, hNames, hLast⟩
    rw [hProgram] at hAll hNames hLast
    refine ⟨_, ?_, ?_, hFirst.reworks.trans hLast⟩
    · rw [hNames]
      exact .onClass hInstance hReceives hAll
    · exact hId
  | true =>
    rw [hInstance, if_pos rfl] at hArguments
    rcases cs with _ | ⟨this, args⟩
    · exact (throw_ok hArguments).elim
    have hHungT : Hung ctx₁.tree f.id this := hHung₁.child (by simp)
    rcases bind_ok hArguments with ⟨_, ctx₃, hCast, hEnd⟩
    cases hEnd
    rcases cast_ok hHungT hCast with ⟨this', hThis, _, hStep⟩
    have hSecond := head hHung₁ rfl hStep
    have hSplit :
        ({ f with children := this' :: args } : Fragment).children = [this'] ++ args := rfl
    rcases finishCall_ok hSecond.hung hSplit hRun with ⟨args', hAll, hId, hNames, hLast⟩
    rw [hSecond.program_eq, hProgram] at hAll hNames hLast
    refine ⟨_, ?_, ?_, (hFirst.trans hSecond).reworks.trans hLast⟩
    · rw [hNames]
      exact .onInstance hInstance hReceives hThis hAll
    · exact hId

end Build

namespace Lower

variable {p n : NodeId} {f : Fragment}

theorem applyMethod_ok (hFold : ctx.options.foldConstants = fold) (hHung : Hung ctx.tree p f)
    (hRun : applyMethod f.id name span ctx = .ok n ctx') :
    ∃ g, Applies fold name ctx.program f ctx'.program g ∧ n = g.id ∧ Reworks ctx ctx' p f g := by
  simp only [applyMethod, tree_bind, Tree.firstChild?, hHung.held.children] at hRun
  rcases hChildren : f.children with _ | ⟨receiver, args⟩
  · simp only [hChildren] at hRun
    exact (throw_ok hRun).elim
  simp only [hChildren, map_cons, head?_cons, tyOf_bind, (hHung.first hChildren).held.ty] at hRun
  by_cases hRef : ∃ c, receiver.ty = .ref c
  · rcases hRef with ⟨c, hTy⟩
    simp only [hTy, program_bind] at hRun
    rcases hMethod : ctx.program.instanceMethod? c name with _ | m
    · rw [hMethod] at hRun
      cases hOperator : isOperator name with
      | true =>
        simp only [hOperator, if_true] at hRun
        rcases operator_ok hFold hHung hRun with ⟨g, hOperates, hId, hStep⟩
        exact ⟨g, .operator hOperates, hId, hStep⟩
      | false =>
        simp only [hOperator, Bool.false_eq_true, if_false, declare_bind] at hRun
        have hDeclared : Reworks ctx
              { ctx with program := (ctx.program.declareMethod c name .onInstance span).2 }
              p f f :=
          .of_names hHung rfl rfl
        rcases call_ok (hDeclared.hung) hRun with ⟨g, hCalls, hId, hStep⟩
        exact ⟨g, .forward hChildren hTy hMethod hCalls, hId, hDeclared.trans hStep⟩
    · rw [hMethod] at hRun
      rcases call_ok hHung hRun with ⟨g, hCalls, hId, hStep⟩
      exact ⟨g, .method hChildren hTy hMethod hCalls, hId, hStep⟩
  · have hNotRef : ∀ c, receiver.ty ≠ .ref c := fun c hTy => hRef ⟨c, hTy⟩
    simp only at hRun
    rcases operator_ok hFold hHung hRun with ⟨g, hOperates, hId, hStep⟩
    exact ⟨g, .operator hOperates, hId, hStep⟩

end Lower

end RubyWat
