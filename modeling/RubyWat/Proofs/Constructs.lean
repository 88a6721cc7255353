import RubyWat.Lower.Unit
import RubyWat.Proofs.Directives
import RubyWat.Proofs.Lowering

/-
  The code of control flow, directives and whole nodes inside of methods.

  Key definitions: `Lower.Gives`.

  Main statement: what the compiler puts below a node inside of a method is what the rules of
  the translation give (`lowerNode_faithful`).
-/

-- Steps Of A Translation

namespace RubyWat

open Code Build Dump Step List Context

variable {isWhile keep : Bool} {instr : Instr}
variable {block body : NodeId} {ctx ctx' : Context}
variable {node : Node} {fs : List Fragment}
variable {kind : Lower.VariableKind} {s₁ s₂ : LowerState} {span : Span}

namespace Lower

open Translation

variable {d : Descent} {E : Env} {s s' : LowerState} {p n : NodeId}

/- What a step in the translation of a node gives. -/
structure Gives {α : Type} (Q : α → LowerState → Prop) (step : Lower α) (s : LowerState) :
    Prop where
  ok : ∀ {a s'}, step s = .ok a s' → Q a s'

namespace Gives

variable {α β : Type} {fault : Fault}

theorem bind (hStep : Gives R step s) (hNext : ∀ a s₁, R a s₁ → Gives Q (rest a) s₁) :
    Gives Q (step >>= rest) s := by
  refine ⟨fun hRun => ?_⟩
  rcases bind_ok hRun with ⟨a, s₁, hFirst, hRest⟩
  exact (hNext a s₁ (hStep.ok hFirst)).ok hRest

theorem pure (hGives : Q a s) : Gives Q (Pure.pure a : Lower α) s := by
  refine ⟨fun hRun => ?_⟩
  cases hRun
  exact hGives

theorem refusal : Gives Q (Lower.refuse fault >>= rest) s :=
  .bind (R := fun _ _ => False) ⟨fun hRun => (refuse_ok hRun).elim⟩ fun _ _ => False.elim

theorem build {step : Build α}
    (hOk : ∀ {a ctx'}, step s.ctx = .ok a ctx' → Q a { s with ctx := ctx' }) :
    Gives Q (Lower.build step) s := by
  refine ⟨fun hRun => ?_⟩
  rcases build_ok hRun with ⟨ctx', hStep, rfl⟩
  exact hOk hStep

/- A part that has to be there. -/
theorem needed (hNext : ∀ part, node.nodeAt index = .ok part → Gives Q (rest part) s) :
    Gives Q (Lower.need (node.nodeAt index) >>= rest) s := by
  cases hPart : node.nodeAt index with
  | ok part => exact hNext part hPart
  | error malformed => exact .refusal

/- A node for what comes next. -/
theorem below {step : Build NodeId} (hInside : Inside E s p)
    (hAdds : ∀ {n ctx'}, Open s.ctx.tree p → step s.ctx = .ok n ctx' →
      Adds s.ctx ctx' p [.leaf n instr .none])
    (hPlain : instr.isPlain)
    (hNext : ∀ n s₁, Places s s₁ p [.leaf n instr .none] → s₁.ctx.program = s.ctx.program →
      Inside E s₁ n → Gives Q (rest n) s₁) :
    Gives Q (Lower.build step >>= rest) s := by
  refine .bind (R := fun n s₁ => Places s s₁ p [.leaf n instr .none]
      ∧ s₁.ctx.program = s.ctx.program)
    (.build fun hStep => ?_) fun n s₁ hBelow => ?_
  · have hAdded := hAdds hInside.isOpen hStep
    exact ⟨places_of_adds hAdded, by rw [hAdded.same]⟩
  · exact hNext n s₁ hBelow.1 hBelow.2 (hInside.below hBelow.1 (.head _) hPlain)

section

variable (hDescent : Faithful d) (hInside : Inside E s p)
include hDescent hInside

theorem descend (part : Node) (keep : Bool) :
    Gives (fun result s₁ => Emits E (.node part keep) s s₁ p result) (d.node p part keep) s :=
  ⟨hDescent E s _ p part keep _ hInside⟩

theorem value (part : Node) :
    Gives (fun n s₁ => ∃ gs f,
        Lowers E (.node part true) s.ctx.program s₁.ctx.program gs (some f) ∧ f.ty ≠ .none
          ∧ n = f.id ∧ Places s s₁ p (gs ++ [f]))
      (Lower.value d p part) s :=
  ⟨value_ok hDescent hInside⟩

theorem optional (part : Option Node) (keep : Bool) :
    Gives (fun _ s₁ => ∃ gs out,
        Lowers E (.statements part.toList keep) s.ctx.program s₁.ctx.program gs out
          ∧ Places s s₁ p (gs ++ out.toList))
      (Lower.optional d p part keep) s :=
  ⟨optional_ok hDescent hInside⟩

end

end Gives

-- Conditionals

/- A new arm with code in it. -/
theorem arm_ok (hOpen : Open s.ctx.tree p)
    (hArm : Places s s₁ p [.leaf arm instr .none]) (hBody : Places s₁ s₂ arm fs) :
    Places s s₂ p [⟨arm, instr, .none, fs⟩] :=
  hArm.fill_one hOpen hBody

/- The condition of a conditional, which is its first operand. -/
theorem test_gives {α : Type} {Q : α → LowerState → Prop} {rest : Lower α}
    (hDescent : Faithful d) (hInside : Inside E s p)
    (hNext : ∀ s₁ gs c c', Lowers E (.node test true) s.ctx.program s₁.ctx.program gs (some c) →
      c.ty ≠ .none → Tests E.fold c c' → Places s s₁ p (gs ++ [c']) → Gives Q rest s₁) :
    Gives Q (do
        let test ← value d p test
        let _ ← condition test
        rest) s := by
  refine .bind (.value hDescent hInside test) ?_
  rintro _ s₁ ⟨gs, c, hLowers, hNone, rfl, hPlaces⟩
  have hHung : Hung s₁.ctx.tree p c := hPlaces.hung hInside.isOpen (by simp)
  refine .bind (R := fun _ s₂ => ∃ c', Tests E.fold c c' ∧ Places s s₂ p (gs ++ [c'])
      ∧ s₂.ctx.program = s₁.ctx.program) (.build fun hTest => ?_) ?_
  · rcases condition_ok (hInside.after hPlaces).fold_eq hHung hTest with ⟨c', hTests, _, hStep⟩
    exact ⟨c', hTests, hPlaces.rework hInside.isOpen hStep.reworks rfl, hStep.program_eq⟩
  · rintro _ s₂ ⟨c', hTests, hCond, hProgram⟩
    exact hNext s₂ gs c c' (hProgram ▸ hLowers) hNone hTests hCond

theorem conditional_gives (hDescent : Faithful d) (hInside : Inside E s p)
    (hTag : node.tag = .cond) :
    Gives (fun n s' => Emits E (.code node keep) s s' p (some n))
      (conditional d p node keep) s := by
  refine .needed fun test hTest => ?_
  refine .below hInside Build.addNodeAt_ok rfl
    fun branch s₁ hBranch hProgram₁ hInside₁ => ?_
  refine test_gives hDescent hInside₁
    fun s₂ gs c c' hValue hNone hTests hCond => ?_
  rw [hProgram₁] at hValue
  have hInside₂ := hInside₁.after hCond
  refine .below hInside₂ Build.addNode_ok rfl fun a s₃ hArm hProgram₃ hInside₃ => ?_
  refine .bind (.optional hDescent hInside₃ (node.node? 1) keep) ?_
  rintro _ s₄ ⟨hs, out, hThen, hBody⟩
  rw [hProgram₃] at hThen
  have hParts := hCond.trans hInside₁.isOpen (arm_ok hInside₂.isOpen hArm hBody)
  rw [append_assoc] at hParts
  have hInside₄ := hInside₁.after hParts
  rcases hElse : node.node? 2 with _ | body
  · rcases hBranch.filled hInside.isOpen hParts with ⟨hFilled, hHung⟩
    refine .build fun hFinish => ?_
    rcases finishIf_ok hHung hFinish with ⟨g, hFinishes, hId, hStep⟩
    refine emits_one ?_ hId (hFilled.rework_one hInside.isOpen hStep.reworks rfl)
    rw [hStep.program_eq]
    exact .ifThen hTag hTest hElse hValue hNone hTests hThen hFinishes
  · refine .below hInside₄ Build.addNode_ok rfl fun b s₅ hArm₂ hProgram₅ hInside₅ => ?_
    refine .bind (.descend hDescent hInside₅ body keep) ?_
    rintro _ s₆ ⟨ks, out', hSecond, _, hBody₂⟩
    rw [hProgram₅] at hSecond
    have hAll := hParts.trans hInside₁.isOpen (arm_ok hInside₄.isOpen hArm₂ hBody₂)
    rw [append_assoc] at hAll
    rcases hBranch.filled hInside.isOpen hAll with ⟨hFilled, hHung⟩
    refine .build fun hFinish => ?_
    rcases finishIf_ok hHung hFinish with ⟨g, hFinishes, hId, hStep⟩
    refine emits_one ?_ hId (hFilled.rework_one hInside.isOpen hStep.reworks rfl)
    rw [hStep.program_eq]
    exact .ifThenElse hTag hTest hElse hValue hNone hTests hThen hSecond hFinishes

/-
  A condition of two statements is put below its conditional as two
  nodes, and the conditional is taken to have three arms.
-/
theorem crowded_condition : ((compileText {} {} "main"
        "(class (const nil :M) nil (defs (self) :f (args)
          (if (begin (lvasgn :x (int 1)) (true)) (int 1) (int 2))))"
      ).result.map fun _ => ()).mapError (·.report.code.text) = .error "E9001" := by
  decide +kernel

-- Loops

/- The shell of a loop: the empty loop in its block. -/
theorem Build.loopShell_ok (hOpen : Open ctx.tree p)
    (hRun : Build.loopShell p span ctx = .ok (block, body) ctx') :
    Adds ctx ctx' p [⟨block, .block, .none, [.leaf body .loop .none]⟩]
      ∧ block.index < body.index := by
  rcases bind_ok hRun with ⟨b, ctx₁, hBlock, hRest⟩
  have hFirst := Build.addNode_ok hOpen hBlock
  have hHung := hFirst.hung hOpen
  rcases bind_ok hRest with ⟨l, ctx₂, hLoop, hRest⟩
  have hInner := Build.addNode_ok hHung.root_isOpen hLoop
  have hLater : b.index < l.index :=
    Nat.lt_of_lt_of_le hHung.held.isIn (hInner.grow.fresh l (by simp [Fragment.ids_leaf]))
  have hStep : Rewrites ctx₁ ctx₂ p _ _ := ⟨hInner.same, hInner.grow.edited hHung⟩
  rcases Build.setSpan_step hStep.hung hRest with ⟨ctx₃, hSpan, hEnd⟩
  cases hEnd
  exact ⟨(hFirst.edit hOpen hStep).edit hOpen hSpan, hLater⟩

/- Below the loop of a new shell. -/
theorem Inside.inShell (hInside : Inside E s p)
    (hPlaces : Places s s₁ p [⟨block, .block, .none, [.leaf body .loop .none]⟩])
    (hLater : block.index < body.index) : Inside { E with loop := some (body, block) } s₁ body := by
  have hBlock : Inside E s₁ block := hInside.below hPlaces (.head _) rfl
  have hHung := hPlaces.hung hInside.isOpen (.head _)
  have hBody : Hung s₁.ctx.tree block (.leaf body .loop .none) := hHung.child (.head _)
  exact ⟨hBlock.fold_eq, .loop hBlock.place hBody.held.isIn hLater hBody.parent hBody.held.instr,
    hBody.root_isOpen⟩

/- Code that comes into the loop of a shell. -/
theorem Places.fillShell
    (hPlaces : Places s s₁ p [⟨block, .block, .none, [.leaf body .loop .none]⟩])
    (hOpen : Open s.ctx.tree p) (hBelow : Places s₁ s₂ body fs) :
    Places s s₂ p [⟨block, .block, .none, [⟨body, .loop, .none, fs⟩]⟩] := by
  have hHung := hPlaces.hung hOpen (.head _)
  have hBody : Hung s₁.ctx.tree block (.leaf body .loop .none) := hHung.child (.head _)
  have hSplit : (⟨block, .block, .none, [.leaf body .loop .none]⟩ : Fragment).children
        = [] ++ .leaf body .loop .none :: [] := rfl
  exact hPlaces.rework_one hOpen ⟨hBelow.options_eq,
      (hBelow.grow.edited hBody).inside hHung hSplit⟩ hBelow.loader_eq

/- A shell, and what comes into its loop afterwards. -/
theorem shell_gives (hInside : Inside E s p) :
    Gives (fun (block, loop) s₁ => Inside { E with loop := some (loop, block) } s₁ loop
        ∧ s₁.ctx.program = s.ctx.program
        ∧ ∀ {s₂ fs}, Places s₁ s₂ loop fs →
          Places s s₂ p [⟨block, .block, .none, [⟨loop, .loop, .none, fs⟩]⟩])
      (Lower.build (Build.loopShell p span)) s := by
  refine .build fun {shell ctx'} hShell => ?_
  rcases Build.loopShell_ok hInside.isOpen hShell with ⟨hAdds, hLater⟩
  have hPlaces := places_of_adds hAdds
  exact ⟨hInside.inShell hPlaces hLater, by rw [hAdds.same], hPlaces.fillShell hInside.isOpen⟩

section

variable (hDescent : Faithful d) (hInside : Inside E s p)
include hDescent hInside

/-
  A branch that a condition is put into.  Whatever the condition
  is compiled to, its first piece decides on the branch.
-/
theorem branchOn_gives {α : Type} {Q : α → LowerState → Prop} {next : Lower α}
    (hPlain : instr.isPlain)
    (hNext : ∀ s₁ test exit c c' cs, node.nodeAt 0 = .ok test →
      Lowers E (.values [test]) s.ctx.program s₁.ctx.program (c :: cs) none →
      BranchesOn E.fold negate c c' → Places s s₁ p [⟨exit, instr, .none, c' :: cs⟩] →
      Gives Q next s₁) :
    Gives Q (do
        let exit ← addNode p instr .none
        let _ ← value d exit (← node.nodeAt 0)
        branchIf exit negate
        next) s := by
  refine .below hInside Build.addNode_ok hPlain fun exit s₁ hExit hProgram hInside₁ => ?_
  refine .needed fun test hTest => ?_
  refine .bind (.value hDescent hInside₁ test) ?_
  rintro _ s₂ ⟨gs, f, hLowers, hNone, -, hBelow⟩
  have hValues := Lowers.value hLowers hNone .noValues
  rcases exists_cons_of_ne_nil (append_ne_nil_of_right_ne_nil gs (cons_ne_nil f [])) with
    ⟨c, cs, hCs⟩
  rw [hCs] at hBelow hValues
  rcases hExit.filled hInside.isOpen hBelow with ⟨hFilled, hHung⟩
  refine .bind (R := fun _ s₃ => ∃ c', BranchesOn E.fold negate c c'
      ∧ Places s s₃ p [⟨exit, instr, .none, c' :: cs⟩] ∧ s₃.ctx.program = s₂.ctx.program)
    (.build fun hBranch => ?_) ?_
  · rcases branchIf_ok (hInside₁.after hBelow).fold_eq hHung hBranch with
      ⟨_, c', _, hChildren, hBranches, hStep⟩
    cases hChildren
    exact ⟨c', hBranches, hFilled.rework_one hInside.isOpen hStep.reworks rfl, hStep.program_eq⟩
  · rintro _ s₃ ⟨c', hBranches, hPlaces, hProgram₃⟩
    rw [hProgram, ← hProgram₃] at hValues
    exact hNext s₃ test exit c c' cs hTest hValues hBranches hPlaces

theorem testedLoop_gives (keep : Bool)
    (hTag : node.tag = if isWhile then .whileLoop else .untilLoop) :
    Gives (fun n s' => Emits E (.code node keep) s s' p (some n))
      (testedLoop d p node isWhile) s := by
  refine .bind (shell_gives hInside) ?_
  rintro ⟨block, body⟩ s₁ ⟨hInside₁, hProgram, hFill⟩
  refine branchOn_gives hDescent hInside₁ rfl
    fun s₂ test exit c c' cs hTest hValue hBranch hExit => ?_
  have hInside₂ := hInside₁.after hExit
  refine .bind (.optional hDescent hInside₂ (node.node? 1) false) ?_
  rintro _ s₃ ⟨hs, out, hBody, hStatements⟩
  have hInside₃ := hInside₂.after hStatements
  refine .below hInside₃ Build.addNode_ok rfl fun back s₄ hBack hProgram₄ _ => .pure ?_
  have hLoop := hExit.trans hInside₁.isOpen (hStatements.trans hInside₂.isOpen hBack)
  refine emits_one ?_ rfl (hFill hLoop)
  rw [hProgram₄]
  rw [hProgram] at hValue
  exact .testedLoop hTag hTest hValue hBranch hBody

theorem postTestedLoop_gives (keep : Bool)
    (hTag : node.tag = if isWhile then .whilePost else .untilPost) :
    Gives (fun n s' => Emits E (.code node keep) s s' p (some n))
      (postTestedLoop d p node isWhile) s := by
  refine .bind (shell_gives hInside) ?_
  rintro ⟨block, body⟩ s₁ ⟨hInside₁, hProgram, hFill⟩
  refine .needed fun content hNode => ?_
  refine .bind (.descend hDescent hInside₁ content false) ?_
  rintro _ s₂ ⟨hs, out, hBody, _, hStatements⟩
  refine branchOn_gives hDescent (hInside₁.after hStatements) rfl
    fun s₃ test again c c' cs hTest hValue hBranch hAgain => .pure ?_
  refine emits_one ?_ rfl (hFill (hStatements.trans hInside₁.isOpen hAgain))
  rw [hProgram] at hBody
  exact .postTestedLoop hTag hTest hNode hBody hValue hBranch

end

/- The innermost loop is the one that the place says. -/
theorem Build.enclosingLoop_ok (hPlace : InMethod ctx.tree m loop p)
    (hRun : enclosingLoop p keyword span ctx = .ok n ctx') :
    ∃ block, loop = some (n, block) ∧ ctx = ctx' := by
  simp only [enclosingLoop, get_bind, enclosingLoop?_inMethod hPlace] at hRun
  rcases loop with _ | ⟨body, block⟩
  · exact (throw_ok hRun).elim
  · cases hRun
    exact ⟨block, rfl, rfl⟩

theorem branch_gives (keep : Bool) (hInside : Inside E s p)
    (hTag : node.tag = if isBreak then .breakLoop else .nextLoop) :
    Gives (fun n s' => Emits E (.code node keep) s s' p (some n))
      (branch p node isBreak) s := by
  dsimp only [branch]
  split
  · exact .refusal
  rename_i hEmpty
  have hNodes : node.nodes = [] := by simpa using hEmpty
  -- both go to a node of the loop around them
  have hLeaf : ∀ {target n ctx'}, Lowers E (.code node keep) s.ctx.program s.ctx.program []
        (some (.leaf n (.br target) .none)) →
        addNodeAt p (.br target) .none node.span s.ctx = .ok n ctx' →
        Emits E (.code node keep) s { s with ctx := ctx' } p (some n) := by
    intro target n ctx' hLowers hAdd
    have hAdds := Build.addNodeAt_ok hInside.isOpen hAdd
    refine emits_one ?_ rfl (places_of_adds hAdds)
    rw [hAdds.same]
    exact hLowers
  cases isBreak with
  | true =>
    refine .build fun hBreak => ?_
    rcases bind_ok hBreak with ⟨body, ctx₁, hLoop, hLast⟩
    rcases Build.enclosingLoop_ok hInside.place hLoop with ⟨block, hAround, rfl⟩
    rw [Build.tree_bind] at hLast
    simp only [(hAround ▸ hInside.place).parent_of_loop] at hLast
    exact hLeaf (.breakLoop hTag hNodes hAround) hLast
  | false =>
    refine .build fun hNext => ?_
    rcases bind_ok hNext with ⟨body, ctx₁, hLoop, hLast⟩
    rcases Build.enclosingLoop_ok hInside.place hLoop with ⟨block, hAround, rfl⟩
    exact hLeaf (.nextLoop hTag hNodes hAround) hLast

-- Results And Logic

section

variable (hDescent : Faithful d) (hInside : Inside E s p)
include hDescent hInside

theorem returnStatement_gives (keep : Bool) (hTag : node.tag = .ret) :
    Gives (fun n s' => Emits E (.code node keep) s s' p (some n))
      (returnStatement d p node) s := by
  refine .below hInside Build.addNodeAt_ok rfl fun ret s₁ hEmpty hProgram hInside₁ => ?_
  -- whether there is a value or not, the rest is the same
  have hFinish : ∀ s₂ cs, Lowers E (.values node.nodes) s₁.ctx.program s₂.ctx.program cs none →
        Places s₁ s₂ ret cs → node.nodes.length ≤ 1 →
        Gives (fun n s' => Emits E (.code node keep) s s' p (some n))
          (build (returnValue ret node.span)) s₂ := by
    intro s₂ cs hValues hBelow hLength
    rcases hEmpty.filled hInside.isOpen hBelow with ⟨hFilled, hHung⟩
    refine .build fun hStep => ?_
    rcases returnValue_ok (hInside₁.after hBelow).place hHung hStep with ⟨g, hReturns, hId, hEdit⟩
    refine emits_one ?_ hId (hFilled.rework_one hInside.isOpen hEdit.reworks rfl)
    rw [hEdit.program_eq]
    rw [hProgram] at hValues
    exact .ret hTag hLength hValues hReturns
  split
  · rename_i hNodes
    rw [hNodes] at hFinish
    exact hFinish s₁ [] .noValues (.refl s₁ ret) (Nat.zero_le 1)
  · rename_i result hNodes
    refine .bind (.value hDescent hInside₁ result) ?_
    rintro _ s₂ ⟨gs, f, hLowers, hNone, -, hBelow⟩
    rw [hNodes] at hFinish
    exact hFinish s₂ _ (.value hLowers hNone .noValues) hBelow (Nat.le_refl 1)
  · exact .refusal

theorem logical_gives (keep : Bool) (hTag : node.tag = if isAnd then .conj else .disj) :
    Gives (fun n s' => Emits E (.code node keep) s s' p (some n))
      (logical d p node isAnd) s := by
  refine .below hInside Build.addNode_ok rfl fun branch s₁ hBranch hProgram hInside₁ => ?_
  refine .needed fun left hLeft => ?_
  refine .bind (.value hDescent hInside₁ left) ?_
  rintro _ s₂ ⟨gs, f, hFirst, hNone, -, hBelow₁⟩
  have hInside₂ := hInside₁.after hBelow₁
  refine .needed fun right hRight => ?_
  refine .bind (.value hDescent hInside₂ right) ?_
  rintro _ s₃ ⟨hs, g, hSecond, hNone₂, -, hBelow₂⟩
  have hBelow := hBelow₁.trans hInside₁.isOpen hBelow₂
  rw [append_assoc] at hBelow
  rcases hBranch.filled hInside.isOpen hBelow with ⟨hFilled, hHung⟩
  refine .build fun hStep => ?_
  rcases shortCircuit_ok (hInside₁.after hBelow).fold_eq hHung hStep with ⟨g, hShort, hId, hEdit⟩
  refine emits_one ?_ hId (hFilled.rework_one hInside.isOpen hEdit.reworks rfl)
  rw [hEdit.program_eq]
  rw [hProgram] at hFirst
  exact .logical hTag hLeft hRight (.value hFirst hNone (.value hSecond hNone₂ .noValues)) hShort

theorem negation_ok (hTag : node.tag = .negation)
    (hRun : negation d p node s = .ok n s') : Emits E (.code node keep) s s' p (some n) := by
  rcases bind_ok hRun with ⟨apply, s₁, hApply, hRest⟩
  rcases placeholder_ok hInside hApply with ⟨hEmpty, hProgram, hInside₁⟩
  rcases need_step hRest with ⟨operand, hOperand, hRest⟩
  rcases bind_ok hRest with ⟨_, s₂, hValue, hRest⟩
  rcases oneValue_ok hDescent hInside₁ hValue with ⟨cs, hValues, hBelow⟩
  rcases hEmpty.filled hInside.isOpen hBelow with ⟨hFilled, hHung⟩
  rcases build_ok hRest with ⟨ctx', hStep, rfl⟩
  rcases applyMethod_ok (hInside₁.after hBelow).fold_eq hHung hStep with ⟨g, hApplies, hId, hRework⟩
  rw [hProgram] at hValues
  exact emits_one (.negation hTag hOperand hValues hApplies) hId
    (hFilled.rework_one hInside.isOpen hRework rfl)

end

-- Operands

section

variable (hInside : Inside E s p)
include hInside

/- A number in the code, by the rule that gives it. -/
theorem literal_ok {value : Int64} (hRule :
      ∀ n, Operands E s.ctx.program node s.ctx.program (.leaf n (.const value) (literalType value)))
    (hRun : build (intLiteral p value node.span) s = .ok n s') :
    Emits E (.code node keep) s s' p (some n) := by
  rcases intLiteral_ok hInside hRun with ⟨hPlaces, hProgram⟩
  refine emits_one ?_ rfl hPlaces
  rw [hProgram]
  exact .operand (hRule n)

theorem stringLiteral_ok (hTag : node.tag = .str)
    (hRun : build (Build.stringLiteral p bytes node.span) s = .ok n s') :
    Emits E (.code node keep) s s' p (some n) := by
  rcases build_ok hRun with ⟨ctx', hStep, rfl⟩
  rcases bind_ok hStep with ⟨address, ctx₁, hAddress, hRest⟩
  have hOnly := stringAddress_ok hAddress
  have hFirst := places_nothing hOnly.tree_eq hOnly.options_eq hOnly.loader_eq p
  have hAdds := Build.addNodeAt_ok (hInside.after hFirst).isOpen hRest
  have hSecond : Places { s with ctx := ctx₁ } { s with ctx := ctx' } p _ := places_of_adds hAdds
  rcases hOnly.program with ⟨data, hProgram⟩
  refine emits_one ?_ rfl (hFirst.trans hInside.isOpen hSecond)
  have hLast : ctx'.program = { s.ctx.program with data } := by
    rw [hAdds.same]
    exact hProgram
  rw [hLast]
  exact .operand (.str hTag)

theorem constGet_ok (hTag : node.tag = .const)
    (hRun : build (Build.constGet p path node.span) s = .ok n s') :
    Emits E (.code node keep) s s' p (some n) := by
  rcases build_ok hRun with ⟨ctx', hStep, rfl⟩
  rcases bind_ok hStep with ⟨value, ctx₁, hValue, hRest⟩
  rcases Build.constValue_ok hValue with ⟨hFind, rfl⟩
  rw [classOf_inMethod hInside.place] at hFind
  cases value with
  | cls c => exact (throw_ok hRest).elim
  | int v ty =>
    have hAdds := Build.addNodeAt_ok hInside.isOpen hRest
    refine emits_one ?_ rfl (places_of_adds hAdds)
    rw [hAdds.same]
    exact .operand (.const hTag hFind)

theorem selfValue_ok (hTag : node.tag = .selfRef)
    (hRun : build (selfValue p node.span) s = .ok n s') :
    Emits E (.code node keep) s s' p (some n) := by
  rcases build_ok hRun with ⟨ctx', hStep, rfl⟩
  simp only [selfValue, Build.get_bind, Option.map_some, methodOf?_inMethod hInside.place] at hStep
  cases hInstance : (s.ctx.program.method E.method).isInstance with
  | false =>
    simp only [hInstance, Bool.false_eq_true, if_false] at hStep
    exact (throw_ok hStep).elim
  | true =>
    simp only [hInstance, if_true] at hStep
    have hAdds := Build.addNodeAt_ok hInside.isOpen hStep
    refine emits_one ?_ rfl (places_of_adds hAdds)
    rw [hAdds.same]
    exact .operand (.selfRef hTag hInstance)

theorem variable_ok (hKind : VariableKind.ofRead? node.tag = some kind)
    (hRun : operand p node s = .ok n s') : Emits E (.code node keep) s s' p (some n) := by
  have hRead : (do
        let name ← node.symbolAt 0
        readVariable kind p name node.span : Lower NodeId) s
        = .ok n s' := by
    rcases hTag : node.tag
    all_goals rw [hTag] at hKind
    all_goals cases hKind
    all_goals simpa only [operand, hTag, VariableKind.ofRead?] using hRun
  rcases need_step hRead with ⟨name, hName, hRest⟩
  rcases build_ok hRest with ⟨ctx', hStep, rfl⟩
  rcases readVariable_ok hInside.isOpen hInside.place hStep with ⟨f, hReads, hId, hAdds⟩
  refine emits_one ?_ hId (places_of_adds hAdds)
  rw [hAdds.same]
  exact .operand (.read hKind hName hReads)

theorem operand_ok (hRun : operand p node s = .ok n s') :
    Emits E (.code node keep) s s' p (some n) := by
  cases hTag : node.tag with
  | int =>
    simp only [operand, hTag] at hRun
    rcases need_step hRun with ⟨value, hInt, hRest⟩
    exact literal_ok hInside (fun _ => .int hTag hInt) hRest
  | str =>
    simp only [operand, hTag] at hRun
    rcases need_step hRun with ⟨bytes, _, hRest⟩
    exact stringLiteral_ok hInside hTag hRest
  | trueLit =>
    simp only [operand, hTag] at hRun
    exact literal_ok hInside (fun _ => .trueLit hTag) hRun
  | falseLit =>
    simp only [operand, hTag] at hRun
    exact literal_ok hInside (fun _ => .falseLit hTag) hRun
  | const =>
    simp only [operand, hTag] at hRun
    rcases need_step hRun with ⟨path, _, hRest⟩
    exact constGet_ok hInside hTag hRest
  | selfRef =>
    simp only [operand, hTag] at hRun
    exact selfValue_ok hInside hTag hRun
  | getLocal | getIvar | getCvar | getGlobal =>
    have hRead : ∃ kind, VariableKind.ofRead? node.tag = some kind := by
      rw [hTag]
      exact ⟨_, rfl⟩
    rcases hRead with ⟨kind, hKind⟩
    exact variable_ok hInside hKind hRun
  | _ =>
    simp only [operand, hTag, VariableKind.ofRead?] at hRun
    exact (refuse_ok hRun).elim

end

-- Definitions

variable {R : LowerState → LowerState → Prop} [Lasting R]

theorem classPath_changes : Stays R (classPath path lexical span) := by
  refine .bind .program fun p => ?_
  split
  · exact .pure _
  · exact .refuse _

theorem classReference_changes : Stays R (classReference p node) := by
  unfold classReference
  split
  · exact .refuse _
  · exact .bind .context fun ctx => classPath_changes

theorem className_changes : Stays R (className p node) := by
  refine .bind (.need _) fun nameNode => ?_
  dsimp only
  split
  · exact .refuse _
  split
  · exact .refuse _
  refine .bind .context fun ctx => ?_
  split
  · exact .pure _
  · exact .bind classPath_changes fun c => .pure _

theorem superclass_changes {kind : ClassKind} : Stays R (superclass p node kind) := by
  unfold superclass
  split
  · exact .map classReference_changes
  · exact .pure _

/- No class, method or constant is defined inside of a method. -/
theorem classItem_ok {kind : ClassKind} (hInside : Inside E s p)
    (hRun : classItem d p node kind s = .ok () s') : False := by
  rcases bind_ok hRun with ⟨⟨lexical, name⟩, s₁, hName, hRest⟩
  have hSame₁ : s = s₁ := className_changes.ok s _ s₁ hName
  rcases bind_ok hRest with ⟨super, s₂, hSuper, hRest⟩
  have hSame₂ : s₁ = s₂ := superclass_changes.ok s₁ super s₂ hSuper
  rw [← hSame₂, ← hSame₁] at hRest
  rcases build_step hRest with ⟨_, ctx', hBegin, _⟩
  simp only [beginClassIn, get_bind, methodOf?_inMethod hInside.place] at hBegin
  exact throw_ok hBegin

theorem methodParts_changes : Stays R (methodParts node) :=
  .bind (.need _) fun _ => .bind (.need _) fun _ => .pure _

theorem singletonParts_changes : Stays R (singletonParts node) := by
  refine .bind (.need _) fun target => ?_
  split
  · exact .bind (.refuse _) fun _ => .bind (.need _) fun _ => .bind (.need _) fun _ => .pure _
  · exact .bind (.need _) fun _ => .bind (.need _) fun _ => .pure _

/- A method whose parts are known. -/
def methodFrom (d : Descent) (p : NodeId) (node : Node) (singleton : Bool)
    (parts : MethodParts) : Lower Unit := do
  let ctx ← context
  let scope := definedScope ctx p singleton
  let (m, function) ← beginMethod p (ctx.classOf p) parts.name scope node.span
  exportPending (.method m)
  parameters m parts.params.nodes
  match parts.body with
  | some body => methodBody d m function (bodyStatements body)
  | none => pure ()
  checkImported m function node.span
  finishMethod m function

theorem methodItem_eq (d : Descent) (p : NodeId) (node : Node) (singleton : Bool) :
    methodItem d p node singleton = (if singleton then singletonParts node else methodParts node)
        >>= methodFrom d p node singleton := by
  cases singleton <;> rfl

theorem methodItem_ok {singleton : Bool} (hInside : Inside E s p)
    (hRun : methodItem d p node singleton s = .ok () s') : False := by
  rw [methodItem_eq] at hRun
  rcases bind_ok hRun with ⟨parts, s₁, hParts, hRest⟩
  have hSame : s = s₁ := by
    cases singleton with
    | true => exact singletonParts_changes.ok s parts s₁ hParts
    | false => exact methodParts_changes.ok s parts s₁ hParts
  rw [← hSame, methodFrom, context_bind] at hRest
  rcases build_step hRest with ⟨_, ctx', hBegin, _⟩
  simp only [beginMethod, get_bind, methodOf?_inMethod hInside.place] at hBegin
  exact throw_ok hBegin

theorem constItem_ok (hInside : Inside E s p) (hRun : constItem p node s = .ok () s') : False := by
  rcases guard_ok (bind_not_ok fun _ _ => refuse_ok) hRun with ⟨_, hRest⟩
  rcases need_step hRest with ⟨name, _, hRest⟩
  rcases need_step hRest with ⟨valueNode, _, hRest⟩
  rcases bind_ok hRest with ⟨value, s₁, hValue, hRest⟩
  have hOnly := constant_dataOnly.ok s value s₁ hValue
  have hInside₁ := hInside.after (places_nothing hOnly.tree_eq hOnly.options_eq hOnly.loader_eq p)
  rcases lift_ok hRest with ⟨ctx', hDeclare, _⟩
  simp only [constDeclare, get_bind, methodOf?_inMethod hInside₁.place] at hDeclare
  exact bind_not_ok (fun _ _ => throw_ok) hDeclare

-- Nodes

variable {result : Option NodeId}

/- A step whose node stands for what it is the code of. -/
theorem emits_of_map {step : Lower NodeId}
    (hStep : ∀ {n}, step s = .ok n s' → Emits E job s s' p (some n))
    (hRun : (some <$> step) s = .ok result s') : Emits E job s s' p result := by
  rcases map_ok hRun with ⟨n, hNode, rfl⟩
  exact hStep hNode

section

variable (hDescent : Faithful d) (hInside : Inside E s p)
include hDescent hInside

theorem assignment_ok (hKind : VariableKind.ofAssignment? node.tag = some kind)
    (hRun : assignment d p kind node keep s = .ok result s') :
    Emits E (.code node keep) s s' p result := by
  simp only [assignment, context_bind, methodOf?_inMethod hInside.place] at hRun
  cases kind with
  | localVar | classVar | globalVar =>
    exact emits_of_map (assignValue_ok hDescent hInside hKind) hRun
  | instanceVar =>
    rcases need_step hRun with ⟨name, _, hRest⟩
    rcases build_step hRest with ⟨m, ctx₁, hMethod, hRest⟩
    rcases requireInstanceMethod_ok hInside.place hMethod with ⟨_, _, rfl⟩
    exact emits_of_map (assignValue_ok hDescent hInside hKind) hRest

theorem receiverSend_ok (hSend : Sends node (some receiver) name args)
    (hRun : receiverSend d p node receiver name args s = .ok result s') :
    Emits E (.code node keep) s s' p result := by
  unfold receiverSend at hRun
  cases hData : isDataRegistry receiver with
  | true =>
    rw [hData, if_pos rfl] at hRun
    exact dataAccess_ok hInside hSend hData hRun
  | false =>
    rw [hData, if_neg Bool.false_ne_true] at hRun
    rcases bind_ok hRun with ⟨_, s₁, hScope, hRest⟩
    rw [← requireMethodScope_ok hInside hScope] at hRest
    by_cases hCast : name = "cast_to"
    · subst hCast
      rw [if_pos rfl] at hRest
      exact emits_of_map (castCall_ok hDescent hInside hSend hData) hRest
    rw [if_neg hCast] at hRest
    rcases bind_ok hRest with ⟨found, s₁, hFound, hRest⟩
    rcases namedClass_ok hInside hFound with ⟨hClass, rfl⟩
    cases found with
    | none => exact emits_of_map (valueCall_ok hDescent hInside hSend hData hCast hClass) hRest
    | some c => exact emits_of_map (classCall_ok hDescent hInside hSend hData hCast hClass) hRest

theorem sendNode_ok (hTag : node.tag = .send)
    (hRun : sendNode d p node s = .ok result s') : Emits E (.code node keep) s s' p result := by
  rcases need_step hRun with ⟨name, hName, hRest⟩
  dsimp only at hRest
  rcases hItems : node.items with _ | ⟨item, items⟩
  · simp only [hItems] at hRest
    exact (refuse_ok hRest).elim
  cases item with
  | nil =>
    have hSend := Sends.plain hTag hItems hName
    simp only [hItems] at hRest
    rcases hWhich : Directive.ofName? name with _ | which
    · simp only [hWhich] at hRest
      exact emits_of_map (selfCall_ok hDescent hInside hSend hWhich) hRest
    · simp only [hWhich] at hRest
      exact directive_ok hInside hSend hWhich hRest
  | node receiver =>
    have hSend := Sends.toReceiver hTag hItems hName
    simp only [hItems] at hRest
    exact receiverSend_ok hDescent hInside hSend hRest
  | symbol _ | int _ | float _ | str _ =>
    simp only [hItems] at hRest
    exact (refuse_ok hRest).elim

end

/- The check of the scope passes inside of a method. -/
theorem requireMethodScope_bind {β : Type} (hInside : Inside E s p)
    (node : Node) (next : Unit → Lower β) :
    (requireMethodScope p node >>= next) s = next () s := by
  have hPass : requireMethodScope p node s = .ok () s := by
    simp only [requireMethodScope, context_bind, methodOf?_inMethod hInside.place]
    rfl
  show EStateM.bind (requireMethodScope p node) next s = next () s
  rw [EStateM.bind, hPass]

/- The code of a construct follows the rules, whatever its tag. -/
theorem dispatch_ok (hDescent : Faithful d) (hInside : Inside E s p)
    (hRun : dispatch d p node keep s = .ok result s') :
    Emits E (.code node keep) s s' p result := by
  cases hTag : node.tag
  all_goals
    simp only [dispatch, hTag, isExecutable, Bool.false_eq_true, if_false, if_true,
      requireMethodScope_bind hInside] at hRun
  case begin | kwbegin =>
    rcases statements_ok hDescent hInside hRun with ⟨gs, out, hLowers, hResult, hPlaces⟩
    refine ⟨gs, out, .sequence ?_ hLowers, hResult, hPlaces⟩
    simp [hTag]
  case classDef | moduleDef => exact (bind_not_ok (fun _ _ => classItem_ok hInside) hRun).elim
  case methodDef | singletonDef =>
    exact (bind_not_ok (fun _ _ => methodItem_ok hInside) hRun).elim
  case setConst => exact (bind_not_ok (fun _ _ => constItem_ok hInside) hRun).elim
  case setLocal | setIvar | setCvar | setGlobal =>
    exact assignment_ok hDescent hInside (by rw [hTag]; rfl) hRun
  case opAssign => exact emits_of_map (operatorAssignment_ok hDescent hInside hTag) hRun
  case getLocal | getIvar | getCvar | getGlobal | const | selfRef | int | str
  | trueLit | falseLit => exact emits_of_map (operand_ok hInside) hRun
  case send => exact sendNode_ok hDescent hInside hTag hRun
  case cond => exact emits_of_map (conditional_gives hDescent hInside hTag).ok hRun
  case whileLoop | untilLoop =>
    exact emits_of_map (testedLoop_gives hDescent hInside keep (by exact hTag)).ok hRun
  case whilePost | untilPost =>
    exact emits_of_map (postTestedLoop_gives hDescent hInside keep (by exact hTag)).ok hRun
  case breakLoop | nextLoop =>
    exact emits_of_map (branch_gives keep hInside (by exact hTag)).ok hRun
  case ret => exact emits_of_map (returnStatement_gives hDescent hInside keep hTag).ok hRun
  case conj | disj =>
    exact emits_of_map (logical_gives hDescent hInside keep (by exact hTag)).ok hRun
  case negation => exact emits_of_map (negation_ok hDescent hInside hTag) hRun
  case singletonClass | float | nilLit | interpolated | orAssign
  | andAssign | array | sym | hash | kwargs | pair | params | param
  | rootScope | other => exact (refuse_ok hRun).elim

/- The code of a node follows the rules inside of methods. -/
theorem lowerNode_faithful (unit : SourceUnit → Lower Unit) (fuel : Nat) :
    Faithful ⟨lowerNode unit fuel, unit⟩ := by
  induction fuel with
  | zero =>
    intro E s s' p node keep result _ hRun
    exact (refuse_ok hRun).elim
  | succ fuel ih =>
    intro E s s' p node keep result hInside hRun
    rcases bind_ok hRun with ⟨found, s₁, hCode, hRest⟩
    rcases dispatch_ok ih hInside hCode with ⟨gs, out, hLowers, rfl, hPlaces⟩
    cases out with
    | none =>
      cases hRest
      exact ⟨gs, none, .nothing hLowers, rfl, hPlaces⟩
    | some f =>
      rcases map_ok hRest with ⟨n, hKeep, rfl⟩
      rcases build_ok hKeep with ⟨ctx', hStep, rfl⟩
      have hHung : Hung s₁.ctx.tree p f := hPlaces.hung hInside.isOpen (by simp)
      rcases keepOrDrop_ok hHung hStep with ⟨g, hDiscards, rfl, hEdit⟩
      refine ⟨gs, some g, ?_, rfl, hPlaces.rework hInside.isOpen hEdit.reworks rfl⟩
      rw [hEdit.program_eq]
      exact .something hLowers hDiscards

end Lower

end RubyWat
