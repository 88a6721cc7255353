import RubyWat.Proofs.ClosedModule
import RubyWat.Proofs.Exits

/-
  Branches of a finished program.

  Key definitions: `Context.WellBranched`, `Definition.controls`, `Definition.SteeredIn`.

  Main statement: in every program that compiles, branches go to blocks and loops around them in
  their method, all of which have labels of their own; what leaves or repeats a loop of the
  source goes to the block or to the loop that the innermost loop around it became; and no
  evaluation is told of a branch out of a function (`branch_targets`).
-/

-- Targets In Code

namespace RubyWat

open Code Machine Translation List Compilation

namespace Code

/- An instruction that branches to a node, perhaps. -/
def Instr.BranchesTo (instr : Instr) (target : NodeId) : Prop :=
  instr = .br target ∨ instr = .brIf target

/- An instruction that can be the target of a branch. -/
def Instr.IsTarget (instr : Instr) : Prop :=
  instr = .block ∨ instr = .loop

namespace Fragment.Within

variable {f g : Fragment}

/- A part of a fragment is all of it or lies in a child. -/
theorem cases_head (hWithin : f.Within g) : f = g ∨ ∃ c ∈ f.children, c.Within g := by
  induction hWithin with
  | self => exact .inl rfl
  | @child g c _ hChild ih =>
    rcases ih with rfl | ⟨d, hD, hRest⟩
    · exact .inr ⟨c, hChild, .self⟩
    · exact .inr ⟨d, hD, .child hRest hChild⟩

theorem head (hChild : c ∈ f.children) (hWithin : c.Within g) : f.Within g :=
  trans (.child .self hChild) hWithin

end Fragment.Within

/- Straight instructions do not branch. -/
theorem Instr.not_branchesTo {instr : Instr} {target : NodeId}
    (hStraight : instr.isStraight = true) : ¬ instr.BranchesTo target := by
  rintro (rfl | rfl)
  · cases hStraight
  · cases hStraight

/-
  A branch in code that steers goes to the loop around the code,
  or to a block or a loop inside that the branch lies in.
-/
theorem Steers.target {L : Option (NodeId × NodeId)} {fs : List Fragment}
    {cs : List Control} {f g : Fragment} {target : NodeId} (hSteers : Steers L fs cs)
    (hMem : f ∈ fs) (hWithin : f.Within g) (hBranch : g.instr.BranchesTo target) :
    (∃ loop block, L = some (loop, block) ∧ (target = loop ∨ target = block))
      ∨ ∃ h, f.Within h ∧ h.id = target ∧ h.instr.IsTarget ∧ ∃ c ∈ h.children, c.Within g := by
  induction hSteers generalizing f with
  | nil => cases hMem
  | straight hStraight _ _ ihInside ihRest =>
    rcases mem_cons.mp hMem with rfl | hMem
    · rcases hWithin.cases_head with rfl | ⟨c, hChild, hBelow⟩
      · exact absurd hBranch (Instr.not_branchesTo hStraight.isStraight)
      rcases ihInside hChild hBelow with hAround | ⟨h, hUp, hRest⟩
      · exact .inl hAround
      · exact .inr ⟨h, .head hChild hUp, hRest⟩
    · exact ihRest hMem hWithin
  | exit _ ih | again _ ih =>
    rcases mem_cons.mp hMem with rfl | hMem
    · rcases hWithin.cases_head with rfl | ⟨c, hChild, _⟩
      · rcases hBranch with hIs | hIs
        · cases hIs
          simp
        · cases hIs
      · cases hChild
    · exact ih hMem hWithin
  | exitIf _ _ ihTest ihRest | againIf _ _ ihTest ihRest =>
    rcases mem_cons.mp hMem with rfl | hMem
    · rcases hWithin.cases_head with rfl | ⟨c, hChild, hBelow⟩
      · rcases hBranch with hIs | hIs
        · cases hIs
        · cases hIs
          simp
      · rcases ihTest hChild hBelow with hAround | ⟨h, hUp, hRest⟩
        · exact .inl hAround
        · exact .inr ⟨h, .head hChild hUp, hRest⟩
    · exact ihRest hMem hWithin
  | @loop _ block loop body _ _ _ _ _ ihBody ihRest =>
    rcases mem_cons.mp hMem with rfl | hMem
    · -- the branch lies in the body of the loop
      rcases hWithin.cases_head with rfl | ⟨c, hChild, hBelow⟩
      · rcases hBranch with hIs | hIs <;> cases hIs
      rw [mem_singleton] at hChild
      subst hChild
      rcases hBelow.cases_head with rfl | ⟨d, hD, hDeep⟩
      · rcases hBranch with hIs | hIs <;> cases hIs
      right
      rcases ihBody hD hDeep with ⟨_, _, hSome, hTarget⟩ | ⟨h, hUp, hRest⟩
      · cases hSome
        rcases hTarget with rfl | rfl
        · exact ⟨_, .head (.head _) .self, rfl, .inr rfl, d, hD, hDeep⟩
        · exact ⟨_, .self, rfl, .inl rfl, _, (.head _), hBelow⟩
      · exact ⟨h, .head (.head _) (.head hD hUp), hRest⟩
    · exact ihRest hMem hWithin

end Code

-- Targets In A Program

/-
  Every branch lies in a method, strictly below its target, which is a block or a loop of that
  method.  Blocks and loops carry labels, each its own.
-/
structure Context.WellBranched (ctx : Context) : Prop where
  lands : ∀ n target, ctx.tree.Reaches Tree.root n → (ctx.tree.instr n).BranchesTo target →
        ∃ m function, ctx.tree.Reaches Tree.root function ∧ ctx.tree.instr function = .function m
            ∧ ctx.tree.Reaches function target ∧ target ≠ function
            ∧ ctx.tree.Reaches target n ∧ target ≠ n
            ∧ (ctx.tree.instr target).IsTarget
  carries : ∀ n, ctx.tree.Reaches Tree.root n → (ctx.tree.instr n).IsTarget → ∃ label,
        ctx.tree.label? n = some label
  distinct : ∀ n k, ctx.tree.Reaches Tree.root n → ctx.tree.Reaches Tree.root k →
      (ctx.tree.instr n).IsTarget → (ctx.tree.instr k).IsTarget →
      n ≠ k → ctx.tree.label? n ≠ ctx.tree.label? k

section

variable (hRooted : Rooted ctx) (hArranged : Arranged ctx.tree Tree.root)
include hRooted hArranged

theorem Settled.lands (hReach : ctx.tree.Reaches Tree.root n)
    (hBranch : (ctx.tree.instr n).BranchesTo target) :
    ∃ m function, ctx.tree.Reaches Tree.root function ∧ ctx.tree.instr function = .function m
        ∧ ctx.tree.Reaches function target ∧ target ≠ function
        ∧ ctx.tree.Reaches target n ∧ target ≠ n
        ∧ (ctx.tree.instr target).IsTarget := by
  have hShaped := hRooted.outlined.shaped hRooted.root.isGroup hArranged
  cases hReach.located hArranged hRooted.root.isGroup with
  | group hAttached =>
    have hIs := hAttached.isGroup
    rcases hBranch with hInstr | hInstr <;> (rw [hInstr] at hIs; contradiction)
  | @code m f g hDefined hDefines hWithin =>
    have hHeld := hDefined.held
    rw [(hWithin.held hHeld).instr] at hBranch
    rcases hWithin.cases_head with rfl | ⟨c, hChild, hBelow⟩
    · rw [hDefined.instr] at hBranch
      rcases hBranch with hInstr | hInstr <;> cases hInstr
    rcases hDefined.coded.steers with ⟨cs, hSteers⟩
    rcases hSteers.target hChild hBelow hBranch with
      ⟨_, _, hNone, _⟩ | ⟨h, hUp, rfl, hIs, d, hD, hDown⟩
    · cases hNone
    have hHeldC := hHeld.child hChild
    have hHeldH := hUp.held hHeldC
    have hFunction := hDefines.reaches
    have hInner : ctx.tree.Reaches f.id h.id := (Fragment.Within.head hChild hUp).reaches hHeld
    have hDeep : ctx.tree.Reaches d.id g.id := hDown.reaches (hHeldH.child hD)
    have hChildC : c.id ∈ ctx.tree.children f.id := by
      rw [hHeld.children]
      exact mem_map_of_mem hChild
    have hChildD : d.id ∈ ctx.tree.children h.id := by
      rw [hHeldH.children]
      exact mem_map_of_mem hD
    refine ⟨m, f.id, hFunction, hDefines.instr, hInner, ?_, .head hChildD hDeep, ?_, ?_⟩
    · intro hEq
      refine hShaped.noReturn f.id hFunction c.id hChildC ?_
      rw [← hEq]
      exact hUp.reaches hHeldC
    · intro hEq
      refine hShaped.noReturn h.id (hFunction.trans hInner) d.id hChildD ?_
      rw [hEq]
      exact hDeep
    · rw [hHeldH.instr]
      exact hIs

theorem Settled.wellBranched (hLabels : ctx.tree.Labelled) : ctx.WellBranched := by
  have hCarries : ∀ n, (ctx.tree.instr n).IsTarget → ∃ label, ctx.tree.label? n = some label := by
    intro n hIs
    refine hLabels.carries trivial n ?_
    rcases hIs with hInstr | hInstr <;> (rw [hInstr]; rfl)
  refine ⟨?_, fun n _ => hCarries n, ?_⟩
  · exact fun n target => hRooted.lands hArranged
  · intro n k _ _ hN _ hNe hSame
    rcases hCarries n hN with ⟨label, hLabel⟩
    exact hNe (hLabels.distinct n k label hLabel (hSame ▸ hLabel))

/- The methods of a finished program steer. -/
theorem Settled.steered : Steered ctx := by
  intro m n hBody
  rcases (hRooted.bodies hArranged m n).mp hBody with ⟨hReach, hInstr⟩
  cases hReach.located hArranged hRooted.root.isGroup with
  | group hAttached =>
    have hIs := hAttached.isGroup
    rw [hInstr] at hIs
    contradiction
  | @code k f g hDefined hDefines hWithin =>
    rcases hWithin.neat hDefined with rfl | hNeat
    · rcases hDefined.coded.steers with ⟨cs, hSteers⟩
      exact ⟨g, cs, rfl, hDefined.held, hSteers⟩
    · have hInner := hNeat.tidy.inner
      rw [← (hWithin.held hDefined.held).instr, hInstr] at hInner
      contradiction

end

-- Loops Of The Source

/- The control flow of a definition. -/
def Definition.controls (d : Definition) : List Control :=
  (Lower.statementsOf d.parts.body).flatMap (·.controls)

/-
  The method of a definition: it has code that steers as the definition says, unless the host
  provided it when it was defined, and then the definition has no control flow.
-/
inductive Definition.Realized (d : Definition) (ctx : Context) (m : MethodId) : Prop where
  | written {f : Fragment} (hBody : (ctx.program.method m).body = some f.id)
      (hHeld : Held ctx.tree f) (hInstr : f.instr = .function m)
      (hSteers : Steers none f.children d.controls) : Realized d ctx m
  | imported {ctx₀ : Context} (hEvolves : Evolves ctx₀ ctx)
      (hImported : (ctx₀.program.method m).flags.imported = true) (hNone : d.controls = []) :
      Realized d ctx m

/- A definition that has its method in a class of the program. -/
def Definition.SteeredIn (d : Definition) (ctx : Context) : Prop :=
  ∃ c m, Owns ctx.program d.around c ∧ ctx.program.ownMethod? c d.parts.name d.scope = some m
    ∧ d.Realized ctx m

theorem Definition.Compiled.steeredIn {d : Definition} {ctx : Context}
    (hCompiled : d.Compiled ctx) : d.SteeredIn ctx := by
  rcases hCompiled with ⟨ctx₀, c, m, hAs⟩
  have hEvolves := hAs.evolves
  refine ⟨c, m, hAs.owns.lasts hEvolves.names, hEvolves.names.ownMethod?_eq_some hAs.own, ?_⟩
  cases hAs.realizes with
  | imported _ _ hBody hImported =>
    refine .imported hEvolves hImported ?_
    have hSteers := lowersBody_steers hBody
    generalize hControls : (Lower.statementsOf d.parts.body).flatMap (·.controls) = cs at hSteers
    cases hSteers
    exact hControls
  | @written _ _ _ f _ _ hCompletes =>
    rcases hCompletes.code with ⟨gs, hBody, hFinish⟩
    have hWritten := ((lowersBody_declares hBody).marked m).isWritten hCompletes.started.isWritten
    rw [← hCompletes.program_eq] at hWritten
    have hKept := hEvolves.names.kept m (by simp) hWritten
    have hDefined := hCompletes.defined.steps hEvolves.tree
    refine .written ?_ hDefined.held hDefined.instr
      (hFinish.reshapes.steady _ _ (lowersBody_steers hBody))
    rw [hKept.body_eq, hCompletes.program_eq]
    exact hCompletes.body_eq

-- Finished Programs

/-
  In a program that compiles, branches are sound, in the code, for
  the loops of the source, and when the code is evaluated.
-/
theorem branch_targets {options : Options} {loader : Loader} {main : Load SourceUnit}
    {ctx : Context} (hRun : (run options loader main).result = .ok ctx) :
    ctx.WellBranched ∧ (∀ root, Reads options loader main root →
        ∀ d ∈ root.definitions none, d.SteeredIn ctx)
      ∧ ∀ {σ : Type} (h : Host σ), h.ctx = ctx → ∀ fuel m args store t,
          (callWithFuel fuel h m args store).1 = .trap t →
            t.cause ≠ .notEvaluable .foreignBranch := by
  have hArranged := run_arranged hRun
  have hEvolves := run_evolves hRun
  have hLabels := hEvolves.tree.labels .empty
  have hRooted := hEvolves.rooted
  refine ⟨hRooted.wellBranched hArranged hLabels, ?_, ?_⟩
  · intro root hReads d hMem
    exact (run_compiled hRun hReads d hMem).steeredIn
  · rintro σ h rfl fuel m args store t hTrap
    exact callWithFuel_regular (hRooted.steered hArranged) hTrap

/-
  A method with a loop that is left on a condition of the body,
  inside a loop whose body ends by repeating it.
-/
def nestedLoops : SourceUnit :=
  let node tag items : Dump.Node := ⟨tag, items, .generated⟩
  let x := node .getLocal [.symbol "x"]
  let down := node .opAssign [.node (node .setLocal [.symbol "x"]), .symbol "-",
        .node (node .int [.int 1])]
  let leave := node .cond [.node x, .node (node .breakLoop []), .nil]
  let inner := node .whilePost [.node x, .node (node .kwbegin [.node leave])]
  let body := node .begin [.node inner, .node down, .node (node .nextLoop [])]
  let outer := node .whileLoop [.node x, .node body]
  let params := node .params [.node (node .param [.symbol "x"])]
  let root := node .methodDef [.symbol "f", .node params,
        .node (node .begin [.node outer, .node x])]
  ⟨"main", none, root⟩

/- The inner loop is left for its own block, the outer repeated. -/
theorem nestedLoops_branch : ∃ ctx, (run {} {} (pure nestedLoops)).result = .ok ctx
      ∧ ctx.tree.instr ⟨12⟩ = .br ⟨7⟩ ∧ ctx.tree.instr ⟨19⟩ = .br ⟨3⟩
      ∧ (nestedLoops.root.definitions none).map (·.controls)
        = [[.loop [.exit true, .loop [.exit false, .again true], .again false, .again false]]]
      ∧ ctx.WellBranched
      ∧ (∀ d ∈ nestedLoops.root.definitions none, d.SteeredIn ctx)
      ∧ ∀ {σ : Type} (h : Host σ), h.ctx = ctx → ∀ fuel m args store t,
          (callWithFuel fuel h m args store).1 = .trap t →
            t.cause ≠ .notEvaluable .foreignBranch := by
  have hKnown : (run {} {} (pure nestedLoops)).satisfies fun ctx =>
        decide (ctx.tree.instr ⟨12⟩ = .br ⟨7⟩ ∧ ctx.tree.instr ⟨19⟩ = .br ⟨3⟩) := by
    decide +kernel
  rcases exists_of_satisfies hKnown with ⟨ctx, hRun, hInner, hOuter⟩
  rcases branch_targets hRun with ⟨hBranched, hSources, hRegular⟩
  exact ⟨ctx, hRun, hInner, hOuter, rfl, hBranched, hSources _ (.main rfl), hRegular⟩

end RubyWat
