import RubyWat.Proofs.Toplevel

/-
  Values on the stack of a finished program.

  Main statement: in every program that compiles, a statement that is not the last one of its
  sequence leaves no value, and every value that is dropped is there and is dropped once
  (`stack_discipline`).
-/

-- Nodes That The Root Reaches

namespace RubyWat

open Code List Compilation

namespace Code

/- Whether the children of an instruction are statements. -/
def Instr.holdsStatements : Instr → Bool
  | function _ | thenArm | elseArm | block | loop => true
  | _ => false

namespace Tree

/- A node that lies somewhere below another one. -/
inductive Reaches (t : Tree) (top : NodeId) : NodeId → Prop where
  | self : Reaches t top top
  | child {n c : NodeId} (hReach : Reaches t top n) (hChild : c ∈ t.children n) : Reaches t top c

/-
  Of the statements of a node only the last may leave a value,
  and what a node drops is one value that is not dropped again.
-/
structure Disciplined (t : Tree) (n : NodeId) : Prop where
  statements : (t.instr n).holdsStatements = true → ∀ c ∈ (t.children n).dropLast, t.ty c = .none
  drop : t.instr n = .drop → t.ty n = .none ∧ ∃ c, t.children n = [c] ∧ t.ty c ≠ .none

/- A node of the outline, or of the code of a method. -/
inductive Placed (t : Tree) : NodeId → Prop where
  | outline {n : NodeId} (hArranged : Arranged t n) : Placed t n
  | code {f : Fragment} (hHeld : Held t f) (hNeat : Neat f) : Placed t f.id

variable {n : NodeId}

/- What lies below a node of a program has its place too. -/
theorem Placed.child (hPlaced : Placed t n) (hChild : c ∈ t.children n) : Placed t c := by
  cases hPlaced with
  | outline hArranged =>
    cases hArranged with
    | group _ _ hChildren => exact .outline (hChildren c hChild)
    | function hDefined =>
      rw [hDefined.held.children] at hChild
      rcases mem_map.mp hChild with ⟨g, hG, rfl⟩
      exact .code (hDefined.held.child hG) (hDefined.coded.neat.neat g hG)
  | code hHeld hNeat =>
    rw [hHeld.children] at hChild
    rcases mem_map.mp hChild with ⟨g, hG, rfl⟩
    exact .code (hHeld.child hG) (hNeat.child hG)

/- Statements as fragments and as nodes. -/
theorem blank_of_held (hHeld : Held t f) (hBlank : BlankUntilLast f.children) :
    ∀ c ∈ (t.children f.id).dropLast, t.ty c = .none := by
  intro c hMem
  rw [hHeld.children, ← map_dropLast] at hMem
  rcases mem_map.mp hMem with ⟨g, hG, rfl⟩
  rw [(hHeld.child (dropLast_subset _ hG)).ty]
  exact hBlank g hG

theorem Placed.disciplined (hPlaced : Placed t n) : Disciplined t n := by
  cases hPlaced with
  | outline hArranged =>
    cases hArranged with
    | group _ hGroup _ =>
      constructor
      · intro hHolds
        cases hInstr : t.instr n <;> simp_all [Instr.isGroup, Instr.holdsStatements]
      · intro hDrop
        rw [hDrop] at hGroup
        contradiction
    | function hDefined =>
      constructor
      · intro _
        exact blank_of_held hDefined.held hDefined.coded.neat.blank
      · intro hDrop
        rw [hDefined.held.instr, hDefined.instr] at hDrop
        contradiction
  | code hHeld hNeat =>
    rename_i f
    have hTidy := hNeat.tidy
    constructor
    · intro hHolds
      refine blank_of_held hHeld (hTidy.sequence ?_)
      have hInner := hTidy.inner
      rw [hHeld.instr] at hHolds
      cases hInstr : f.instr <;> simp_all [Instr.holdsStatements, Instr.isSequence, Instr.isOuter]
    · intro hDrop
      rw [hHeld.instr] at hDrop
      rcases hTidy.drop hDrop with ⟨hBlank, g, hChildren, hValue⟩
      refine ⟨by rw [hHeld.ty, hBlank], g.id, ?_, ?_⟩
      · rw [hHeld.children, hChildren]
        rfl
      · rw [(hHeld.child (by simp [hChildren])).ty]
        exact hValue

end Tree

end Code

-- Finished Programs

/-
  In a program that compiles, statements leave no values behind
  but the last ones, and drops drop values.
-/
theorem stack_discipline {options : Options} {loader : Loader} {main : Load SourceUnit}
    {ctx : Context} {n : NodeId} (hRun : (run options loader main).result = .ok ctx)
    (hReach : ctx.tree.Reaches Tree.root n) : ctx.tree.Disciplined n := by
  refine Tree.Placed.disciplined ?_
  induction hReach with
  | self => exact .outline (run_arranged hRun)
  | child _ hChild ih => exact ih.child hChild

/- What a program that compiles is known to be. -/
def Compilation.satisfies (p : Context → Bool) (compilation : Compilation) : Bool :=
  match compilation.result with
  | .ok ctx => p ctx
  | .error _ => false

theorem Compilation.exists_of_satisfies
    {compilation : Compilation} {p : Context → Prop} [DecidablePred p]
    (hSatisfies : compilation.satisfies fun ctx => decide (p ctx)) :
    ∃ ctx, compilation.result = .ok ctx ∧ p ctx := by
  unfold satisfies at hSatisfies
  split at hSatisfies
  · rename_i ctx hResult
    exact ⟨ctx, hResult, of_decide_eq_true hSatisfies⟩
  · contradiction

/- A method that counts down to zero and adds up something for nothing on the way. -/
def idleSum : SourceUnit :=
  let node tag items : Dump.Node := ⟨tag, items, .generated⟩
  let x := node .getLocal [.symbol "x"]
  let one := node .int [.int 1]
  let sum := node .send [.node x, .symbol "+", .node one]
  let down := node .opAssign [.node (node .setLocal [.symbol "x"]), .symbol "-", .node one]
  let body := node .begin [.node sum, .node down]
  let loop := node .whileLoop [.node x, .node body]
  let params := node .params [.node (node .param [.symbol "x"])]
  let root := node .methodDef [.symbol "f", .node params, .node (node .begin [.node loop, .node x])]
  ⟨"main", none, root⟩

/- The body of the loop drops the sum, which leaves a value. -/
theorem idleSum_disciplined : ∃ ctx, (run {} {} (pure idleSum)).result = .ok ctx
      ∧ ctx.tree.children ⟨3⟩ = [⟨4⟩, ⟨10⟩, ⟨11⟩, ⟨15⟩]
      ∧ ctx.tree.instr ⟨10⟩ = .drop
      ∧ ctx.tree.Disciplined ⟨3⟩ ∧ ctx.tree.Disciplined ⟨10⟩ := by
  have hKnown : (run {} {} (pure idleSum)).satisfies fun ctx =>
        decide (ctx.tree.children Tree.root = [⟨1⟩] ∧ ctx.tree.children ⟨1⟩ = [⟨2⟩, ⟨16⟩]
          ∧ ctx.tree.children ⟨2⟩ = [⟨3⟩]
          ∧ ctx.tree.children ⟨3⟩ = [⟨4⟩, ⟨10⟩, ⟨11⟩, ⟨15⟩]
          ∧ ctx.tree.instr ⟨10⟩ = .drop) := by
    decide +kernel
  rcases exists_of_satisfies hKnown with ⟨ctx, hRun, hRoot, hMethod, hBlock, hLoop, hDrop⟩
  have hFunction : ctx.tree.Reaches Tree.root ⟨1⟩ := .child .self (by simp [hRoot])
  have hAround : ctx.tree.Reaches Tree.root ⟨2⟩ := .child hFunction (by simp [hMethod])
  have hReach : ctx.tree.Reaches Tree.root ⟨3⟩ := .child hAround (by simp [hBlock])
  have hBelow : ctx.tree.Reaches Tree.root ⟨10⟩ := .child hReach (by simp [hLoop])
  exact ⟨ctx, hRun, hLoop, hDrop, stack_discipline hRun hReach, stack_discipline hRun hBelow⟩

end RubyWat
