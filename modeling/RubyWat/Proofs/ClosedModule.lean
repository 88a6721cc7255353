import RubyWat.Proofs.Reachable

/-
  Methods that a finished program has and needs.

  Main statement: a program that compiles has one function for each method that is implemented
  and no others, and whatever it calls or exports is implemented or comes from the host
  (`closed_module`).
-/

-- Closed Programs

namespace RubyWat

open Code Compilation

/- The method that an instruction is the function of. -/
def Code.Instr.defined? : Instr → Option MethodId
  | .function m => some m
  | _ => none

/- The methods whose functions a walk over the tree passes. -/
def Code.Tree.functions (t : Tree) : List MethodId :=
  (t.preorder Tree.root).filterMap fun n => (t.instr n).defined?

/- A method that can be called in the end. -/
def Method.HasCode (x : Method) : Prop :=
  x.flags.implemented = true ∨ x.flags.imported = true

/- The types of the receiver of a method and of its parameters. -/
def Method.passed (x : Method) : List ValueType :=
  (if x.isInstance then [.ref x.owner] else []) ++ x.params.map (·.ty)

/-
  A program that needs nothing but what it has or imports.  Its functions and its implemented
  methods stand for each other through their bodies.
-/
structure Context.Closed (ctx : Context) : Prop where
  bodies : ∀ m n, (ctx.program.method m).body = some n ↔
      ctx.tree.Reaches Tree.root n ∧ ctx.tree.instr n = .function m
  implemented : ∀ m, (ctx.program.method m).flags.implemented = true ↔
      ∃ n, (ctx.program.method m).body = some n
  once : ctx.tree.functions.Nodup ∧ ∀ m, m ∈ ctx.tree.functions ↔
        (ctx.program.method m).flags.implemented = true
  apart : ∀ m, ¬ ((ctx.program.method m).flags.implemented = true
      ∧ (ctx.program.method m).flags.imported = true)
  calls : ∀ n m, ctx.tree.Reaches Tree.root n →
      ctx.tree.instr n = .call m → (ctx.program.method m).HasCode
  exports : ∀ e ∈ ctx.program.exports, ∀ m, e.target = .method m → (ctx.program.method m).HasCode

-- Functions And Methods

theorem Code.Instr.defined?_eq_some_iff {instr : Instr} {m : MethodId} :
    instr.defined? = some m ↔ instr = .function m := by
  cases instr <;> simp [defined?]

/- Functions of different nodes are of different methods. -/
theorem Code.Tree.Shaped.functions_nodup {t : Tree} (hShaped : t.Shaped Tree.root) (hUnique :
      ∀ m a b, t.Reaches root a → t.Reaches root b →
        t.instr a = .function m → t.instr b = .function m → a = b) :
    t.functions.Nodup := by
  refine List.pairwise_filterMap.mpr (hShaped.preorder_nodup.imp_of_mem ?_)
  intro a b hA hB hNe m hM k hK hEq
  subst hEq
  exact hNe (hUnique m a b (hShaped.mem_preorder.mp hA) (hShaped.mem_preorder.mp hB)
    (Instr.defined?_eq_some_iff.mp hM) (Instr.defined?_eq_some_iff.mp hK))

theorem Code.Tree.Shaped.mem_functions {t : Tree} {m : MethodId} (hShaped : t.Shaped Tree.root) :
    m ∈ t.functions ↔ ∃ n, t.Reaches root n ∧ t.instr n = .function m := by
  simp only [functions, List.mem_filterMap, hShaped.mem_preorder, Instr.defined?_eq_some_iff]

namespace Context

variable {ctx : Context}

/-
  A call fits its target: there is code for it, and the machine types of what is passed and
  taken back are those of its receiver, its parameters and its result.
-/
structure Linked (ctx : Context) (n : NodeId) (m : MethodId) : Prop where
  hasCode : (ctx.program.method m).HasCode
  operands : (ctx.tree.children n).map (fun c => (ctx.tree.ty c).held?)
    = (ctx.program.method m).passed.map (·.held?)
  result : (ctx.tree.ty n).held? = (ctx.program.method m).result.held?

theorem checkCall_ok_iff : ctx.checkCall n m = .ok () ↔ ctx.Linked n m := by
  have hParams : (ctx.program.method m).allParams.map (·.ty.held?)
      = (ctx.program.method m).passed.map (·.held?) := by
    rw [Method.allParams, Method.receiver, Method.passed]
    split <;> simp
  have hCode : (!(ctx.program.method m).flags.implemented
      && !(ctx.program.method m).flags.imported) = true ↔ ¬ (ctx.program.method m).HasCode := by
    simp [Method.HasCode]
  rw [checkCall]
  split
  · rename_i hNone
    exact ⟨by rintro ⟨⟩, fun hLinked => absurd hLinked.hasCode (hCode.mp hNone)⟩
  · rename_i hSome
    rw [hCode, not_not] at hSome
    split
    · rename_i hFits
      simp only [callFits, Bool.and_eq_true, decide_eq_true_eq, hParams] at hFits
      exact ⟨fun _ => ⟨hSome, hFits.1, hFits.2⟩, fun _ => rfl⟩
    · rename_i hFits
      simp only [callFits, Bool.and_eq_true, decide_eq_true_eq, hParams] at hFits
      exact ⟨by rintro ⟨⟩, fun hLinked => absurd ⟨hLinked.operands, hLinked.result⟩ hFits⟩

/- The stack holds what is still to be checked, in order. -/
theorem checkFrom_eq (hLoopless : ∀ n ∈ stack, ctx.tree.Loopless n)
    (hFuel : (stack.flatMap ctx.tree.preorder).length ≤ fuel) :
    ctx.checkFrom fuel stack = (stack.flatMap ctx.tree.preorder).forM ctx.checkNode := by
  induction fuel generalizing stack with
  | zero =>
    rw [List.length_eq_zero_iff.mp (Nat.le_zero.mp hFuel)]
    rfl
  | succ fuel ih =>
    cases stack with
    | nil => rfl
    | cons n stack =>
      rw [List.forall_mem_cons] at hLoopless
      have hPushed : (ctx.tree.children n).reverse.foldl (fun stack c => c :: stack) stack
          = ctx.tree.children n ++ stack := by
        simp
      rw [List.flatMap_cons, hLoopless.1.preorder_eq, List.cons_append,
        ← List.flatMap_append] at hFuel ⊢
      rw [checkFrom, hPushed, ih]
      · rfl
      · intro c hMem
        rcases List.mem_append.mp hMem with hChild | hMem
        · exact hLoopless.1.child hChild
        · exact hLoopless.2 c hMem
      · simpa using hFuel

/- The check visits what the root reaches in preorder, each node once. -/
theorem linkCheck_eq (hShaped : ctx.tree.Shaped Tree.root) :
    ctx.linkCheck = (ctx.tree.preorder Tree.root).forM ctx.checkNode := by
  have hFuel := hShaped.length_preorder_le
  rw [linkCheck, checkFrom_eq (by simpa using hShaped.toLoopless) (by simpa using hFuel)]
  simp

/- Every node was checked if the check of all came to its end. -/
theorem ok_of_forM {check : NodeId → Except Fault Unit} {nodes : List NodeId}
    (hCheck : nodes.forM check = .ok ()) : ∀ n ∈ nodes, check n = .ok () := by
  induction nodes with
  | nil => exact List.forall_mem_nil _
  | cons n nodes ih =>
    rw [List.forM] at hCheck
    rcases hNode : check n with fault | u
    · rw [hNode] at hCheck
      cases hCheck
    · rw [hNode] at hCheck
      exact List.forall_mem_cons.mpr ⟨hNode, ih hCheck⟩

theorem linked_of_checkNode (hCheck : ctx.checkNode n = .ok ())
    (hCall : ctx.tree.instr n = .call m) : ctx.Linked n m := by
  rw [checkNode, hCall] at hCheck
  exact checkCall_ok_iff.mp hCheck

end Context

/- A method that is exported has code. -/
theorem Method.IsLinked.hasCode {x : Method} (hLinked : x.IsLinked) : x.HasCode := by
  rcases hLinked with hWritten | hImported
  · rw [isWritten, Bool.and_eq_true] at hWritten
    exact .inl hWritten.1
  · exact .inr hImported

section

variable (hRooted : Rooted ctx) (hArranged : Arranged ctx.tree Tree.root)
include hRooted hArranged

/- The functions of a program in which every method is complete. -/
theorem Settled.bodies (m : MethodId) (n : NodeId) : (ctx.program.method m).body = some n ↔
      ctx.tree.Reaches Tree.root n ∧ ctx.tree.instr n = .function m := by
  rw [(hRooted.inOrder m).body]
  constructor
  · exact fun hDefines => ⟨hDefines.reaches, hDefines.instr⟩
  · rintro ⟨hReach, hInstr⟩
    exact (hReach.located hArranged hRooted.root.isGroup).defines hInstr

/- Every node that the root reaches was checked. -/
theorem Settled.checked (hCheck : ctx.linkCheck = .ok ())
    (hReach : ctx.tree.Reaches Tree.root n) : ctx.checkNode n = .ok () := by
  have hShaped := hRooted.outlined.shaped hRooted.root.isGroup hArranged
  rw [Context.linkCheck_eq hShaped] at hCheck
  exact Context.ok_of_forM hCheck n (hShaped.mem_preorder.mpr hReach)

theorem Settled.closed (hCheck : ctx.linkCheck = .ok ()) : ctx.Closed := by
  have hShaped := hRooted.outlined.shaped hRooted.root.isGroup hArranged
  have hBodies := hRooted.bodies hArranged
  have hImplemented : ∀ m, (ctx.program.method m).flags.implemented = true ↔
        ∃ n, (ctx.program.method m).body = some n := by
    intro m
    rw [← Option.ne_none_iff_exists']
    exact ⟨(hRooted.inOrder m).complete (by simp), (hRooted.inOrder m).implemented⟩
  refine ⟨hBodies, hImplemented, ⟨?_, ?_⟩, ?_, ?_, ?_⟩
  · refine hShaped.functions_nodup fun m a b hA hB hInA hInB => ?_
    have hBody := (hBodies m a).mpr ⟨hA, hInA⟩
    rw [(hBodies m b).mpr ⟨hB, hInB⟩] at hBody
    exact (Option.some.inj hBody).symm
  · intro m
    rw [hShaped.mem_functions, hImplemented]
    simp only [hBodies]
  · rintro m ⟨hIs, hImported⟩
    rw [((hRooted.inOrder m).apart hImported).1] at hIs
    cases hIs
  · intro n m hReach hCall
    exact (Context.linked_of_checkNode (hRooted.checked hArranged hCheck hReach) hCall).hasCode
  · intro e hMem m hTarget
    exact ((hRooted.inOrder m).exports e hMem hTarget).hasCode

end

-- Finished Programs

/- A program that compiles is closed. -/
theorem closed_module {options : Options} {loader : Loader} {main : Load SourceUnit} {ctx : Context}
    (hRun : (run options loader main).result = .ok ctx) : ctx.Closed := by
  have hArranged := run_arranged hRun
  have hEvolves := run_evolves hRun
  rcases run_ok hRun with ⟨_, _, _, _, _, _, _, hCheck⟩
  exact hEvolves.rooted.closed hArranged hCheck

/-
  A class that is opened twice.  A method calls one that comes later and that the host provides,
  and a written initializer takes the place of the one that the first part was given.
-/
def reopened : SourceUnit :=
  let node tag items : Dump.Node := ⟨tag, items, .generated⟩
  let directive name args := node .send ([.nil, .symbol name] ++ args.map .node)
  let send receiver name args := node .send ([.node receiver, .symbol name] ++ args.map .node)
  let symbol x := node .sym [.symbol x]
  let name := node .const [.nil, .symbol "A"]
  let params names := node .params (names.map fun x => .node (node .param [.symbol x]))
  let define name names body :=
    node .singletonDef [.node (node .selfRef []), .symbol name, .node (params names), .node body]
  let opened items := node .classDef [.node name, .nil, .node (node .begin (items.map .node))]
  let field := send (send name "new" []) "v" []
  let first := opened
      [directive "attr_reader" [symbol "v"], directive "export" [], define "go" [] (send name "log"
        [field])]
  let second := opened [node .methodDef [.symbol "initialize", .node (params []),
            .node (node .setIvar [.symbol "@v", .node (node .int [.int 7])])],
        define "log" ["x"] (directive "import" [symbol "env", symbol "log"])]
  let allocator := define "allocate" ["n"] (node .getLocal [.symbol "n"])
  ⟨"main", none, node .begin [.node first, .node second, .node allocator]⟩

/- It has six functions, one of them exported, and one import. -/
theorem reopened_closed :
    ∃ ctx, (run {} {} (pure reopened)).result = .ok ctx ∧ ctx.tree.functions.length = 6
      ∧ ctx.program.exports.length = 1
      ∧ (ctx.program.methods.filter (·.flags.imported)).size = 1
      ∧ ctx.Closed := by
  have hKnown : (run {} {} (pure reopened)).satisfies fun ctx =>
        decide (ctx.tree.functions.length = 6 ∧ ctx.program.exports.length = 1
          ∧ (ctx.program.methods.filter (·.flags.imported)).size = 1) := by
    decide +kernel
  rcases exists_of_satisfies hKnown with ⟨ctx, hRun, hFunctions, hExports, hImports⟩
  exact ⟨ctx, hRun, hFunctions, hExports, hImports, closed_module hRun⟩

end RubyWat
