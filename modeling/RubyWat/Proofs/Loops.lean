import RubyWat.Proofs.Operands

/-
  Loops.

  Key definition: `Lower.DoesRounds`.

  The code of a loop is a loop inside of a block.  A branch to the loop starts another round and
  a branch to the block leaves it, so that a round either tests the condition and then runs the
  body or does so the other way round.

  Main statement: that is what becomes of any condition and any body (`loops_do_rounds`).
-/

-- Rounds

namespace RubyWat.Lower

open Translation Code Machine Step Integral

variable {d : Descent} {s s' : LowerState} {node : Dump.Node}

/-
  Code of a loop that leaves no value and does rounds with a condition and a body, in any host
  that holds it.
-/
structure DoesRounds (ctx : Context) (loop block : NodeId) (code : List Fragment) (c : Fragment)
    (body : List Fragment) (round : ∀ {σ : Type}, Behaviour Exit (State σ) Value →
      Behaviour Exit (State σ) (Option Value) → Behaviour Exit (State σ) Bool) : Prop where
  held : Held ctx.tree ⟨block, .block, .none, [⟨loop, .loop, .none, code⟩]⟩
  agrees : ∀ {σ : Type} {h : Host σ} {depth : Nat} {P : State σ → Prop},
      Held h.ctx.tree ⟨block, .block, .none, [⟨loop, .loop, .none, code⟩]⟩ →
      ((∀ raw, c.instr ≠ .const raw) →
        Preserves P (fun v => v.isSome) (behaviour h depth c.id)) →
      Preserves P (fun _ => True) (behaviourOf h depth (body.map (·.id))) →
      AgreeOn P (behaviour h depth block) (Behaviour.Iterates (afterRound loop block)
          (round (operandOf h depth c) (behaviourOf h depth (body.map (·.id)))))

/- A branch that a condition is put into, whatever compiles the condition. -/
theorem branchOn_step {α : Type} {a : α} {next : Lower α} (hInside : Inside E s p)
    (hPlain : instr.isPlain)
    (hRun : ((do
        let exit ← Build.addNode p instr .none
        let _ ← value d exit (← node.nodeAt 0)
        Build.branchIf exit negate
        next) : Lower α) s = .ok a s') :
    ∃ exit test n s₁ s₂ s₃, node.nodeAt 0 = .ok test ∧ Inside E s₁ exit
        ∧ value d exit test s₁ = .ok n s₂ ∧ next s₃ = .ok a s'
        ∧ ∀ c, Places s₁ s₂ exit [c] →
          ∃ c', BranchesOn E.fold negate c c' ∧ Places s s₃ p [⟨exit, instr, .none, [c']⟩] := by
  rcases bind_ok hRun with ⟨exit, s₁, hAdd, hRest⟩
  rcases addNode_ok hInside.isOpen hAdd with ⟨hExit, _⟩
  have hInside₁ : Inside E s₁ exit := hInside.below hExit (.head _) hPlain
  rcases need_step hRest with ⟨test, hTest, hRest⟩
  rcases bind_ok hRest with ⟨n, s₂, hValue, hRest⟩
  rcases build_step hRest with ⟨_, ctx₃, hBranch, hEnd⟩
  refine ⟨exit, test, n, s₁, s₂, { s₂ with ctx := ctx₃ }, hTest, hInside₁, hValue, hEnd,
    fun c hBelow => ?_⟩
  rcases hExit.filled hInside.isOpen hBelow with ⟨hFilled, hHung⟩
  rcases Build.branchIf_ok (hInside₁.after hBelow).fold_eq hHung hBranch with
    ⟨_, c', _, hChildren, hBranches, hStep⟩
  cases hChildren
  exact ⟨c', hBranches, hFilled.rework_one hInside.isOpen hStep.reworks rfl⟩

/-
  A loop that tests its condition first starts with the test, and a round ends with another
  test.  A loop that tests it last starts each round with the body.  The condition and the body
  are compiled inside of the new loop.
-/
theorem loops_do_rounds (isWhile : Bool) (hInside : Inside E s p) :
    (testedLoop d p node isWhile s = .ok block s' →
      ∃ loop exit test n s₁ s₂, node.nodeAt 0 = .ok test
        ∧ Inside { E with loop := some (loop, block) } s₁ exit
        ∧ value d exit test s₁ = .ok n s₂
        ∧ ∀ c, Places s₁ s₂ exit [c] → ∃ s₃ s₄, Inside { E with loop := some (loop, block) } s₃ loop
            ∧ optional d loop (node.node? 1) false s₃ = .ok () s₄
            ∧ ∀ body, Places s₃ s₄ loop body → ∃ c' back, BranchesOn E.fold isWhile c c'
              ∧ DoesRounds s'.ctx loop block
                  (⟨exit, .brIf block, .none, [c']⟩ :: (body ++ [.leaf back (.br loop) .none]))
                  c body (testedRound isWhile))
    ∧ (postTestedLoop d p node isWhile s = .ok block s' →
      ∃ loop content result s₁ s₂, node.nodeAt 1 = .ok content
        ∧ Inside { E with loop := some (loop, block) } s₁ loop
        ∧ d.node loop content false s₁ = .ok result s₂
        ∧ ∀ body, Places s₁ s₂ loop body → ∃ again test n s₃ s₄, node.nodeAt 0 = .ok test
            ∧ Inside { E with loop := some (loop, block) } s₃ again
            ∧ value d again test s₃ = .ok n s₄
            ∧ ∀ c, Places s₃ s₄ again [c] → ∃ c', BranchesOn E.fold (!isWhile) c c'
              ∧ DoesRounds s'.ctx loop block (body ++ [⟨again, .brIf loop, .none, [c']⟩])
                  c body (postTestedRound isWhile)) := by
  constructor
  · intro hRun
    rcases bind_ok hRun with ⟨⟨_, loop⟩, s₀, hShell, hRest⟩
    rcases (shell_gives hInside).ok hShell with ⟨hInside₀, _, hShell⟩
    rcases branchOn_step hInside₀ rfl hRest with
      ⟨exit, test, n, s₁, s₂, s₃, hTest, hAt, hValue, hRest, hFill⟩
    rcases bind_ok hRest with ⟨_, s₄, hOptional, hRest⟩
    rcases bind_ok hRest with ⟨back, s₅, hBack, hEnd⟩
    rcases pure_ok hEnd with ⟨rfl, rfl⟩
    refine ⟨loop, exit, test, n, s₁, s₂, hTest, hAt, hValue, fun c hC => ?_⟩
    rcases hFill c hC with ⟨c', hBranch, hExit⟩
    have hInside₃ := hInside₀.after hExit
    refine ⟨s₃, s₄, hInside₃, hOptional, fun body hBody => ?_⟩
    rcases addNode_ok (hInside₃.after hBody).isOpen hBack with ⟨hBack, _⟩
    have hLoop := hExit.trans hInside₀.isOpen (hBody.trans hInside₃.isOpen hBack)
    have hHeld := ((hShell hLoop).hung hInside.isOpen (.head _)).held
    rcases hBranch.held with ⟨w, hTy⟩
    refine ⟨c', back, hBranch, hHeld, fun hHeld hSome hKeeps => ?_⟩
    exact (Supplies.of_operand hTy hSome).testedLoop hBranch hKeeps (.refl _) hHeld
  · intro hRun
    rcases bind_ok hRun with ⟨⟨b, loop⟩, s₁, hShell, hRest⟩
    rcases (shell_gives hInside).ok hShell with ⟨hInside₁, _, hShell⟩
    rcases need_step hRest with ⟨content, hNode, hRest⟩
    rcases bind_ok hRest with ⟨result, s₂, hContent, hRest⟩
    have hSame : block = b := by
      rcases bind_ok hRest with ⟨_, _, _, hRest⟩
      rcases need_step hRest with ⟨_, _, hRest⟩
      rcases bind_ok hRest with ⟨_, _, _, hRest⟩
      rcases build_step hRest with ⟨_, _, _, hEnd⟩
      exact (pure_ok hEnd).1
    subst hSame
    refine ⟨loop, content, result, s₁, s₂, hNode, hInside₁, hContent, fun body hBody => ?_⟩
    have hInside₂ := hInside₁.after hBody
    rcases branchOn_step hInside₂ rfl hRest with
      ⟨again, test, n, s₃, s₄, s₅, hTest, hAt, hValue, hEnd, hFill⟩
    rcases pure_ok hEnd with ⟨_, rfl⟩
    refine ⟨again, test, n, s₃, s₄, hTest, hAt, hValue, fun c hC => ?_⟩
    rcases hFill c hC with ⟨c', hBranch, hAgain⟩
    have hHeld := ((hShell (hBody.trans hInside₁.isOpen hAgain)).hung hInside.isOpen (.head _)).held
    rcases hBranch.held with ⟨w, hTy⟩
    refine ⟨c', hBranch, hHeld, fun hHeld hSome hKeeps => ?_⟩
    exact (Supplies.of_operand hTy hSome).postTestedLoop hBranch hKeeps (.refl _) hHeld

/- Only a sequence or a conversion puts code in front of what stands for it. -/
theorem lowers_alone {node : Dump.Node} (hLowers : Lowers E (.node node keep) p p' gs out)
    (hTag : node.tag ≠ .begin ∧ node.tag ≠ .kwbegin ∧ node.tag ≠ .send) : gs = [] := by
  have hCode : ∀ {out}, Lowers E (.code node keep) p p' gs out → gs = [] := by
    intro out hCode
    cases hCode with
    | sequence hSequence => exact (hSequence.elim hTag.1 hTag.2.1).elim
    | castCall hSend => exact absurd hSend.tag_eq hTag.2.2
    | _ => rfl
  cases hLowers with
  | something hInner | nothing hInner => exact hCode hInner

/- What is no literal was not folded. -/
theorem folded_eq {f : Fragment} (hInstr : ∀ raw, (f.folded fold).instr ≠ .const raw) :
    f.folded fold = f := by
  unfold Fragment.folded at hInstr ⊢
  split
  · rename_i hFold
    rw [if_pos hFold] at hInstr
    split
    · rename_i hValue
      simp [hValue] at hInstr
    · rfl
  · rfl

/- A variable that is tested as it is. -/
theorem tests_local (hTests : Tests fold c g) (hGet : g.instr = .localGet x) :
    g.id = c.id ∧ c.instr = .localGet x := by
  cases hTests with
  | narrow | ref => exact ⟨rfl, hGet⟩
  | wide =>
    rw [folded_eq (by simp [hGet])] at hGet
    cases hGet

-- Counting Down

/- The function of a method with a number, which has no code yet. -/
def inFunction : LowerState where
  ctx :=
    { program :=
        { Program.empty 0 with
          methods := #[
            { name := "f", owner := objectClass, scope := .onClass, params := [⟨"x", .i32⟩] }] }
      tree := (Tree.empty.add ⟨0⟩ (.function ⟨0⟩) .none).2 }
  loader := {}

/- A loop that takes one from the number as long as it is not zero. -/
def countDown (tag : Dump.Tag) : Dump.Node :=
  let node tag items : Dump.Node := ⟨tag, items, .generated⟩
  let less := node .opAssign
      [.node (node .setLocal [.symbol "x"]), .symbol "-", .node (node .int [.int 1])]
  node tag [.node (node .getLocal [.symbol "x"]), .node less]

/- Whether a loop was compiled to certain code. -/
def compiles (f : Fragment) : EStateM.Result Failure LowerState NodeId → Bool
  | .ok block s => decide (block = f.id ∧ Held s.ctx.tree f)
  | .error _ _ => false

theorem exists_of_compiles (hKnown : compiles f r) :
    ∃ s, r = .ok f.id s ∧ Held s.ctx.tree f := by
  cases r with
  | ok block s =>
    rcases of_decide_eq_true hKnown with ⟨rfl, hHeld⟩
    exact ⟨s, rfl, hHeld⟩
  | error => cases hKnown

/- The state in which the number is so large. -/
def counting (store : Store Unit) (k : Int32) : State Unit :=
  ⟨[("x", .i32 k)], store⟩

/- The number less one, put back. -/
def oneLess (n less number one : NodeId) : Fragment :=
  ⟨n, .localSet "x", .none,
    [⟨less, .binary .sub, .i32, [.leaf number (.localGet "x") .i32, .leaf one (.const 1) .i32]⟩]⟩

section

variable {h : Host Unit} {store : Store Unit} {c : Fragment} {ty : ValueType}

theorem eval_number (hHeld : Held h.ctx.tree (.leaf n (.localGet "x") ty)) (k : Int32) :
    eval h 1 0 n (counting store k) = .ok (some (.i32 k)) (counting store k) := by
  rw [eval, evalNode, hHeld.shape.1]
  rfl

theorem binary_sub_one (k : Int32) : Value.binary .sub (.i32 k) (.i32 1) = .ok (.i32 (k - 1)) := by
  have hWord : Wasm.extendSigned (k.toBitVec - 1) = (k - 1).toInt64 := rfl
  show Except.ok (Value.i32 (Wasm.extendSigned (Wasm.cut 32 k.toInt64 - 1)).toInt32) = _
  rw [Wasm.cut_toInt64, hWord, Int32.toInt32_toInt64]

theorem eval_oneLess (hHeld : Held h.ctx.tree (oneLess n less number one)) (k : Int32) :
    eval h 3 0 n (counting store k) = .ok none (counting store (k - 1)) := by
  have hLess := hHeld.child (.head _)
  have hNumber : eval h 1 0 number (counting store k) = .ok (some (.i32 k)) (counting store k) :=
    eval_number (hLess.child (.head _)) k
  have hOne : eval h 1 0 one (counting store k) = .ok (some (.i32 1)) (counting store k) := by
    have hConst := hLess.child (.tail _ (.head _))
    rw [eval, evalNode, hConst.shape.1, show h.ctx.tree.ty one = .i32 from hConst.ty]
    rfl
  have hValue : eval h 2 0 less (counting store k)
      = .ok (some (.i32 (k - 1))) (counting store k) := by
    rw [eval, evalNode, hLess.shape.1]
    dsimp only
    rw [operandPair_eq hLess.shape.2, bind_assoc, bind_of_ok hNumber, bind_assoc, bind_of_ok hOne,
      demandBoth, pure_bind]
    dsimp only
    rw [binary_sub_one]
    rfl
  rw [eval, evalNode, hHeld.shape.1]
  dsimp only
  rw [operand_eq hHeld.shape.2, bind_assoc, bind_of_ok hValue, demand, pure_bind]
  have hFrame : (counting store k).frame.assign? "x" (.i32 (k - 1))
      = some [("x", .i32 (k - 1))] := by
    simp [counting, Slots.assign?, Value.replacing, Value.narrow, Value.toInt64]
  rw [Exec.setLocal, bind_assoc]
  refine (bind_of_ok rfl _).trans ?_
  rw [hFrame]
  rfl

variable {round : ∀ {σ : Type}, Behaviour Exit (State σ) Value →
    Behaviour Exit (State σ) (Option Value) → Behaviour Exit (State σ) Bool}

/- Rounds in which a number is tested and one is taken from it. -/
theorem DoesRounds.countDown
    (hRounds : DoesRounds h.ctx loop block code c [oneLess n less number one] round)
    (hGet : c.instr = .localGet "x") (hTest : Held h.ctx.tree (.leaf c.id (.localGet "x") ty))
    (hLess : Held h.ctx.tree (oneLess n less number one)) :
    AgreeOn (fun s => ∃ k, s = counting store k) (behaviour h 0 block)
        (.Iterates (afterRound loop block) (round (operandOf h 0 c) (behaviour h 0 n)))
      ∧ (∀ k, operandOf h 0 c (counting store k) (.ok (.i32 k) (counting store k)))
      ∧ ∀ k, behaviour h 0 n (counting store k) (.ok none (counting store (k - 1))) := by
  have hSome : Preserves (fun s => ∃ k, s = counting store k) (fun v => v.isSome)
      (behaviour h 0 c.id) := by
    refine preserves_of_eval ?_
    rintro _ ⟨k, rfl⟩
    exact ⟨1, _, _, eval_number hTest k, ⟨k, rfl⟩, rfl⟩
  have hKeeps : Preserves (fun s => ∃ k, s = counting store k) (fun _ => True)
      (behaviour h 0 n) := by
    refine preserves_of_eval ?_
    rintro _ ⟨k, rfl⟩
    exact ⟨3, _, _, eval_oneLess hLess k, ⟨k - 1, rfl⟩, trivial⟩
  rw [← behaviourOf_single] at hKeeps
  have hAgrees := hRounds.agrees hRounds.held (fun _ => hSome) hKeeps
  rw [show [oneLess n less number one].map (·.id) = [n] from rfl, behaviourOf_single] at hAgrees
  exact ⟨hAgrees, fun k => operandOf_of_eval (by simp [hGet]) (eval_number hTest k),
    fun k => (behaviour_iff_of_eval (eval_oneLess hLess k)).mpr rfl⟩

end

/- A descent that reads no other units. -/
def alone : Descent :=
  ⟨lowerNode (fun _ => pure ()) 5, fun _ => pure ()⟩

theorem inside_inFunction : Inside ⟨true, ⟨0⟩, none⟩ inFunction ⟨1⟩ :=
  ⟨rfl, .function (by decide) rfl, ⟨by decide, by decide⟩⟩

/- A branch on the number, inverted or not. -/
theorem branchesOn_number (hBranch : BranchesOn fold negate c c')
    (hNumber : negate = false ∧ c' = .leaf k (.localGet x) .i32
      ∨ negate = true ∧ ∃ n, c' = ⟨n, .unary .eqz, .i32, [.leaf k (.localGet x) .i32]⟩) :
    c.id = k ∧ c.instr = .localGet x := by
  cases hBranch with
  | direct hTests =>
    rcases hNumber with ⟨_, rfl⟩ | ⟨hInverted, _⟩
    · rcases tests_local hTests rfl with ⟨hId, hInstr⟩
      exact ⟨hId.symm, hInstr⟩
    · cases hInverted
  | inverted hTests =>
    rcases hNumber with ⟨hDirect, _⟩ | ⟨_, n, hNumber⟩
    · cases hDirect
    · rw [folded_eq (by simp [hNumber])] at hNumber
      cases hNumber
      rcases tests_local hTests rfl with ⟨hId, hInstr⟩
      exact ⟨hId.symm, hInstr⟩

/- The condition of the loop is the number. -/
theorem value_countDown (hInside : Inside E s p)
    (hTest : (countDown tag).nodeAt 0 = .ok test) (hRun : value alone p test s = .ok n s') :
    ∃ c, Places s s' p [c] := by
  cases hTest
  rcases value_ok (lowerNode_faithful _ 5) hInside hRun with ⟨gs, c, hLowers, _, _, hPlaces⟩
  cases lowers_alone hLowers ⟨nofun, nofun, nofun⟩
  exact ⟨c, hPlaces⟩

/- The code of the loop that tests the number first, and of the other one. -/
def testedCode : Fragment :=
  ⟨⟨2⟩, .block, .none,
    [⟨⟨3⟩, .loop, .none,
      [⟨⟨4⟩, .brIf ⟨2⟩, .none, [⟨⟨6⟩, .unary .eqz, .i32, [.leaf ⟨5⟩ (.localGet "x") .i32]⟩]⟩,
        oneLess ⟨7⟩ ⟨8⟩ ⟨9⟩ ⟨10⟩,
        .leaf ⟨11⟩ (.br ⟨3⟩) .none]⟩]⟩

def postTestedCode : Fragment :=
  ⟨⟨2⟩, .block, .none,
    [⟨⟨3⟩, .loop, .none,
      [oneLess ⟨4⟩ ⟨5⟩ ⟨6⟩ ⟨7⟩,
        ⟨⟨8⟩, .brIf ⟨3⟩, .none, [.leaf ⟨9⟩ (.localGet "x") .i32]⟩]⟩]⟩

theorem testedCode_counts (hCode : Held ctx.tree testedCode) (hBranch : BranchesOn fold true c c')
    (hRounds : DoesRounds ctx loop ⟨2⟩
        (⟨exit, .brIf ⟨2⟩, .none, [c']⟩ :: (body ++ [.leaf back (.br loop) .none]))
        c body (testedRound true)) (store : Store Unit) :
    behaviour { ctx } 0 ⟨2⟩ (counting store 2) (.ok none (counting store 0)) := by
  have hSame := hCode.unique hRounds.held rfl
  simp only [testedCode, Fragment.mk.injEq, List.cons.injEq, true_and, and_true] at hSame
  rcases hSame with ⟨rfl, ⟨rfl, rfl⟩, hSame⟩
  change [_] ++ [_] = body ++ [_] at hSame
  obtain ⟨rfl, -⟩ := List.append_inj' hSame rfl
  rcases branchesOn_number hBranch (.inr ⟨rfl, _, rfl⟩) with ⟨hId, hGet⟩
  have hLoop := hCode.child (.head _)
  have hNumber : Held ctx.tree (.leaf c.id (.localGet "x") .i32) :=
    hId ▸ ((hLoop.child (.head _)).child (.head _)).child (.head _)
  rcases DoesRounds.countDown (h := { ctx }) hRounds hGet hNumber
    (hLoop.child (.tail _ (.head _))) with ⟨hAgrees, hTests, hLess⟩
  refine (hAgrees _ ⟨2, rfl⟩ _).mpr ?_
  refine .again (.next (hTests 2) (.next (hLess 2) rfl)) rfl ?_
  refine .again (.next (hTests 1) (.next (hLess 1) rfl)) rfl ?_
  exact .done (.next (hTests 0) rfl) rfl

theorem postTestedCode_counts (hCode : Held ctx.tree postTestedCode)
    (hBranch : BranchesOn fold false c c')
    (hRounds : DoesRounds ctx loop ⟨2⟩ (body ++ [⟨again, .brIf loop, .none, [c']⟩]) c body
        (postTestedRound true)) (store : Store Unit) :
    behaviour { ctx } 0 ⟨2⟩ (counting store 2) (.ok none (counting store 0)) := by
  have hSame := hCode.unique hRounds.held rfl
  simp only [postTestedCode, Fragment.mk.injEq, List.cons.injEq, true_and, and_true] at hSame
  rcases hSame with ⟨rfl, hSame⟩
  change [_] ++ [_] = body ++ [_] at hSame
  obtain ⟨rfl, hAgain⟩ := List.append_inj' hSame rfl
  cases hAgain
  rcases branchesOn_number hBranch (.inl ⟨rfl, rfl⟩) with ⟨hId, hGet⟩
  have hLoop := hCode.child (.head _)
  have hNumber : Held ctx.tree (.leaf c.id (.localGet "x") .i32) :=
    hId ▸ (hLoop.child (.tail _ (.head _))).child (.head _)
  rcases DoesRounds.countDown (h := { ctx }) hRounds hGet hNumber (hLoop.child (.head _)) with
    ⟨hAgrees, hTests, hLess⟩
  refine (hAgrees _ ⟨2, rfl⟩ _).mpr ?_
  refine .again (.next (hLess 2) (.next (hTests 1) rfl)) rfl ?_
  exact .done (.next (hLess 1) (.next (hTests 0) rfl)) rfl

/- Both loops do two rounds when the number is two. -/
theorem loops_count_down :
    (∃ s', testedLoop alone ⟨1⟩ (countDown .whileLoop) true inFunction = .ok ⟨2⟩ s'
      ∧ ∀ store : Store Unit, behaviour { ctx := s'.ctx } 0 ⟨2⟩ (counting store 2)
          (.ok none (counting store 0)))
    ∧ ∃ s', postTestedLoop alone ⟨1⟩ (countDown .whilePost) true inFunction = .ok ⟨2⟩ s'
      ∧ ∀ store : Store Unit, behaviour { ctx := s'.ctx } 0 ⟨2⟩ (counting store 2)
          (.ok none (counting store 0)) := by
  have hFirst : compiles testedCode
      (testedLoop alone ⟨1⟩ (countDown .whileLoop) true inFunction) := by decide +kernel
  have hLast : compiles postTestedCode
      (postTestedLoop alone ⟨1⟩ (countDown .whilePost) true inFunction) := by decide +kernel
  rcases exists_of_compiles hFirst with ⟨s', hFirst, hCode⟩
  rcases exists_of_compiles hLast with ⟨s'', hLast, hCode'⟩
  refine ⟨⟨s', hFirst, fun store => ?_⟩, ⟨s'', hLast, fun store => ?_⟩⟩
  · rcases (loops_do_rounds true inside_inFunction).1 hFirst with
      ⟨loop, exit, test, n, s₁, s₂, hTest, hAt, hValue, hRest⟩
    rcases value_countDown hAt hTest hValue with ⟨c, hC⟩
    rcases hRest c hC with ⟨s₃, s₄, hInside, hOptional, hRest⟩
    rcases optional_ok (lowerNode_faithful _ 5) hInside hOptional with ⟨gs, out, _, hBody⟩
    rcases hRest _ hBody with ⟨c', back, hBranch, hRounds⟩
    exact testedCode_counts hCode hBranch hRounds store
  · rcases (loops_do_rounds true inside_inFunction).2 hLast with
      ⟨loop, content, result, s₁, s₂, _, hInside, hContent, hRest⟩
    rcases lowerNode_faithful _ 5 _ _ _ _ _ _ _ hInside hContent with ⟨gs, out, _, _, hBody⟩
    rcases hRest _ hBody with ⟨again, test, n, s₃, s₄, hTest, hAt, hValue, hRest⟩
    rcases value_countDown hAt hTest hValue with ⟨c, hC⟩
    rcases hRest c hC with ⟨c', hBranch, hRounds⟩
    exact postTestedCode_counts hCode' hBranch hRounds store

end RubyWat.Lower
