import RubyWat.Proofs.ClosedModule
import RubyWat.Proofs.Forest

/-
  The check that every call has a target.

  A place in a tree is the list of the positions that lead to it from the root, and places are
  passed in the order of these lists: a node before what is below it, and what is below one
  child before the next child.

  Main statement: the check succeeds if and only if every call that the root reaches fits its
  target, and otherwise reports the call that comes first (`link_check_exact`).
-/

-- Places

namespace RubyWat

open List

variable {t : Code.Tree} {n k : Code.NodeId} {way : List Nat}

namespace Code.Tree

/- The node that positions of children lead to. -/
def follow (t : Tree) (n : NodeId) : List Nat → Option NodeId
  | [] => some n
  | i :: way => (t.children n)[i]?.bind fun c => t.follow c way

theorem follow_cons (hFollow : t.follow n (i :: way) = some k) :
    ∃ c, (t.children n)[i]? = some c ∧ t.follow c way = some k :=
  Option.bind_eq_some_iff.mp hFollow

theorem reaches_of_follow (hFollow : t.follow n way = some k) : t.Reaches n k := by
  induction way generalizing n with
  | nil =>
    cases hFollow
    exact .self
  | cons i way ih =>
    rcases follow_cons hFollow with ⟨c, hChild, hRest⟩
    exact .head (mem_of_getElem? hChild) (ih hRest)

-- Checks In Order

variable {check : NodeId → Except Fault Unit}

/- A check of several lists fails in the first where one fails. -/
theorem forM_flatMap_error {lists : NodeId → List NodeId} {ns : List NodeId}
    (hError : (ns.flatMap lists).forM check = .error fault) :
    ∃ (i : Nat) (c : NodeId), ns[i]? = some c ∧ (lists c).forM check = .error fault
      ∧ ∀ j < i, ∀ c', ns[j]? = some c' → (lists c').forM check = .ok () := by
  induction ns with
  | nil => cases hError
  | cons n ns ih =>
    simp only [flatMap_cons, forM_eq_forM, forM_append] at hError ih ⊢
    rcases hFirst : forM (lists n) check with error | _
    · rw [hFirst] at hError
      cases hError
      exact ⟨0, n, rfl, hFirst, by simp⟩
    · rw [hFirst] at hError
      rcases ih hError with ⟨i, c, hChild, hBelow, hBefore⟩
      refine ⟨i + 1, c, hChild, hBelow, fun j hLess c' hC => ?_⟩
      cases j with
      | zero =>
        cases hC
        exact hFirst
      | succ j => exact hBefore j (by omega) c' hC

/- A check of a tree fails at the first place where it does. -/
theorem first_error (hShallow : t.Shallow fuel n)
    (hError : (t.downward fuel n).forM check = .error fault) :
    ∃ way k, t.follow n way = some k ∧ check k = .error fault
      ∧ ∀ way' < way, ∀ k', t.follow n way' = some k' → check k' = .ok () := by
  induction fuel generalizing n with
  | zero => cases hError
  | succ fuel ih =>
    rw [downward, List.forM] at hError
    rcases hNode : check n with error | _
    · rw [hNode] at hError
      cases hError
      exact ⟨[], n, rfl, hNode, by simp⟩
    rw [hNode] at hError
    rcases forM_flatMap_error hError with ⟨i, c, hChild, hBelow, hBefore⟩
    rcases ih (hShallow.child (mem_of_getElem? hChild)) hBelow with
      ⟨way, k, hFollow, hCheck, hFirst⟩
    refine ⟨i :: way, k, by simp [follow, hChild, hFollow], hCheck, ?_⟩
    intro way' hLess k' hK
    cases way' with
    | nil =>
      cases hK
      exact hNode
    | cons j way' =>
      rcases follow_cons hK with ⟨c', hC, hRest⟩
      rcases List.cons_lt_cons_iff.mp hLess with hLt | ⟨rfl, hLt⟩
      · have hShort := hShallow.child (mem_of_getElem? hC)
        exact Context.ok_of_forM (hBefore j hLt c' hC) k'
          (hShort.mem_downward (reaches_of_follow hRest))
      · cases hC.symm.trans hChild
        exact hFirst way' hLt k' hRest

end Code.Tree

-- Calls In Order

namespace Context

open Code.Tree

/- Only calls are found to be wrong. -/
theorem checkNode_error {ctx : Context} (hCheck : ctx.checkNode n = .error fault) :
    ∃ m, ctx.tree.instr n = .call m ∧ ctx.checkCall n m = .error fault := by
  rw [checkNode] at hCheck
  split at hCheck
  · rename_i m hCall
    exact ⟨m, hCall, hCheck⟩
  · cases hCheck

/-
  The check succeeds if and only if every call that the root reaches has a target with code that
  takes its operands and gives its result.  Otherwise the report is about a call such that all
  calls at earlier places are as they should be.
-/
theorem link_check_exact (ctx : Context) (hShaped : ctx.tree.Shaped root) :
    (ctx.linkCheck = .ok () ↔ ∀ n m, ctx.tree.Reaches root n → ctx.tree.instr n = .call m →
        ctx.Linked n m)
      ∧ ∀ fault, ctx.linkCheck = .error fault →
          ∃ way n m, ctx.tree.follow root way = some n ∧ ctx.tree.instr n = .call m
            ∧ ctx.checkCall n m = .error fault
            ∧ ∀ way' < way, ∀ n' m', ctx.tree.follow root way' = some n' →
                ctx.tree.instr n' = .call m' → ctx.Linked n' m' := by
  have hLoopless := hShaped.toLoopless
  rw [linkCheck_eq hShaped]
  refine ⟨⟨fun hOk n m hReach => ?_, fun hLinked => ?_⟩, fun fault hError => ?_⟩
  · exact linked_of_checkNode (ok_of_forM hOk n (hLoopless.mem_preorder.mpr hReach))
  · rcases hError : (ctx.tree.preorder root).forM ctx.checkNode with fault | _
    · rcases first_error hLoopless.shallow hError with ⟨way, n, hFollow, hCheck, _⟩
      rcases checkNode_error hCheck with ⟨m, hCall, hFault⟩
      have hFits := hLinked n m (reaches_of_follow hFollow) hCall
      rw [checkCall_ok_iff.mpr hFits] at hFault
      cases hFault
    · rfl
  · rcases first_error hLoopless.shallow hError with ⟨way, n, hFollow, hCheck, hBefore⟩
    rcases checkNode_error hCheck with ⟨m, hCall, hFault⟩
    refine ⟨way, n, m, hFollow, hCall, hFault, fun way' hLess n' m' hFollow' hCall' => ?_⟩
    exact linked_of_checkNode (hBefore way' hLess n' hFollow') hCall'

/- A call inside of the first of two nodes, and a call before it. -/
def innerCall : Context :=
  { program := .empty 0
    tree :=
      [.add root .nop .none,
        .add root (.call ⟨0⟩) .none,
        .add ⟨1⟩ (.call ⟨1⟩) .none].foldl Code.Edit.apply .empty }

theorem innerCall_reported :
    innerCall.tree.Shaped root ∧ innerCall.linkCheck = innerCall.checkCall ⟨3⟩ ⟨1⟩
      ∧ ¬ ∀ n m, innerCall.tree.Reaches root n → innerCall.tree.instr n = .call m →
          innerCall.Linked n m := by
  have hBuilt : innerCall.tree.Built := by
    simp only [innerCall, foldl_cons, foldl_nil]
    refine .edit (.edit (.edit .empty _ ?_) _ ?_) _ ?_ <;> exact Nat.le_of_ble_eq_true rfl
  have hShaped : innerCall.tree.Shaped root := hBuilt.forest.shaped (by decide)
  refine ⟨hShaped, rfl, fun hLinked => ?_⟩
  have hOk := (link_check_exact innerCall hShaped).1.mpr hLinked
  cases hOk

end Context

-- Where It Is Reported

/- A unit that asks for another one. -/
def askingUnit : String :=
  "(begin (send nil :require (str \"lib\")))"

/- The spans of the nodes of a tree, down to a depth. -/
def Dump.Node.spans : Nat → Node → List Span
  | 0, _ => []
  | depth + 1, node => node.span :: node.nodes.flatMap (spans depth)

/-
  A call without a target is reported in the main unit wherever it
  stands, here where the main unit has no node.
-/
theorem strayCall_misplaced :
    let run := compileUnit {}
      { inMemory := [("main", askingUnit), ("lib", "(def :f (args) (send nil :missing))")] } "main"
    ("main", askingUnit) ∈ run.loader.sources
      ∧ (Dump.read askingUnit).toOption.map (fun root => root.spans root.height)
        = some [⟨0, 39⟩, ⟨7, 38⟩, ⟨26, 37⟩]
      ∧ (run.result.map fun _ => ()).mapError
          (fun failure => (failure.file, failure.report.labels.map fun label =>
            (label.isPrimary, label.span)))
        = .error (some "main", [(true, ⟨15, 34⟩), (false, ⟨15, 34⟩)]) := by
  decide +kernel

end RubyWat
