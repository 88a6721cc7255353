import RubyWat.Compile.Branch
import RubyWat.Proofs.Fragment

/-
  Where a node stands.

  Main statements: the scope of a node and the innermost loop around it are those of the nodes
  above it, and nothing that grows below an open node changes them.
-/

-- Nodes Inside Of Methods

namespace RubyWat

open Code List

namespace Code

/- An instruction that opens neither a scope nor a loop. -/
def Instr.isPlain : Instr → Bool
  | .function _ | .classBody _ | .loop => false
  | _ => true

/-
  A node inside of a method, with the innermost loop around it and the block of that loop.
  Nodes that are still open were created after their parents.
-/
inductive InMethod (t : Tree) (m : MethodId) : Option (NodeId × NodeId) → NodeId → Prop where
  | function {n : NodeId} (hIn : n.index < t.size) (hInstr : t.instr n = .function m) :
      InMethod t m none n
  | plain {loop : Option (NodeId × NodeId)} {p n : NodeId} (hOuter : InMethod t m loop p)
      (hIn : n.index < t.size) (hLater : p.index < n.index) (hParent : t.parent? n = some p)
      (hInstr : (t.instr n).isPlain) : InMethod t m loop n
  | loop {loop : Option (NodeId × NodeId)} {p n : NodeId} (hOuter : InMethod t m loop p)
      (hIn : n.index < t.size) (hLater : p.index < n.index) (hParent : t.parent? n = some p)
      (hInstr : t.instr n = .loop) : InMethod t m (some (n, p)) n

namespace InMethod

variable {t t' : Tree} {m : MethodId}
variable {loop : Option (NodeId × NodeId)} {p n : NodeId}

theorem isIn (hPlace : InMethod t m loop n) : n.index < t.size := by
  cases hPlace <;> assumption

/- The place of a node lasts while the way up stays the same. -/
theorem congr (hPlace : InMethod t m loop n) (hSize : t.size ≤ t'.size)
    (hInstr : ∀ k : NodeId, k.index < t.size → t'.instr k = t.instr k)
    (hParent : ∀ k : NodeId, k.index < t.size → t'.parent? k = t.parent? k) :
    InMethod t' m loop n := by
  induction hPlace with
  | function hIn hFunction => exact .function (by omega) ((hInstr _ hIn).trans hFunction)
  | plain _ hIn hLater hUp hPlain ih =>
    refine .plain ih (by omega) hLater ((hParent _ hIn).trans hUp) ?_
    rw [hInstr _ hIn]
    exact hPlain
  | loop _ hIn hLater hUp hLoop ih =>
    exact .loop ih (by omega) hLater ((hParent _ hIn).trans hUp) ((hInstr _ hIn).trans hLoop)

theorem grown (hPlace : InMethod t m loop n) (hGrown : Grown t t' p fs) : InMethod t' m loop n :=
  hPlace.congr hGrown.size_le (fun _ => hGrown.instr) (fun _ hIn => hGrown.parent? hIn)

/- The block of the innermost loop is its parent. -/
theorem parent_of_loop (hPlace : InMethod t m (some (body, block)) n) :
    t.parent? body = some block := by
  generalize hLoop : some (body, block) = loop at hPlace
  induction hPlace with
  | function => cases hLoop
  | plain _ _ _ _ _ ih => exact ih hLoop
  | loop _ _ _ hParent _ =>
    cases hLoop
    exact hParent

/-
  The way up from a node: nodes that open no scope, then the
  method.  The first loop among them is the innermost one.
-/
theorem upward_eq (hPlace : InMethod t m loop n) (hFuel : n.index < fuel) :
    ∃ inner function outer, t.upward fuel (some n) = inner ++ function :: outer
        ∧ t.instr function = .function m
        ∧ (∀ k ∈ inner, Scope.ofInstr? (t.instr k) = none)
        ∧ (inner.find? fun k => t.instr k == .loop) = loop.map Prod.fst := by
  induction hPlace generalizing fuel with
  | @function n _ hFunction =>
    cases fuel with
    | zero => omega
    | succ fuel => exact ⟨[], n, _, rfl, hFunction, by simp, rfl⟩
  | @plain loop p n _ _ hLater hParent hPlain ih =>
    cases fuel with
    | zero => omega
    | succ fuel =>
      rcases ih (show p.index < fuel by omega) with
        ⟨inner, function, outer, hUp, hFunction, hNone, hFind⟩
      refine ⟨n :: inner, function, outer, by simp [Tree.upward, hParent, hUp], hFunction,
        forall_mem_cons.mpr ⟨?_, hNone⟩, ?_⟩
      · generalize t.instr n = instr at hPlain
        cases instr <;> first | rfl | cases hPlain
      · have hNot : (t.instr n == .loop) = false := by
          generalize t.instr n = instr at hPlain
          cases instr <;> first | rfl | cases hPlain
        rw [find?_cons, hNot]
        exact hFind
  | @loop loop p n _ _ hLater hParent hLoop ih =>
    cases fuel with
    | zero => omega
    | succ fuel =>
      rcases ih (show p.index < fuel by omega) with
        ⟨inner, function, outer, hUp, hFunction, hNone, hFind⟩
      refine ⟨n :: inner, function, outer, by simp [Tree.upward, hParent, hUp], hFunction,
        forall_mem_cons.mpr ⟨?_, hNone⟩, by simp [hLoop]⟩
      rw [hLoop]
      rfl

end InMethod

end Code

-- Scopes

namespace Context

variable {ctx : Context} {m : MethodId}
variable {loop : Option (NodeId × NodeId)} {n : NodeId}

variable (hPlace : InMethod ctx.tree m loop n)
include hPlace

/- The scope of a node inside of a method is the method. -/
theorem scopeOf_inMethod : ctx.scopeOf n = .inMethod m := by
  have hFuel : n.index < ctx.tree.size + 1 := by
    have := hPlace.isIn
    omega
  rcases hPlace.upward_eq hFuel with ⟨inner, function, outer, hUp, hFunction, hNone, _⟩
  have hLineage : ctx.tree.lineage n = inner ++ function :: outer := hUp
  have hInner : inner.findSome? (fun a => Scope.ofInstr? (ctx.tree.instr a)) = none := by
    rw [findSome?_eq_none_iff]
    exact hNone
  have hHere : Scope.ofInstr? (ctx.tree.instr function) = some (.inMethod m) := by
    rw [hFunction]
    rfl
  simp only [scopeOf, hLineage, findSome?_append, hInner, findSome?_cons, hHere]
  rfl

theorem methodOf?_inMethod : ctx.methodOf? n = some m := by
  simp [methodOf?, scopeOf_inMethod hPlace]

theorem classOf_inMethod : ctx.classOf n = (ctx.program.method m).owner := by
  simp [classOf, scopeOf_inMethod hPlace]

/- The innermost loop around a node inside of a method. -/
theorem enclosingLoop?_inMethod : ctx.enclosingLoop? n = loop.map Prod.fst := by
  have hFuel : n.index < ctx.tree.size + 1 := by
    have := hPlace.isIn
    omega
  rcases hPlace.upward_eq hFuel with ⟨inner, function, outer, hUp, hFunction, hNone, hFind⟩
  have hLineage : ctx.tree.lineage n = inner ++ function :: outer := hUp
  -- no method stands between the node and its own
  rw [enclosingLoop?, hLineage, takeWhile_append_of_pos, takeWhile_cons_of_neg, append_nil, ← hFind]
  · congr 1
    funext k
    generalize ctx.tree.instr k = instr
    cases instr <;> rfl
  · simp [hFunction]
  · intro k hMem
    have := hNone k hMem
    generalize ctx.tree.instr k = instr at this
    cases instr <;> first | rfl | cases this

end Context

end RubyWat
