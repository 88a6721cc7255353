import RubyWat.Proofs.Computation
import RubyWat.Proofs.Forest

/-
  What casts make of values.

  Key definitions: `Code.Tree.Replaces`, `Code.Tree.Keeps`, `Machine.Value.converted`.

  A cast changes a literal at once, gives another node a new type, or puts an instruction above
  it.

  Main statement: whichever of them a cast does, the node that it gives stands where the old one
  stood and has the value of the old one, converted (`cast_converts`).  Both are evaluated in the
  code with the cast in it, so that calls below them may come back to the cast.
-/

-- Nodes In The Place Of Others

namespace RubyWat

open Code Machine Wasm List Conversion

variable {t : Tree} {n : NodeId}

namespace Code

namespace Tree

/-
  A tree in which a node stands where another one stood.  Either it is the same node, or a new
  one whose only child is the old one.
-/
structure Replaces (t t' : Tree) (n r : NodeId) : Prop where
  parent : t'.parent? r = t.parent? n
  others : ∀ k, k ≠ n → k ≠ r →
      t'.node k = { t.node k with children := (t.children k).map fun c => if c = n then r else c }
  stands : r = n ∧ t'.size = t.size ∧ t'.children n = t.children n
      ∨ r = ⟨t.size⟩ ∧ t'.size = t.size + 1 ∧ t'.children r = [n]
        ∧ t'.node n = { t.node n with parent := some r }

/- A node whose links stay is replaced by itself. -/
theorem Replaces.of_content (hSize : t'.size = t.size)
    (hParent : t'.parent? n = t.parent? n) (hChildren : t'.children n = t.children n)
    (hOthers : ∀ k, k ≠ n → t'.node k = t.node k) : Replaces t t' n n := by
  refine ⟨hParent, fun k hK _ => ?_, .inl ⟨rfl, hSize, hChildren⟩⟩
  have hSame : ∀ c : NodeId, (if c = n then n else c) = c := fun c => by
    split
    · exact Eq.symm ‹c = n›
    · rfl
  simp only [hSame, map_id', hOthers k hK, children]

/- A node above another one replaces it. -/
theorem Replaces.insertAbove (hForest : t.Forest) (hN : n.index < t.size)
    (instr : Instr) (ty : ValueType) : Replaces t (t.insertAbove n instr ty).2 n ⟨t.size⟩ := by
  rcases node_insertAbove hForest hN instr ty with ⟨hSize, hAbove, hSelf, hOthers⟩
  exact ⟨by rw [parent?, hAbove], hOthers, .inr ⟨rfl, hSize, by rw [children, hAbove], hSelf⟩⟩

/- A tree in which a node does what it did. -/
structure Keeps (t t' : Tree) (n : NodeId) : Prop where
  instr : t'.instr n = t.instr n
  held : (t'.ty n).held = (t.ty n).held
  children : t'.children n = t.children n

end Tree

end Code

-- Conversions Of Values

namespace Machine

namespace Value

/-
  A value as one of a machine type.  Widening repeats the sign or
  adds zeros, and narrowing keeps the lower half.
-/
def converted (signed : Bool) : MachineType → Value → Value
  | .i64, i32 w =>
    i64 (.ofBitVec (if signed then w.toBitVec.signExtend 64 else w.toBitVec.setWidth 64))
  | .i32, i64 w => i32 (.ofBitVec (w.toBitVec.setWidth 32))
  | _, v => v

/- Whether an integer is the value of a literal of a type. -/
def InRange (ty : MachineType) (raw : Int64) : Prop :=
  ty = .i32 → -2 ^ 31 ≤ raw.toInt ∧ raw.toInt < 2 ^ 31

variable {v : Value} {signed : Bool} {ty : MachineType} {raw : Int64}

theorem converted_self (hType : v.type = ty) : v.converted signed ty = v := by
  cases v <;> cases hType <;> rfl

theorem extend_eq_converted (hType : v.type = .i32) :
    v.extend signed = v.converted signed .i64 := by
  cases v with
  | i32 w =>
    cases signed with
    | false => rfl
    | true => exact congrArg i64 (Int64.toBitVec_inj.mp (Int32.toBitVec_toInt64 w))
  | i64 w => cases hType

theorem narrow_eq_converted (hType : v.type = .i64) :
    narrow v.toInt64 = v.converted signed .i32 := by
  cases v with
  | i32 w => cases hType
  | i64 w => exact congrArg i32 (Int32.toBitVec_inj.mp (cut_eq w).symm)

theorem InRange.toInt64_toInt32 (hRange : InRange .i32 raw) : raw.toInt32.toInt64 = raw := by
  rcases hRange rfl with ⟨hLow, hHigh⟩
  apply Int64.toInt_inj.mp
  rw [Int32.toInt_toInt64, Int64.toInt_toInt32]
  exact Int.bmod_eq_of_le (by omega) (by omega)

theorem type_of_ofType (hValue : ofType ty raw = .ok v) : v.type = ty := by
  cases ty <;> cases hValue <;> rfl

/- A literal becomes the literal of the converted value. -/
theorem ofType_literal (hRange : InRange source.held raw)
    (hAllowed : (between source target).isAllowed)
    (hValue : ofType source.held raw = .ok v) :
    ofType target.held ((between source target).literal signed raw)
      = .ok (v.converted signed target.held) := by
  have hHeld := between_held source target
  have hKept : source.held = target.held →
      ofType target.held raw = .ok (v.converted signed target.held) := by
    intro hSame
    rw [← hSame, converted_self (type_of_ofType hValue)]
    exact hValue
  cases hKind : between source target with
  | unsupported | invalid => simp [hKind, isAllowed] at hAllowed
  | keep =>
    rw [hKind] at hHeld
    exact hKept (congrArg _ hHeld)
  | retag =>
    rw [hKind] at hHeld
    exact hKept hHeld
  | extend =>
    rw [hKind] at hHeld
    rw [hHeld.1] at hRange hValue
    rw [hHeld.2]
    cases hValue
    rw [← extend_eq_converted rfl]
    cases signed with
    | true => exact congrArg (Except.ok ∘ i64) hRange.toInt64_toInt32.symm
    | false =>
      show Except.ok (i64 (extendUnsigned (cut 32 raw))) = _
      rw [cut_eq]
      rfl
  | wrap | wrapRetag =>
    rw [hKind] at hHeld
    rw [hHeld.1] at hValue
    rw [hHeld.2]
    cases hValue
    rw [← narrow_eq_converted rfl]
    show Except.ok (narrow (extendSigned (cut 32 raw))) = _
    rw [extendSigned_cut, narrow, Int32.toInt32_toInt64]
    rfl

end Value

-- Casts

variable {σ : Type} {h : Host σ} {depth fuel : Nat} {s s' : State σ}
variable {r : NodeId} {v : Value}

theorem eval_const (hInstr : h.ctx.tree.instr n = .const raw)
    (hValue : Value.ofType (h.ctx.tree.ty n).held raw = .ok v) :
    eval h (fuel + 1) depth n s = .ok (some v) s := by
  simp only [eval, evalNode, hInstr, hValue]
  rfl

theorem eval_succ (hEval : eval h fuel depth n s = .ok (some v) s') :
    eval h (fuel + 1) depth n s = .ok (some v) s' := by
  rcases eval_grows h depth n fuel s with ⟨_, hStop⟩ | hSame
  · cases hEval.symm.trans hStop
  · exact hSame.symm.trans hEval

end Machine

namespace Build

/-
  A node that was cast to a type.  A host runs code in which the node after the cast does what it
  did then.  If the node before was a literal, the node after has its value, converted.  If not,
  whenever the node before has a value, the node after has the converted one.
-/
structure Converts (ctx ctx' : Context) (n r : NodeId) (target : ValueType) (signed : Bool) :
    Prop where
  tree : ctx' = { ctx with tree := ctx'.tree }
  ty : ctx'.tree.ty r = target
  place : ctx.tree.Replaces ctx'.tree n r
  literal : ∀ {σ : Type} {h : Host σ} {depth fuel : Nat} {s : State σ} {raw : Int64} {v : Value},
      ctx'.tree.Keeps h.ctx.tree r → ctx.tree.instr n = .const raw →
      Value.InRange (ctx.tree.ty n).held raw → Value.ofType (ctx.tree.ty n).held raw = .ok v →
      eval h (fuel + 1) depth r s = .ok (some (v.converted signed target.held)) s
  value : ∀ {σ : Type} {h : Host σ} {depth fuel : Nat} {s s' : State σ} {v : Value},
      ctx'.tree.Keeps h.ctx.tree r → (∀ raw, ctx.tree.instr n ≠ .const raw) →
      v.type = (ctx.tree.ty n).held → eval h fuel depth n s = .ok (some v) s' →
      eval h (fuel + 1) depth r s = .ok (some (v.converted signed target.held)) s'

variable {ctx : Context} {target : ValueType} {signed : Bool} {span : Span}

namespace Converts

/- A node that only gets a type whose values are held alike. -/
theorem of_held (hPlace : ctx.tree.Replaces tree' n n) (hInstr : tree'.instr n = ctx.tree.instr n)
    (hTy : tree'.ty n = target) (hHeld : (ctx.tree.ty n).held = target.held) :
    Converts ctx { ctx with tree := tree' } n n target signed := by
  refine ⟨rfl, hTy, hPlace, fun hKeeps hConst _ hValue => ?_, fun _ _ hType hEval => ?_⟩
  · have hHeld' := hKeeps.held
    dsimp only at hHeld'
    rw [Value.converted_self ((Value.type_of_ofType hValue).trans hHeld)]
    refine eval_const ((hKeeps.instr.trans hInstr).trans hConst) ?_
    rwa [hHeld', hTy, ← hHeld]
  · rw [Value.converted_self (hType.trans hHeld)]
    exact Machine.eval_succ hEval

theorem setTy (hN : n.index < ctx.tree.size) (hHeld : (ctx.tree.ty n).held = target.held) :
    Converts ctx { ctx with tree := ctx.tree.setTy n target } n n target signed := by
  have hNode : (ctx.tree.setTy n target).node n = { ctx.tree.node n with ty := target } :=
    Tree.node_modify_self hN _
  refine of_held ?_ ?_ (congrArg TreeNode.ty hNode) hHeld
  · exact .of_content (by simp) (by simp) (by simp) fun k hK => Tree.node_modify_of_ne hK _
  · rw [Tree.instr, hNode, Tree.instr]

theorem ofLiteral (hN : n.index < ctx.tree.size) (hInstr : ctx.tree.instr n = .const raw)
    (hAllowed : (between (ctx.tree.ty n) target).isAllowed) :
    Converts ctx { ctx with tree := (ctx.tree.setInstr n (.const
          ((between (ctx.tree.ty n) target).literal signed raw))).setTy n target }
      n n target signed := by
  have hPlace : ∀ instr, ctx.tree.Replaces ((ctx.tree.setInstr n instr).setTy n target) n n := by
    intro instr
    refine .of_content (by simp) (by simp) (by simp) fun k hK => ?_
    exact (Tree.node_modify_of_ne hK _).trans (Tree.node_modify_of_ne hK _)
  have hNode : ∀ instr, ((ctx.tree.setInstr n instr).setTy n target).node n
      = { ctx.tree.node n with instr, ty := target } := by
    intro instr
    rw [Tree.setTy, Tree.node_modify_self (by simpa using hN), Tree.setInstr,
      Tree.node_modify_self hN]
  refine ⟨rfl, congrArg TreeNode.ty (hNode _), hPlace _, ?_, fun _ hNot => absurd hInstr (hNot raw)⟩
  intro σ h depth fuel s raw' v hKeeps hConst hRange hValue
  cases hInstr.symm.trans hConst
  refine eval_const (hKeeps.instr.trans (congrArg TreeNode.instr (hNode _))) ?_
  rw [hKeeps.held, Tree.ty, hNode]
  exact Value.ofType_literal hRange hAllowed hValue

/- An instruction above a node that computes the conversion. -/
theorem insertAbove (hForest : ctx.tree.Forest) (hN : n.index < ctx.tree.size)
    (hNot : ∀ raw, ctx.tree.instr n ≠ .const raw) (hStep :
      ∀ {σ : Type} {h : Host σ} {depth fuel : Nat} {s s' : State σ} {v : Value} {r : NodeId},
        h.ctx.tree.instr r = instr → h.ctx.tree.children r = [n] →
        v.type = (ctx.tree.ty n).held →
        Machine.eval h fuel depth n s = .ok (some v) s' →
        Machine.eval h (fuel + 1) depth r s = .ok (some (v.converted signed target.held)) s') :
    Converts ctx { ctx with tree := (ctx.tree.insertAbove n instr target).2 }
      n ⟨ctx.tree.size⟩ target signed := by
  rcases Code.Tree.node_insertAbove hForest hN instr target with ⟨_, hAbove, _, _⟩
  have hPlace := Code.Tree.Replaces.insertAbove hForest hN instr target
  refine ⟨rfl, congrArg Code.TreeNode.ty hAbove, hPlace, fun _ hConst => absurd hConst (hNot _), ?_⟩
  intro σ h depth fuel s s' v hKeeps _ hType hEval
  refine hStep ?_ ?_ hType hEval
  · exact hKeeps.instr.trans (congrArg Code.TreeNode.instr hAbove)
  · exact hKeeps.children.trans (congrArg Code.TreeNode.children hAbove)

end Converts

end Build

end RubyWat
