import RubyWat.Code.Tree

/-
  What the edits of a code tree change.

  Every edit changes the content of a few nodes and leaves all others alone.  The lemmas below
  say so through `Tree.node`, from which the views of a node are read.  All edits keep the
  labels of blocks and loops apart.
-/

-- Content Edits

namespace RubyWat

open Code List

variable {n : NodeId} {t : Tree}
variable {f : TreeNode → TreeNode} {ns : List NodeId}

namespace Code

namespace Tree

section

variable (t : Tree) (n : NodeId)

@[simp] theorem size_modify (f : TreeNode → TreeNode) : (t.modify n f).size = t.size := by
  simp [modify, size]

@[simp] theorem size_setInstr (instr : Instr) : (t.setInstr n instr).size = t.size :=
  size_modify t n _

@[simp] theorem size_setTy (ty : ValueType) : (t.setTy n ty).size = t.size :=
  size_modify t n _

@[simp] theorem size_setSpan (span : Span) : (t.setSpan n span).size = t.size :=
  size_modify t n _

@[simp] theorem size_setChildren (children : List NodeId) :
    (t.setChildren n children).size = t.size :=
  size_modify t n _

@[simp] theorem size_setParent (parent : Option NodeId) : (t.setParent n parent).size = t.size :=
  size_modify t n _

end

/- Nothing is in a node that was never created. -/
theorem node_of_size_le (hOut : t.size ≤ n.index) : t.node n = { instr := .nop, ty := .none } := by
  rw [node, Array.getD_eq_getD_getElem?, Array.getElem?_eq_none hOut]
  rfl

theorem node_modify_self (hIn : n.index < t.size) (f : TreeNode → TreeNode) :
    (t.modify n f).node n = f (t.node n) := by
  simp only [size] at hIn
  simp only [modify, node, Array.getD_eq_getD_getElem?, Array.getElem?_modify, if_true]
  simp [hIn]

theorem node_modify_of_ne (hNe : k ≠ n) (f : TreeNode → TreeNode) :
    (t.modify n f).node k = t.node k := by
  have hIndex : n.index ≠ k.index := by
    intro hEq
    apply hNe
    cases k
    cases n
    simp_all
  simp only [modify, node, Array.getD_eq_getD_getElem?, Array.getElem?_modify, if_neg hIndex]

/- A tree with a changed node, node by node. -/
theorem node_modify (n k : NodeId) (f : TreeNode → TreeNode) :
    (t.modify n f).node k = if k = n ∧ k.index < t.size then f (t.node k) else t.node k := by
  by_cases hEq : k = n
  · subst hEq
    by_cases hIn : k.index < t.size
    · rw [node_modify_self hIn, if_pos ⟨rfl, hIn⟩]
    · rw [node_of_size_le (by rw [size_modify]; omega),
        node_of_size_le (by omega), if_neg fun h => hIn h.2]
  · rw [node_modify_of_ne hEq, if_neg fun h => hEq h.1]

/- What a change of nodes keeps, it keeps in the whole tree. -/
theorem view_modify {α : Type} (view : TreeNode → α) (hSame : ∀ x, view (f x) = view x)
    (n k : NodeId) : view ((t.modify n f).node k) = view (t.node k) := by
  rw [node_modify]
  split
  · exact hSame _
  · rfl

-- New Nodes

/- The content of a node that was just created. -/
def newNode (t : Tree) (instr : Instr) (ty : ValueType) : TreeNode :=
  { instr
    ty
    label := if instr.takesLabel then some t.nextLabel else none }

section

variable (t : Tree) (instr : Instr) (ty : ValueType)

@[simp] theorem create_fst : (t.create instr ty).1 = ⟨t.size⟩ :=
  rfl

@[simp] theorem size_create : (t.create instr ty).2.size = t.size + 1 := by
  simp [create, size]

theorem node_create_new : (t.create instr ty).2.node ⟨t.size⟩ = t.newNode instr ty := by
  simp [create, node, size, newNode, Array.getD_eq_getD_getElem?]

end

/- Old nodes are not the one that is created next. -/
theorem ne_of_index_lt (hIn : n.index < t.size) : n ≠ ⟨t.size⟩ := by
  rintro rfl
  exact Nat.lt_irrefl _ hIn

theorem node_create_old (hIn : n.index < t.size) (instr : Instr) (ty : ValueType) :
    (t.create instr ty).2.node n = t.node n := by
  simp only [size] at hIn
  simp [create, node, Array.getD_eq_getD_getElem?, Array.getElem?_push, Nat.ne_of_lt hIn]

/- A tree with a new node, node by node. -/
theorem node_create (t : Tree) (instr : Instr) (ty : ValueType) (k : NodeId) :
    (t.create instr ty).2.node k = if k = ⟨t.size⟩ then t.newNode instr ty else t.node k := by
  rcases Nat.lt_trichotomy k.index t.size with hIn | hEq | hOut
  · rw [node_create_old hIn, if_neg (ne_of_index_lt hIn)]
  · have hNew : k = ⟨t.size⟩ := by
      rw [← hEq]
    rw [if_pos hNew, hNew, node_create_new]
  · rw [node_of_size_le (by rw [size_create]; omega), node_of_size_le (by omega), if_neg]
    rintro rfl
    exact Nat.lt_irrefl _ hOut

-- Labels

/-
  Labels are given out in order, each to one node.  If all are asked for, then every block and
  loop carries one.
-/
structure Marked (t : Tree) (all : Prop) : Prop where
  carries : all → ∀ n, (t.instr n).takesLabel = true → ∃ l, t.label? n = some l
  below : ∀ n l, t.label? n = some l → l < t.nextLabel
  distinct : ∀ n k l, t.label? n = some l → t.label? k = some l → n = k

/- Blocks and loops carry labels, and no two nodes carry the same one. -/
abbrev Labelled (t : Tree) : Prop :=
  t.Marked True

namespace Marked

variable {all : Prop}

theorem empty : empty.Marked all := by
  have hNode : ∀ n, (Tree.empty.instr n).takesLabel = false ∧ Tree.empty.label? n = none := by
    rintro ⟨n⟩
    cases n with
    | zero | succ => exact ⟨rfl, rfl⟩
  constructor
  · intro _ n hTakes
    rw [(hNode n).1] at hTakes
    contradiction
  · intro n l hLabel
    rw [(hNode n).2] at hLabel
    contradiction
  · intro n k l hLabel
    rw [(hNode n).2] at hLabel
    contradiction

variable (hLabels : t.Marked all)
include hLabels

/- A change that makes no new blocks and loops. -/
theorem modify (hSame : ∀ x, (f x).label = x.label)
    (hInstr : all → ∀ x, (f x).instr.takesLabel = true → x.instr.takesLabel = true) :
    (t.modify n f).Marked all := by
  have hLabel : ∀ k, (t.modify n f).label? k = t.label? k := view_modify TreeNode.label hSame n
  refine ⟨?_, ?_, ?_⟩
  · intro hAll k hTakes
    rw [hLabel]
    refine hLabels.carries hAll k ?_
    rw [Tree.instr, node_modify] at hTakes
    split at hTakes
    · exact hInstr hAll _ hTakes
    · exact hTakes
  · intro k l hK
    rw [hLabel] at hK
    exact hLabels.below k l hK
  · intro k j l hK hJ
    rw [hLabel] at hK hJ
    exact hLabels.distinct k j l hK hJ

theorem setInstr {instr : Instr} (hInstr : instr.takesLabel = false)
    (n : NodeId) : (t.setInstr n instr).Marked all :=
  hLabels.modify (fun _ => rfl) fun _ _ hTakes => by
    rw [hInstr] at hTakes
    contradiction

theorem setTy (n : NodeId) (ty : ValueType) : (t.setTy n ty).Marked all :=
  hLabels.modify (fun _ => rfl) fun _ _ => id

theorem setSpan (n : NodeId) (span : Span) : (t.setSpan n span).Marked all :=
  hLabels.modify (fun _ => rfl) fun _ _ => id

theorem setChildren (n : NodeId) (children : List NodeId) : (t.setChildren n children).Marked all :=
  hLabels.modify (fun _ => rfl) fun _ _ => id

theorem setParent (n : NodeId) (parent : Option NodeId) : (t.setParent n parent).Marked all :=
  hLabels.modify (fun _ => rfl) fun _ _ => id

/- A new block or loop draws a label that is above all others. -/
theorem create (instr : Instr) (ty : ValueType) : (t.create instr ty).2.Marked all := by
  have hNew : ∀ k l, (t.create instr ty).2.label? k = some l →
        k = ⟨t.size⟩ ∧ instr.takesLabel = true ∧ l = t.nextLabel ∨ t.label? k = some l := by
    intro k l hK
    rw [label?, node_create] at hK
    split at hK
    · rename_i hEq
      simp only [newNode] at hK
      split at hK
      · rename_i hTakes
        exact .inl ⟨hEq, hTakes, (Option.some.inj hK).symm⟩
      · cases hK
    · exact .inr hK
  refine ⟨?_, ?_, ?_⟩
  · intro hAll k hTakes
    rw [Tree.instr, node_create] at hTakes
    rw [label?, node_create]
    split at hTakes
    · rename_i hEq
      exact ⟨t.nextLabel, by rw [if_pos hEq]; exact if_pos hTakes⟩
    · rename_i hOld
      rw [if_neg hOld]
      exact hLabels.carries hAll k hTakes
  · intro k l hK
    rcases hNew k l hK with ⟨_, hTakes, rfl⟩ | hOld
    · simp [Tree.create, hTakes]
    · exact Nat.lt_of_lt_of_le (hLabels.below k l hOld) (by simp [Tree.create])
  · intro k j l hK hJ
    rcases hNew k l hK with ⟨hEqK, _, hNextK⟩ | hOldK
    · rcases hNew j l hJ with ⟨hEqJ, _, _⟩ | hOldJ
      · rw [hEqK, hEqJ]
      · have hBelow := hLabels.below j l hOldJ
        omega
    · rcases hNew j l hJ with ⟨_, _, hNextJ⟩ | hOldJ
      · have hBelow := hLabels.below k l hOldK
        omega
      · exact hLabels.distinct k j l hOldK hOldJ

theorem attachLast (p n : NodeId) : (t.attachLast p n).Marked all :=
  (hLabels.setParent n _).setChildren p _

theorem detach (n : NodeId) : (t.detach n).Marked all := by
  unfold Tree.detach
  split
  · exact hLabels
  · exact (hLabels.setParent n none).setChildren _ _

theorem add (p : NodeId) (instr : Instr) (ty : ValueType) : (t.add p instr ty).2.Marked all :=
  (hLabels.create instr ty).attachLast p _

theorem prependChild (p n : NodeId) : (t.prependChild p n).Marked all :=
  ((hLabels.detach n).setParent n _).setChildren p _

theorem clearChildren (n : NodeId) : (t.clearChildren n).Marked all := by
  have hForget : ∀ (ns : List NodeId) (t : Tree), t.Marked all →
        (ns.foldl (fun t c => t.setParent c none) t).Marked all := by
    intro ns
    induction ns with
    | nil => exact fun _ => id
    | cons k rest ih => exact fun t hLabels => ih _ (hLabels.setParent k none)
  exact hForget _ _ (hLabels.setChildren n [])

theorem insertAbove (n : NodeId) (instr : Instr) (ty : ValueType) :
    (t.insertAbove n instr ty).2.Marked all := by
  have hNew := (hLabels.create instr ty).setSpan ⟨t.size⟩ (t.span n)
  simp only [Tree.insertAbove]
  split
  · exact (hNew.setParent n _).setChildren _ _
  · exact (((hNew.setChildren _ _).setParent _ _).setParent n _).setChildren _ _

end Marked

-- Replacement In Lists Of Children

@[simp] theorem replaceFirst_self (n : NodeId) (ns : List NodeId) : replaceFirst n n ns = ns := by
  induction ns with
  | nil => rfl
  | cons k rest ih =>
    by_cases hEq : k = n
    · simp [replaceFirst, hEq]
    · simp [replaceFirst, hEq, ih]

theorem replaceFirst_append_cons (hNot : old ∉ before) (new : NodeId) (after : List NodeId) :
    replaceFirst old new (before ++ old :: after) = before ++ new :: after := by
  induction before with
  | nil => simp [replaceFirst]
  | cons k rest ih =>
    rw [mem_cons, not_or] at hNot
    simp [replaceFirst, Ne.symm hNot.1, ih hNot.2]

/- Replacements one after the other make one replacement. -/
theorem replaceFirst_replaceFirst (hNew : b = a ∨ b ∉ ns) (c : NodeId) :
    replaceFirst b c (replaceFirst a b ns) = replaceFirst a c ns := by
  rcases hNew with rfl | hNot
  · rw [replaceFirst_self]
  induction ns with
  | nil => rfl
  | cons k rest ih =>
    rw [mem_cons, not_or] at hNot
    by_cases hEq : k = a
    · simp [replaceFirst, hEq]
    · simp [replaceFirst, hEq, Ne.symm hNot.1, ih hNot.2]

/- What is in a list after a replacement. -/
theorem mem_replaceFirst (hMem : n ∈ replaceFirst old new ns) : n = new ∨ n ∈ ns := by
  induction ns with
  | nil => cases hMem
  | cons k rest ih =>
    by_cases hEq : k = old
    · simp only [replaceFirst, hEq, if_true, mem_cons] at hMem
      rcases hMem with hNew | hRest
      · exact .inl hNew
      · exact .inr (.tail k hRest)
    · simp only [replaceFirst, hEq, if_false, mem_cons] at hMem
      rcases hMem with rfl | hRest
      · exact .inr (.head _)
      · rcases ih hRest with hNew | hOld
        · exact .inl hNew
        · exact .inr (.tail k hOld)

end Tree

end Code

end RubyWat
