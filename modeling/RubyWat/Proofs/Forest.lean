import Mathlib.Logic.Function.Iterate
import RubyWat.Proofs.Reachable

/-
  Code trees under arbitrary edits.

  Key definitions: `Code.Edit`, `Code.Tree.Built`, `Code.Tree.Forest`.

  Main statement: whatever edits a tree has gone through, its nodes form a forest.  Parents and
  children agree on every link, ways up end, the root is on top, and no label is drawn twice
  (`built_forest`).
-/

-- Edits

namespace RubyWat

open List

variable {k n : Code.NodeId} {t : Code.Tree} {ns : List Code.NodeId}

namespace Code

/- What a tree can be asked for. -/
inductive Edit where
  | create (instr : Instr) (ty : ValueType)
  | add (parent : NodeId) (instr : Instr) (ty : ValueType)
  | setInstr (n : NodeId) (instr : Instr)
  | setTy (n : NodeId) (ty : ValueType)
  | detach (n : NodeId)
  | clearChildren (n : NodeId)
  | reparent (n parent : NodeId)
  | prependChild (parent n : NodeId)
  | insertAbove (n : NodeId) (instr : Instr) (ty : ValueType)

namespace Edit

/- Carry an edit out. -/
def apply (t : Tree) : Edit → Tree
  | create instr ty => (t.create instr ty).2
  | add parent instr ty => (t.add parent instr ty).2
  | setInstr n instr => t.setInstr n instr
  | setTy n ty => t.setTy n ty
  | detach n => t.detach n
  | clearChildren n => t.clearChildren n
  | reparent n parent => t.reparent n parent
  | prependChild parent n => t.prependChild parent n
  | insertAbove n instr ty => (t.insertAbove n instr ty).2

/- A node that may be moved below another one. -/
structure Movable (t : Tree) (n parent : NodeId) : Prop where
  isIn : n.index < t.size
  parentIsIn : parent.index < t.size
  notRoot : n ≠ Tree.root
  apart : ¬ t.Reaches n parent

/- Edits name nodes that exist.  The root stays on top, and no node is moved below itself. -/
def Allowed (t : Tree) : Edit → Prop
  | create _ _ => True
  | add parent _ _ => parent.index < t.size
  | setInstr n _ => n.index < t.size
  | setTy n _ => n.index < t.size
  | detach n => n.index < t.size
  | clearChildren n => n.index < t.size
  | reparent n parent => Movable t n parent
  | prependChild parent n => Movable t n parent
  | insertAbove n _ _ => n.index < t.size ∧ n ≠ Tree.root

end Edit

/- A tree that edits have made from the empty one. -/
inductive Tree.Built : Tree → Prop where
  | empty : Built .empty
  | edit {t : Tree} (hBuilt : Built t) (e : Edit) (hAllowed : e.Allowed t) : Built (e.apply t)

-- Forests

namespace Tree

/- One node is the parent of another. -/
def IsParent (t : Tree) (p c : NodeId) : Prop :=
  t.parent? c = some p

/- Nodes list as children those that name them as parent, and every way up ends. -/
structure Forest (t : Tree) : Prop where
  mem_children : ∀ p c, c ∈ t.children p ↔ t.IsParent p c
  nodup : ∀ p, (t.children p).Nodup
  ends : ∀ n, Acc t.IsParent n
  onTop : t.parent? root = none

namespace Forest

variable {t' : Tree} {p : NodeId}

theorem empty : Tree.empty.Forest := by
  have hNode : ∀ n, Tree.empty.parent? n = none ∧ Tree.empty.children n = [] := by
    rintro ⟨n⟩
    cases n with
    | zero | succ => exact ⟨rfl, rfl⟩
  refine ⟨?_, ?_, ?_, (hNode _).1⟩
  · intro p c
    rw [IsParent, (hNode c).1, (hNode p).2]
    simp
  · intro p
    rw [(hNode p).2]
    exact nodup_nil
  · refine fun n => .intro n fun p hParent => ?_
    rw [IsParent, (hNode n).1] at hParent
    cases hParent

/- Only links count. -/
theorem congr (hForest : t.Forest) (hParent : ∀ k, t'.parent? k = t.parent? k)
    (hChildren : ∀ k, t'.children k = t.children k) : t'.Forest := by
  have hSame : t'.IsParent = t.IsParent := by
    funext p c
    rw [IsParent, hParent, IsParent]
  refine ⟨?_, ?_, ?_, ?_⟩
  · rw [hSame]
    exact fun p c => hChildren p ▸ hForest.mem_children p c
  · exact fun p => hChildren p ▸ hForest.nodup p
  · rw [hSame]
    exact hForest.ends
  · rw [hParent]
    exact hForest.onTop

/- Some children leave their parents. -/
theorem cut (hForest : t.Forest) (leave : NodeId → Prop) [DecidablePred leave]
    (hParent : ∀ k, t'.parent? k = if leave k then none else t.parent? k)
    (hChildren : ∀ k, t'.children k = (t.children k).filter (¬ leave ·)) : t'.Forest := by
  have hSub : ∀ p c, t'.IsParent p c → t.IsParent p c := by
    intro p c hLink
    rw [IsParent, hParent] at hLink
    split at hLink
    · cases hLink
    · exact hLink
  refine ⟨?_, ?_, ?_, ?_⟩
  · intro p c
    rw [hChildren, mem_filter, hForest.mem_children, IsParent, IsParent, hParent]
    by_cases hLeave : leave c
    · simp [hLeave]
    · simp [hLeave]
  · intro p
    rw [hChildren]
    exact (hForest.nodup p).filter _
  · exact fun k => Subrelation.accessible (hSub _ _) (hForest.ends k)
  · rw [hParent, hForest.onTop, ite_self]

/-
  A node without a parent is hung below another, at whichever end of its children.  The
  ancestors of the new parent have the ways up that they had, since the node is none of them.
-/
theorem hang (hForest : t.Forest) (hLoose : t.parent? n = none) (hRoot : n ≠ root)
    (hApart : ¬ t.Reaches n p) (hParent : ∀ k, t'.parent? k = if k = n then some p else t.parent? k)
    (hChildren : (t'.children p).Perm (n :: t.children p))
    (hOthers : ∀ k, k ≠ p → t'.children k = t.children k) : t'.Forest := by
  have hNot : ∀ q, ¬ t.IsParent q n := by
    intro q hLink
    rw [IsParent, hLoose] at hLink
    cases hLink
  have hAbove : ∀ q, Acc t.IsParent q → t.Reaches q p → Acc t'.IsParent q := by
    intro q hAcc
    induction hAcc with
    | intro q _ ih =>
      intro hReach
      refine .intro q fun r hLink => ?_
      rw [IsParent, hParent, if_neg] at hLink
      · exact ih r hLink (.head ((hForest.mem_children r q).mpr hLink) hReach)
      · rintro rfl
        exact hApart hReach
  have hTop : Acc t'.IsParent p := hAbove p (hForest.ends p) .self
  have hSelf : Acc t'.IsParent n := by
    refine .intro n fun q hLink => ?_
    rw [IsParent, hParent, if_pos rfl] at hLink
    cases hLink
    exact hTop
  refine ⟨?_, ?_, ?_, ?_⟩
  · intro q c
    rw [IsParent, hParent]
    by_cases hQ : q = p
    · subst hQ
      rw [hChildren.mem_iff, mem_cons, hForest.mem_children, IsParent]
      by_cases hC : c = n
      · simp [hC]
      · simp [hC]
    · rw [hOthers q hQ, hForest.mem_children]
      by_cases hC : c = n
      · subst hC
        simp [hNot q, Ne.symm hQ]
      · simp [hC, IsParent]
  · intro q
    by_cases hQ : q = p
    · subst hQ
      rw [hChildren.nodup_iff, nodup_cons, hForest.mem_children]
      exact ⟨hNot q, hForest.nodup q⟩
    · rw [hOthers q hQ]
      exact hForest.nodup q
  · intro k
    induction hForest.ends k with
    | intro k _ ih =>
      refine .intro k fun q hLink => ?_
      rw [IsParent, hParent] at hLink
      split at hLink
      · cases hLink
        exact hTop
      · exact ih q hLink
  · rw [hParent, if_neg hRoot.symm]
    exact hForest.onTop

end Forest

-- Links After An Edit

variable {p : NodeId}

variable {instr : Instr} {ty : ValueType}

/- What a new node has in common with one that was never created. -/
theorem view_create {α : Type} (view : TreeNode → α)
    (hNew : view (t.newNode instr ty) = view { instr := .nop, ty := .none }) (k : NodeId) :
    view ((t.create instr ty).2.node k) = view (t.node k) := by
  rw [node_create]
  split
  · rename_i hEq
    rw [hNew, node_of_size_le (hEq ▸ Nat.le_refl _)]
  · rfl

theorem parent?_create : (t.create instr ty).2.parent? k = t.parent? k :=
  view_create TreeNode.parent (by rfl) k

theorem children_create : (t.create instr ty).2.children k = t.children k :=
  view_create TreeNode.children (by rfl) k

section

variable (n k : NodeId)

@[simp] theorem parent?_setInstr (instr : Instr) :
    (t.setInstr n instr).parent? k = t.parent? k := by
  refine view_modify TreeNode.parent ?_ n k
  exact fun _ => rfl

@[simp] theorem parent?_setTy (ty : ValueType) : (t.setTy n ty).parent? k = t.parent? k := by
  refine view_modify TreeNode.parent ?_ n k
  exact fun _ => rfl

@[simp] theorem parent?_setChildren (ns : List NodeId) :
    (t.setChildren n ns).parent? k = t.parent? k := by
  refine view_modify TreeNode.parent ?_ n k
  exact fun _ => rfl

@[simp] theorem children_setInstr (instr : Instr) :
    (t.setInstr n instr).children k = t.children k := by
  refine view_modify TreeNode.children ?_ n k
  exact fun _ => rfl

@[simp] theorem children_setTy (ty : ValueType) : (t.setTy n ty).children k = t.children k := by
  refine view_modify TreeNode.children ?_ n k
  exact fun _ => rfl

@[simp] theorem children_setParent (p : Option NodeId) :
    (t.setParent n p).children k = t.children k := by
  refine view_modify TreeNode.children ?_ n k
  exact fun _ => rfl

end

/- What a change of one node makes of it. -/
theorem view_modify_self {α : Type} (view : TreeNode → α) (hIn : n.index < t.size) (k : NodeId)
    (f : TreeNode → TreeNode) : view ((t.modify n f).node k)
      = if k = n then view (f (t.node n)) else view (t.node k) := by
  split
  · rename_i hEq
    rw [hEq, node_modify_self hIn]
  · rename_i hNe
    rw [node_modify_of_ne hNe]

theorem parent?_setParent (hN : n.index < t.size) (p : Option NodeId) (k : NodeId) :
    (t.setParent n p).parent? k = if k = n then p else t.parent? k :=
  view_modify_self TreeNode.parent hN k _

theorem children_setChildren (hN : n.index < t.size) (ns : List NodeId) (k : NodeId) :
    (t.setChildren n ns).children k = if k = n then ns else t.children k :=
  view_modify_self TreeNode.children hN k _

/- Nodes that forget their parents. -/
theorem parent?_forgetParents (hIn : ∀ c ∈ ns, c.index < t.size) :
    (ns.foldl (fun t c => t.setParent c none) t).parent? k
      = if k ∈ ns then none else t.parent? k := by
  induction ns generalizing t with
  | nil => simp
  | cons c ns ih =>
    rw [forall_mem_cons] at hIn
    rw [foldl_cons, ih (by simpa using hIn.2), parent?_setParent hIn.1]
    by_cases hRest : k ∈ ns <;> simp [hRest]

theorem children_forgetParents (ns : List NodeId) :
    (ns.foldl (fun t c => t.setParent c none) t).children k = t.children k := by
  induction ns generalizing t with
  | nil => rfl
  | cons c ns ih => rw [foldl_cons, ih, children_setParent]

theorem index_lt_of_isParent (hLink : t.IsParent p n) : n.index < t.size := by
  by_contra hOut
  rw [IsParent, parent?, node_of_size_le (by omega)] at hLink
  cases hLink

theorem index_lt_of_mem_children (hMem : n ∈ t.children p) : p.index < t.size := by
  by_contra hOut
  rw [children, node_of_size_le (by omega)] at hMem
  cases hMem

namespace Forest

variable (hForest : t.Forest)
include hForest

/- No way down a forest comes back. -/
theorem noReturn (n : NodeId) : ∀ c ∈ t.children n, ¬ t.Reaches c n := by
  induction hForest.ends n with
  | intro n _ ih =>
    intro c hChild hReach
    cases hReach with
    | self => exact ih n ((hForest.mem_children n n).mp hChild) n hChild .self
    | @child q _ hReach hLast =>
      exact ih q ((hForest.mem_children q n).mp hLast) n hLast (.head hChild hReach)

/- Only nodes of the tree have parents. -/
theorem loopless (hTop : n.index < t.size) : t.Loopless n := by
  refine ⟨fun k hReach => ?_, fun k _ => hForest.noReturn k⟩
  cases hReach with
  | self => exact hTop
  | child _ hChild => exact index_lt_of_isParent ((hForest.mem_children _ k).mp hChild)

/- What a node of a forest reaches is a tree. -/
theorem shaped (hTop : n.index < t.size) : t.Shaped n :=
  ⟨hForest.loopless hTop, fun k _ => hForest.nodup k,
    fun k _ c hChild => (hForest.mem_children k c).mp hChild⟩

/- No node is its own parent. -/
theorem parent_ne (hLink : t.IsParent p n) : p ≠ n := by
  rintro rfl
  exact hForest.noReturn p p ((hForest.mem_children p p).mpr hLink) .self

theorem parent_index_lt (hLink : t.IsParent p n) : p.index < t.size :=
  index_lt_of_mem_children ((hForest.mem_children p n).mpr hLink)

/- Only the parent of a node has it among its children. -/
theorem filter_children (hNot : ¬ t.IsParent p n) :
    (t.children p).filter (¬ · = n) = t.children p := by
  rw [filter_eq_self]
  intro c hMem
  simp only [decide_not, Bool.not_eq_true', decide_eq_false_iff_not]
  rintro rfl
  exact hNot ((hForest.mem_children _ _).mp hMem)

/- Links after a node was taken off its parent. -/
theorem links_detach (n : NodeId) :
    (∀ k, (t.detach n).parent? k = if k = n then none else t.parent? k)
      ∧ ∀ k, (t.detach n).children k = (t.children k).filter (¬ · = n) := by
  rcases hParent : t.parent? n with _ | p
  · have hSame : t.detach n = t := by
      simp only [detach, hParent]
    rw [hSame]
    constructor
    · intro k
      split
      · rename_i hEq
        rw [hEq, hParent]
      · rfl
    · exact fun k => (hForest.filter_children (by simp [IsParent, hParent])).symm
  · have hP : p.index < (t.setParent n none).size := by
      simpa using hForest.parent_index_lt hParent
    simp only [Tree.detach, hParent, parent?_setChildren, children_setParent,
      parent?_setParent (index_lt_of_isParent hParent), children_setChildren hP]
    refine ⟨fun _ => trivial, fun k => ?_⟩
    split
    · rename_i hEq
      rw [hEq]
    · rename_i hNe
      refine (hForest.filter_children fun hLink => hNe ?_).symm
      exact Option.some.inj (hLink.symm.trans hParent)

theorem detach (n : NodeId) : (t.detach n).Forest :=
  hForest.cut (· = n) (hForest.links_detach n).1 (hForest.links_detach n).2

/- A node without a parent hung below another one. -/
theorem setLinks (hN : n.index < t.size) (hP : p.index < t.size) (hLoose : t.parent? n = none)
    (hRoot : n ≠ root) (hApart : ¬ t.Reaches n p) (hPerm : ns.Perm (n :: t.children p)) :
    ((t.setParent n (some p)).setChildren p ns).Forest := by
  have hChildren := children_setChildren (t := t.setParent n (some p)) (by simpa using hP) ns
  simp only [children_setParent] at hChildren
  refine hForest.hang hLoose hRoot hApart (fun k => ?_) ?_ fun k hNe => ?_
  · rw [parent?_setChildren, parent?_setParent hN]
  · rwa [hChildren, if_pos rfl]
  · rw [hChildren, if_neg hNe]

theorem add (hP : p.index < t.size) (instr : Instr) (ty : ValueType) :
    (t.add p instr ty).2.Forest := by
  have hNew : (t.create instr ty).2.Forest :=
    hForest.congr (fun _ => parent?_create) fun _ => children_create
  have hNone : (t.create instr ty).2.children ⟨t.size⟩ = [] := by
    rw [children, node_create_new]
    rfl
  refine hNew.setLinks (n := ⟨t.size⟩) ?_ ?_ ?_ ?_ ?_ ?_
  · simp
  · rw [size_create]
    omega
  · rw [parent?, node_create_new]
    rfl
  · intro hEq
    have hZero : t.size = 0 := congrArg NodeId.index hEq
    omega
  · intro hReach
    rcases hReach.cases_head with rfl | ⟨c, hMem, _⟩
    · exact Nat.lt_irrefl _ hP
    · rw [hNone] at hMem
      cases hMem
  · exact perm_append_singleton _ _

/- What a node reaches while it is off its parent. -/
theorem reaches_of_detach (hReach : (t.detach n).Reaches n k) : t.Reaches n k := by
  induction hReach with
  | self => exact .self
  | child _ hChild ih =>
    rw [(hForest.links_detach n).2] at hChild
    exact .child ih (mem_of_mem_filter hChild)

/- A node moved to either end of another's children. -/
theorem move (hMovable : Edit.Movable t n p) (hPerm : ns.Perm (n :: (t.detach n).children p)) :
    (((t.detach n).setParent n (some p)).setChildren p ns).Forest := by
  have hSize : (t.detach n).size = t.size := by
    unfold Tree.detach
    split
    · rfl
    · simp
  refine (hForest.detach n).setLinks ?_ ?_ ?_ hMovable.notRoot ?_ hPerm
  · rw [hSize]
    exact hMovable.isIn
  · rw [hSize]
    exact hMovable.parentIsIn
  · rw [(hForest.links_detach n).1, if_pos rfl]
  · exact fun hReach => hMovable.apart (hForest.reaches_of_detach hReach)

theorem reparent (hMovable : Edit.Movable t n p) : (t.reparent n p).Forest := by
  unfold Tree.reparent
  split
  · exact hForest
  · exact hForest.move hMovable (perm_append_singleton _ _)

theorem prependChild (hMovable : Edit.Movable t n p) : (t.prependChild p n).Forest :=
  hForest.move hMovable (.refl _)

/- All children of a node leave it. -/
theorem clearChildren (hN : n.index < t.size) : (t.clearChildren n).Forest := by
  have hSelf : ∀ k, k ∈ t.children n → k ≠ n := by
    intro k hMem
    rw [hForest.mem_children] at hMem
    exact (hForest.parent_ne hMem).symm
  refine hForest.cut (· ∈ t.children n) ?_ ?_
  · intro k
    unfold Tree.clearChildren
    rw [parent?_forgetParents]
    · split
      · rfl
      · exact parent?_setChildren n k []
    · intro c hMem
      rw [size_setChildren]
      rw [hForest.mem_children] at hMem
      exact index_lt_of_isParent hMem
  · intro k
    unfold Tree.clearChildren
    rw [children_forgetParents, children_setChildren hN]
    split
    · rename_i hEq
      rw [hEq, filter_eq_nil_iff.mpr fun c hMem => by simp [hMem]]
    · rename_i hNe
      rw [eq_comm, filter_eq_self]
      intro c hMem
      rw [hForest.mem_children] at hMem
      simp only [hForest.mem_children, decide_not, Bool.not_eq_true', decide_eq_false_iff_not]
      intro hOther
      rw [IsParent, hMem] at hOther
      cases hOther
      exact hNe rfl

end Forest

-- Nodes Above Others

theorem map_replace_of_notMem (hNot : old ∉ ns) :
    (ns.map fun c => if c = old then new else c) = ns := by
  refine (map_congr_left fun c hMem => if_neg ?_).trans (map_id ns)
  rintro rfl
  exact hNot hMem

/- A list of children in which a new node replaces another. -/
theorem replaceFirst_eq_map (hNodup : ns.Nodup) :
    replaceFirst old new ns = ns.map fun c => if c = old then new else c := by
  induction ns with
  | nil => rfl
  | cons k ns ih =>
    rw [nodup_cons] at hNodup
    by_cases hEq : k = old
    · subst hEq
      simp [replaceFirst, map_replace_of_notMem hNodup.1]
    · simp [replaceFirst, hEq, ih hNodup.2]

theorem mem_map_replace_iff (hNodup : ns.Nodup) (hNew : new ∉ ns) (c : NodeId) :
    (ns.map fun c => if c = old then new else c).Nodup
      ∧ ((c ∈ ns.map fun c => if c = old then new else c)
        ↔ c = new ∧ old ∈ ns ∨ c ≠ old ∧ c ∈ ns) := by
  rw [nodup_map_iff_inj_on hNodup, mem_map]
  constructor
  · intro a hA b hB hEq
    split at hEq <;> split at hEq <;> simp_all
  · grind

/- The links of a tree that has one more node than another, between a node and its parent. -/
structure Between (t t' : Tree) (n : NodeId) : Prop where
  size_eq : t'.size = t.size + 1
  parent : ∀ k, t'.parent? k = if k = n then some ⟨t.size⟩
      else if k = ⟨t.size⟩ then t.parent? n else t.parent? k
  children : ∀ k, t'.children k = if k = ⟨t.size⟩ then [n]
      else (t.children k).map fun c => if c = n then ⟨t.size⟩ else c

variable (hForest : t.Forest) (hN : n.index < t.size)
include hForest hN

/- A node that is put above another one, and all other nodes. -/
theorem node_insertAbove (instr : Instr) (ty : ValueType) :
    let t' := (t.insertAbove n instr ty).2
    t'.size = t.size + 1 ∧ t'.node ⟨t.size⟩ = { t.newNode instr ty with
            span := t.span n
            parent := t.parent? n
            children := [n] }
      ∧ t'.node n = { t.node n with parent := some ⟨t.size⟩ }
      ∧ ∀ k, k ≠ n → k ≠ ⟨t.size⟩ → t'.node k = { t.node k with
            children := (t.children k).map fun c => if c = n then ⟨t.size⟩ else c } := by
  have hKeep : ∀ k, t.parent? n ≠ some k → { t.node k with
        children := (t.children k).map fun c => if c = n then ⟨t.size⟩ else c } = t.node k := by
    intro k hNot
    rw [map_replace_of_notMem fun hMem => hNot ((hForest.mem_children k n).mp hMem)]
    rfl
  cases hParent : t.parent? n with
  | none =>
    have hNew := ne_of_index_lt hN
    simp only [insertAbove, hParent, create_fst, setChildren, setParent, setSpan]
    refine ⟨by simp, ?_, ?_, fun k hKN hKNew => ?_⟩
    · simp [node_modify, node_create, hNew.symm, newNode]
    · simp [node_modify, node_create, hNew, Nat.lt_succ_of_lt hN]
    · rw [hKeep k (by simp [hParent]), node_modify_of_ne hKNew, node_modify_of_ne hKN,
        node_modify_of_ne hKNew, node_create, if_neg hKNew]
  | some p =>
    rcases nodes_insertAbove (hForest.parent_index_lt hParent) hN
      (hForest.parent_ne hParent) hParent instr ty with
      ⟨hSize, hAbove, hLink, hSelf, hOther⟩
    refine ⟨hSize, hAbove, hSelf, fun k hKN hKNew => ?_⟩
    by_cases hKP : k = p
    · rw [hKP, hLink, replaceFirst_eq_map (hForest.nodup p)]
    rw [hKeep k (by simp [hParent, Ne.symm hKP])]
    by_cases hIn : k.index < t.size
    · exact hOther k hIn hKP hKN
    · have hNe : k.index ≠ t.size := fun hEq => hKNew (congrArg NodeId.mk hEq)
      rw [node_of_size_le (by omega), node_of_size_le (by omega)]

theorem between_insertAbove (instr : Instr) (ty : ValueType) :
    Between t (t.insertAbove n instr ty).2 n := by
  rcases node_insertAbove hForest hN instr ty with ⟨hSize, hAbove, hSelf, hOthers⟩
  refine ⟨hSize, ?_, ?_⟩
  · intro k
    split
    · rename_i hEq
      rw [hEq, parent?, hSelf]
    split
    · rename_i hEq
      rw [hEq, parent?, hAbove]
    · rename_i hKN hKNew
      rw [parent?, hOthers k hKN hKNew, parent?]
  · intro k
    split
    · rename_i hEq
      rw [hEq, children, hAbove]
    rename_i hKNew
    by_cases hKN : k = n
    · have hLoop : n ∉ t.children n := fun hMem =>
        hForest.parent_ne ((hForest.mem_children n n).mp hMem) rfl
      rw [hKN, children, hSelf, map_replace_of_notMem hLoop, children]
    · rw [children, hOthers k hKN hKNew]

/-
  The ways up through the node get one step longer, and the new
  node has those of the old parent.
-/
theorem Forest.insertAbove (hRoot : n ≠ root)
    (instr : Instr) (ty : ValueType) : (t.insertAbove n instr ty).2.Forest := by
  rcases between_insertAbove hForest hN instr ty with ⟨_, hParent, hChildren⟩
  have hNew := (ne_of_index_lt hN).symm
  have hLoose : ∀ q, ¬ t.IsParent q ⟨t.size⟩ := fun q hLink =>
    Nat.lt_irrefl _ (index_lt_of_isParent hLink)
  have hFresh : ∀ q, ⟨t.size⟩ ∉ t.children q := fun q hMem =>
    hLoose q ((hForest.mem_children q _).mp hMem)
  have hSize : (⟨t.size⟩ : NodeId) ≠ root := by
    intro hEq
    have hZero : t.size = 0 := congrArg NodeId.index hEq
    omega
  have hNot : ∀ q c, t.IsParent q c → q ≠ ⟨t.size⟩ := by
    rintro _ c hLink rfl
    exact Nat.lt_irrefl _ (hForest.parent_index_lt hLink)
  have hOld : ∀ k, k ≠ ⟨t.size⟩ → Acc (t.insertAbove n instr ty).2.IsParent k := by
    intro k
    induction hForest.ends k with
    | intro k _ ih =>
      intro hKNew
      refine .intro k fun q hLink => ?_
      rw [IsParent, hParent] at hLink
      split at hLink
      · rename_i hEq
        cases hLink
        refine .intro _ fun r hLink => ?_
        rw [IsParent, hParent, if_neg hNew, if_pos rfl, ← hEq] at hLink
        exact ih r hLink (hNot r k hLink)
      · exact ih q hLink (hNot q k hLink)
  refine ⟨?_, ?_, ?_, ?_⟩
  · intro q c
    rw [IsParent, hParent, hChildren]
    by_cases hQ : q = ⟨t.size⟩
    · have hOther : c ≠ n → t.parent? c ≠ some q := fun _ hLink =>
        hNot q c hLink hQ
      have hSelf : t.parent? n ≠ some q := fun hLink => hNot q n hLink hQ
      rw [if_pos hQ, mem_singleton]
      split
      · simp_all
      · split
        · simp_all
        · simp_all
    · rw [if_neg hQ, (mem_map_replace_iff (hForest.nodup q) (hFresh q) c).2,
        hForest.mem_children, hForest.mem_children]
      split
      · rename_i hC
        simp [hC, hNew.symm, Ne.symm hQ]
      rename_i hC
      split
      · rename_i hCNew
        have hNone : t.parent? ⟨t.size⟩ ≠ some q := hLoose q
        simp [hCNew, IsParent, hNone]
      · rename_i hCNew
        simp [hC, hCNew, IsParent]
  · intro q
    rw [hChildren]
    split
    · exact nodup_singleton n
    · exact (mem_map_replace_iff (hForest.nodup q) (hFresh q) n).1
  · intro k
    by_cases hKNew : k = ⟨t.size⟩
    · refine .intro k fun q hLink => ?_
      rw [IsParent, hParent, hKNew, if_neg hNew, if_pos rfl] at hLink
      exact hOld q (hNot q n hLink)
    · exact hOld k hKNew
  · rw [hParent, if_neg hRoot.symm, if_neg hSize.symm]
    exact hForest.onTop

end Tree

-- Runs Of Edits

namespace Edit

/- Every edit that is allowed keeps a forest a forest. -/
theorem forest (hForest : t.Forest) {e : Edit} (hAllowed : e.Allowed t) : (e.apply t).Forest := by
  cases e with
  | create instr ty =>
    exact hForest.congr (fun _ => Tree.parent?_create) fun _ => Tree.children_create
  | add parent instr ty => exact hForest.add hAllowed instr ty
  | setInstr n instr =>
    exact hForest.congr (fun k => Tree.parent?_setInstr n k instr)
      fun k => Tree.children_setInstr n k instr
  | setTy n ty =>
    exact hForest.congr (fun k => Tree.parent?_setTy n k ty) fun k => Tree.children_setTy n k ty
  | detach n => exact hForest.detach n
  | clearChildren n => exact hForest.clearChildren hAllowed
  | reparent n parent => exact hForest.reparent hAllowed
  | prependChild parent n => exact hForest.prependChild hAllowed
  | insertAbove n instr ty => exact hForest.insertAbove hAllowed.1 hAllowed.2 instr ty

theorem numbered (hLabels : t.Marked False) (e : Edit) : (e.apply t).Marked False := by
  cases e with
  | create instr ty => exact hLabels.create instr ty
  | add parent instr ty => exact hLabels.add parent instr ty
  | setInstr | setTy => exact hLabels.modify (fun _ => rfl) False.elim
  | detach n => exact hLabels.detach n
  | clearChildren n => exact hLabels.clearChildren n
  | reparent n parent =>
    simp only [apply, Tree.reparent]
    split
    · exact hLabels
    · exact (hLabels.detach n).attachLast _ _
  | prependChild parent n => exact hLabels.prependChild parent n
  | insertAbove n instr ty => exact hLabels.insertAbove n instr ty

end Edit

namespace Tree

theorem Built.forest (hBuilt : t.Built) : t.Forest := by
  induction hBuilt with
  | empty => exact .empty
  | edit _ e hAllowed ih => exact e.forest ih hAllowed

theorem Built.numbered (hBuilt : t.Built) : t.Marked False := by
  induction hBuilt with
  | empty => exact .empty
  | edit _ e _ ih => exact e.numbered ih

/- Where ways up end, a number of steps leads to their end. -/
theorem exists_steps (hEnds : Acc t.IsParent n) :
    ∃ steps, (·.bind t.parent?)^[steps] (some n) = none := by
  induction hEnds with
  | intro n _ ih =>
    rcases hParent : t.parent? n with _ | p
    · exact ⟨1, hParent⟩
    rcases ih p hParent with ⟨steps, hSteps⟩
    refine ⟨steps + 1, ?_⟩
    rw [Function.iterate_succ_apply, Option.bind_some, hParent]
    exact hSteps

/-
  The nodes of a tree form a forest, whatever edits made it.  A node is listed once by its
  parent and by no other node, the steps from parent to parent end, the root has no parent, and
  no two nodes carry one label.  Blocks and loops draw a label when they are created.
-/
theorem built_forest (hBuilt : t.Built) :
    (∀ p c, (t.children p).count c = if t.parent? c = some p then 1 else 0)
      ∧ (∀ n, ∃ steps, (·.bind t.parent?)^[steps] (some n) = none)
      ∧ t.parent? root = none
      ∧ (∀ n k l, t.label? n = some l → t.label? k = some l → n = k)
      ∧ ∀ instr ty, ((t.create instr ty).2.label? (t.create instr ty).1).isSome
          = instr.takesLabel := by
  have hForest := hBuilt.forest
  refine ⟨?_, fun n => exists_steps (hForest.ends n), hForest.onTop, hBuilt.numbered.distinct, ?_⟩
  · intro p c
    split
    · rename_i hLink
      exact count_eq_one_of_mem (hForest.nodup p) ((hForest.mem_children p c).mpr hLink)
    · rename_i hNot
      rw [count_eq_zero, hForest.mem_children]
      exact hNot
  · intro instr ty
    rw [label?, create_fst, node_create_new, newNode]
    cases instr.takesLabel <;> rfl

/- A node whose children have none reaches only these. -/
theorem not_reaches (ns : List NodeId) (hNe : n ≠ k) (hChildren : t.children n = ns)
    (hBelow : ∀ c ∈ ns, c ≠ k ∧ t.children c = []) : ¬ t.Reaches n k := by
  intro hReach
  rcases hReach.cases_head with hEq | ⟨c, hChild, hRest⟩
  · exact hNe hEq
  rw [hChildren] at hChild
  rcases hRest.cases_head with hEq | ⟨d, hDeep, _⟩
  · exact (hBelow c hChild).1 hEq
  · rw [(hBelow c hChild).2] at hDeep
    cases hDeep

/-
  A loop that is moved into a block, and then a dropped number
  that is moved from the block into the loop.
-/
def movedDrop : List Edit :=
  [.add root .block .none, .add ⟨1⟩ (.const 5) .i32, .insertAbove ⟨2⟩ .drop .none, .create .loop
    .none, .reparent ⟨4⟩ ⟨1⟩, .prependChild ⟨4⟩ ⟨3⟩]

theorem movedDrop_forest : let t := movedDrop.foldl Edit.apply empty
    t.Built ∧ t.children ⟨1⟩ = [⟨4⟩] ∧ t.parent? ⟨3⟩ = some ⟨4⟩ ∧ (t.children ⟨4⟩).count ⟨3⟩ = 1
      ∧ (∃ steps, (·.bind t.parent?)^[steps] (some ⟨2⟩) = none)
      ∧ t.label? ⟨1⟩ ≠ t.label? ⟨4⟩ := by
  intro t
  have hBuilt : t.Built := by
    simp only [t, movedDrop, foldl_cons, foldl_nil]
    refine .edit (.edit (.edit (.edit (.edit (.edit .empty _ ?_) _ ?_) _ ?_) _ ?_) _ ?_) _ ?_
    · exact Nat.zero_lt_one
    · exact Nat.one_lt_two
    · exact ⟨by decide, by decide⟩
    · trivial
    · exact ⟨by decide, by decide, by decide, not_reaches [] (by decide) rfl (forall_mem_nil _)⟩
    · exact ⟨by decide, by decide, by decide, not_reaches [⟨2⟩] (by decide) rfl (by decide)⟩
  rcases built_forest hBuilt with ⟨hLinks, hEnds, _, hLabels, _⟩
  refine ⟨hBuilt, rfl, rfl, ?_, hEnds ⟨2⟩, fun hEq => ?_⟩
  · rw [hLinks]
    exact if_pos rfl
  · have hSame := hLabels ⟨1⟩ ⟨4⟩ 1 (hEq.trans rfl) rfl
    cases hSame

end Tree

end Code

end RubyWat
