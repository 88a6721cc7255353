import RubyWat.Proofs.Forest

/-
  Nodes that are put above others.

  In a forest the walk down from a node and the way up from it are recursive functions without a
  bound, since no way is as long as there are nodes.

  Main statement: a new node above another one comes right before it in every listing and right
  after it on every way up, and nothing else changes.  The nodes below a node are as many as
  those that have it on their way up (`insertAbove_splices`).
-/

-- Walks Without A Bound

namespace RubyWat.Code.Tree

open List Option

variable {t : Tree} {n c k top : NodeId} {fuel : Nat}

namespace Forest

variable (hForest : t.Forest)
include hForest

theorem child_index_lt (hChild : c ∈ t.children n) : c.index < t.size :=
  index_lt_of_isParent ((hForest.mem_children n c).mp hChild)

/- The ways down from any node end. -/
theorem acc_children (hIn : n.index < t.size) : Acc (fun c n => c ∈ t.children n) n := by
  have hAcc : ∀ fuel n, t.Shallow fuel n → Acc (fun c n => c ∈ t.children n) n := by
    intro fuel
    induction fuel with
    | zero => exact fun n hShallow => absurd (hShallow [] n .here) (Nat.not_lt_zero _)
    | succ fuel ih => exact fun n hShallow => .intro n fun c hChild => ih c (hShallow.child hChild)
  exact hAcc _ n (hForest.loopless hIn).shallow

-- Ways Up

/- Every node is below one that has no parent. -/
theorem exists_way (n : NodeId) : ∃ top above, t.Way top above n ∧ t.parent? top = none := by
  induction hForest.ends n with
  | intro n _ ih =>
    cases hParent : t.parent? n with
    | none => exact ⟨n, [], .here, hParent⟩
    | some p =>
      rcases ih p hParent with ⟨top, above, hWay, hTop⟩
      exact ⟨top, p :: above, .down hWay ((hForest.mem_children p n).mpr hParent), hTop⟩

theorem upward_eq (hWay : t.Way top above n) (hTop : t.parent? top = none)
    (hLe : above.length ≤ fuel) : t.upward fuel (t.parent? n) = above := by
  induction hWay generalizing fuel with
  | here =>
    rw [hTop]
    cases fuel <;> rfl
  | @down above n c _ hChild ih =>
    rw [(hForest.mem_children n c).mp hChild]
    cases fuel with
    | zero => simp at hLe
    | succ fuel =>
      rw [upward, ih (by simpa using hLe)]

/- The ancestors of a node are its parent and those of the parent. -/
theorem ancestors_eq (n : NodeId) :
    t.ancestors n = ((t.parent? n).map t.lineage).getD [] := by
  cases hParent : t.parent? n with
  | none =>
    rw [ancestors, hParent]
    cases t.size <;> rfl
  | some p =>
    rcases hForest.exists_way p with ⟨top, above, hWay, hTop⟩
    have hIn : top.index < t.size := by
      rcases hWay.reaches.1.cases_head with rfl | ⟨c, hChild, -⟩
      · exact hForest.parent_index_lt hParent
      · exact index_lt_of_mem_children hChild
    have hLonger := hWay.down ((hForest.mem_children p n).mpr hParent)
    have hShort := hLonger.length_lt (hForest.loopless hIn)
    rw [ancestors, hForest.upward_eq hLonger hTop (Nat.le_of_lt hShort), map_some,
      getD_some, lineage, ancestors, hForest.upward_eq hWay hTop (by simp at hShort; omega)]

/- The way up from a node passes those that reach it. -/
theorem mem_lineage : k ∈ t.lineage n ↔ t.Reaches k n := by
  induction hForest.ends n with
  | intro n _ ih =>
    rw [lineage, mem_cons, hForest.ancestors_eq]
    constructor
    · rintro (rfl | hMem)
      · exact .self
      cases hParent : t.parent? n with
      | none => simp [hParent] at hMem
      | some p =>
        rw [hParent] at hMem
        exact .child ((ih p hParent).mp hMem) ((hForest.mem_children p n).mpr hParent)
    · intro hReach
      cases hReach with
      | self => exact .inl rfl
      | @child p _ hReach hChild =>
        have hParent : t.parent? n = some p := (hForest.mem_children p n).mp hChild
        rw [hParent]
        exact .inr ((ih p hParent).mpr hReach)

theorem isWithin_iff : t.isWithin n k = true ↔ t.Reaches k n := by
  rw [isWithin, contains_iff_mem, hForest.mem_lineage]

-- Nodes Below A Node

/- A stack is used up after as many steps as it leads to nodes. -/
theorem countFrom_eq (stack : List NodeId) (hIn : ∀ n ∈ stack, n.index < t.size)
    (hFuel : (stack.flatMap t.preorder).length ≤ fuel) :
    t.countFrom fuel stack = (stack.flatMap t.preorder).length := by
  induction fuel generalizing stack with
  | zero => rw [countFrom, Nat.le_zero.mp hFuel]
  | succ fuel ih =>
    cases stack with
    | nil => rfl
    | cons n stack =>
      have hReverse : ((t.children n).reverse.flatMap t.preorder).length
            = ((t.children n).flatMap t.preorder).length := by
        simp only [length_flatMap, map_reverse, sum_reverse]
      rw [forall_mem_cons] at hIn
      rw [flatMap_cons, (hForest.loopless hIn.1).preorder_eq] at hFuel ⊢
      rw [countFrom, ih]
      · simp only [flatMap_append, length_append, length_cons, hReverse]
        omega
      · intro c hMem
        rcases mem_append.mp hMem with hChild | hMem
        · exact hForest.child_index_lt (mem_reverse.mp hChild)
        · exact hIn.2 c hMem
      · simp only [flatMap_append, length_append, length_cons, hReverse] at hFuel ⊢
        omega

theorem subtreeLen_eq (hIn : n.index < t.size) : t.subtreeLen n = (t.preorder n).length := by
  have hFits := (hForest.shaped hIn).length_preorder_le
  rw [subtreeLen, hForest.countFrom_eq [n] (by simpa using hIn) (by simpa using hFits)]
  simp

/- The nodes of a subtree are those that lie in it. -/
theorem subtreeLen_eq_countP (hIn : n.index < t.size) :
    t.subtreeLen n = ((range t.size).map NodeId.mk).countP (t.isWithin · n) := by
  rw [hForest.subtreeLen_eq hIn, countP_eq_length_filter]
  refine Perm.length_eq ((perm_ext_iff_of_nodup (hForest.shaped hIn).preorder_nodup ?_).mpr ?_)
  · refine (nodup_range.map fun a b hEq => ?_).filter _
    exact congrArg NodeId.index hEq
  · intro k
    have hLoopless := hForest.loopless hIn
    rw [hLoopless.mem_preorder, mem_filter, hForest.isWithin_iff]
    refine ⟨fun hReach => ⟨?_, hReach⟩, And.right⟩
    exact mem_map.mpr ⟨k.index, mem_range.mpr (hLoopless.isIn k hReach), rfl⟩

end Forest

-- A Node Between Another And Its Parent

/- Nodes that stay as they are. -/
theorem flatMap_of_notMem {ns : List NodeId} (hNot : n ∉ ns) (spliced : List NodeId) :
    ns.flatMap (fun k => if k = n then spliced else [k]) = ns := by
  induction ns with
  | nil => rfl
  | cons k ns ih =>
    rw [mem_cons, not_or] at hNot
    rw [flatMap_cons, if_neg (Ne.symm hNot.1), ih hNot.2]
    rfl

namespace Between

variable {t' : Tree} (hForest : t.Forest) (hForest' : t'.Forest) (hBetween : Between t t' n)
include hForest hForest' hBetween

omit hForest in
theorem preorder_new : t'.preorder ⟨t.size⟩ = ⟨t.size⟩ :: t'.preorder n := by
  rw [(hForest'.loopless (by simp [hBetween.size_eq])).preorder_eq, hBetween.children, if_pos rfl]
  simp

/- Below an old node the new one is listed right before the one that it was put above. -/
theorem preorder_eq (hK : k.index < t.size) :
    t'.preorder k = k :: ((t.children k).flatMap t.preorder).flatMap
        fun j => if j = n then [⟨t.size⟩, n] else [j] := by
  induction hForest.acc_children hK with
  | intro k _ ih =>
    rw [(hForest'.loopless (by rw [hBetween.size_eq]; omega)).preorder_eq, hBetween.children,
      if_neg (ne_of_index_lt hK), flatMap_map, flatMap_assoc]
    congr 1
    refine flatMap_congr fun c hChild => ?_
    have hC := hForest.child_index_lt hChild
    rw [(hForest.loopless hC).preorder_eq, flatMap_cons]
    by_cases hEq : c = n
    · subst hEq
      rw [if_pos rfl, if_pos rfl, preorder_new hForest' hBetween, ih c hChild hC]
      rfl
    · rw [if_neg hEq, if_neg hEq, ih c hChild hC]
      rfl

/- Above an old node the new one comes right after the one that it was put above. -/
theorem lineage_eq (hK : k.index < t.size) :
    t'.lineage k = (t.lineage k).flatMap fun j => if j = n then [n, ⟨t.size⟩] else [j] := by
  induction hForest.ends k with
  | intro k _ ih =>
    have hAbove : ((t.parent? k).map t'.lineage).getD []
          = (t.ancestors k).flatMap fun j => if j = n then [n, ⟨t.size⟩] else [j] := by
      rw [hForest.ancestors_eq]
      cases hParent : t.parent? k with
      | none => rfl
      | some p => exact ih p hParent (hForest.parent_index_lt hParent)
    rw [lineage, lineage, flatMap_cons, ← hAbove, hForest'.ancestors_eq, hBetween.parent]
    by_cases hEq : k = n
    · subst hEq
      rw [if_pos rfl, if_pos rfl, map_some, getD_some, lineage,
        hForest'.ancestors_eq, hBetween.parent, if_neg (ne_of_index_lt hK).symm, if_pos rfl]
      rfl
    · rw [if_neg hEq, if_neg hEq, if_neg (ne_of_index_lt hK)]
      rfl

end Between

/-
  A tree after a new node was put above another one.  In every listing from above, the new node
  comes right before the other one.  On every way up, it comes right after it.  Other nodes keep
  what they hold and the order of their children.
-/
structure Spliced (t t' : Tree) (n new : NodeId) : Prop where
  listing : ∀ k, k.index < t.size → t'.preorder k
      = k :: (t.preorder k).tail.flatMap fun j => if j = n then [new, n] else [j]
  listing_new : t'.preorder new = new :: t.preorder n
  lineage : ∀ k, k.index < t.size → t'.lineage k
      = (t.lineage k).flatMap fun j => if j = n then [n, new] else [j]
  ancestors_new : t'.ancestors new = t.ancestors n
  kept : ∀ k, k.index < t.size → t'.instr k = t.instr k ∧ t'.ty k = t.ty k
      ∧ t'.span k = t.span k ∧ t'.label? k = t.label? k
      ∧ t'.children k = (t.children k).map fun c => if c = n then new else c

/-
  Putting a new node above another one splices it in.  The size of a subtree is the number of
  nodes that have its top on their way up.
-/
theorem insertAbove_splices (hForest : t.Forest) (hN : n.index < t.size) (hRoot : n ≠ root)
    (instr : Instr) (ty : ValueType) :
    Spliced t (t.insertAbove n instr ty).2 n (t.insertAbove n instr ty).1
      ∧ ∀ k, k.index < t.size →
          t.subtreeLen k = ((range t.size).map NodeId.mk).countP (t.isWithin · k) := by
  have hForest' := hForest.insertAbove hN hRoot instr ty
  have hBetween := between_insertAbove hForest hN instr ty
  have hNew : (t.insertAbove n instr ty).1 = ⟨t.size⟩ := rfl
  rcases node_insertAbove hForest hN instr ty with ⟨_, _, hSelf, hOthers⟩
  rw [hNew]
  refine ⟨⟨fun k hK => ?_, ?_, fun k => hBetween.lineage_eq hForest hForest', ?_, fun k hK => ?_⟩,
    fun k => hForest.subtreeLen_eq_countP⟩
  · rw [hBetween.preorder_eq hForest hForest' hK, (hForest.loopless hK).preorder_eq, tail_cons]
  · -- The node itself is not listed below its children.
    have hNot : n ∉ (t.children n).flatMap t.preorder := by
      have hNodup := (hForest.shaped hN).preorder_nodup
      rw [(hForest.loopless hN).preorder_eq, nodup_cons] at hNodup
      exact hNodup.1
    rw [hBetween.preorder_new hForest', hBetween.preorder_eq hForest hForest' hN,
      flatMap_of_notMem hNot, ← (hForest.loopless hN).preorder_eq]
  · rw [hForest'.ancestors_eq, hForest.ancestors_eq, hBetween.parent,
      if_neg (ne_of_index_lt hN).symm, if_pos rfl]
    cases hParent : t.parent? n with
    | none => rfl
    | some p =>
      have hNot : n ∉ t.lineage p := by
        rw [hForest.mem_lineage]
        exact hForest.noReturn _ _ ((hForest.mem_children p n).mpr hParent)
      rw [map_some, map_some, hBetween.lineage_eq hForest hForest'
        (hForest.parent_index_lt hParent), flatMap_of_notMem hNot]
  · have hChildren := hBetween.children k
    rw [if_neg (ne_of_index_lt hK)] at hChildren
    by_cases hEq : k = n
    · subst hEq
      simp only [Tree.instr, Tree.ty, span, label?, hSelf, hChildren, and_self]
    · simp only [Tree.instr, Tree.ty, span, label?, hOthers k hEq (ne_of_index_lt hK), hChildren,
        and_self]

/- A number between a block and its last child, which is dropped by a new node. -/
def twoNumbers : List Edit :=
  [.add root .block .none, .add ⟨1⟩ (.const 5) .i32, .add ⟨1⟩ (.const 6) .i32]

theorem droppedNumber_spliced : let t := twoNumbers.foldl Edit.apply empty
    t.Forest ∧ (⟨2⟩ : NodeId).index < t.size ∧ (⟨2⟩ : NodeId) ≠ root
      ∧ Spliced t (t.insertAbove ⟨2⟩ .drop .none).2 ⟨2⟩ ⟨4⟩ ∧ t.preorder root = [⟨0⟩, ⟨1⟩, ⟨2⟩, ⟨3⟩]
      ∧ (t.insertAbove ⟨2⟩ .drop .none).2.preorder root = [⟨0⟩, ⟨1⟩, ⟨4⟩, ⟨2⟩, ⟨3⟩]
      ∧ t.subtreeLen ⟨1⟩ = 3 := by
  intro t
  have hForest : t.Forest := by
    simp only [t, twoNumbers, foldl_cons, foldl_nil]
    refine (Built.edit (.edit (.edit .empty _ ?_) _ ?_) _ ?_).forest
    · exact Nat.zero_lt_one
    · exact Nat.one_lt_two
    · change 1 < 3
      omega
  have hSpliced := insertAbove_splices hForest (n := ⟨2⟩) (by decide) (by decide) .drop .none
  exact ⟨hForest, by decide, by decide, hSpliced.1, by decide, by decide, by decide⟩

end RubyWat.Code.Tree
