import Mathlib.Data.List.Perm.Subperm
import RubyWat.Proofs.StackDiscipline

/-
  Nodes that the root of a finished program reaches.

  Key definitions: `Code.Fragment.Within`, `Code.Tree.Located`, `Code.Tree.Way`, `Code.Tree.Shaped`.

  Main statement: what the root reaches is a tree.  Every node
  has one parent, no way down comes back, and the walk over the
  whole tree passes every node once (`Loopless.mem_preorder`,
  `Shaped.preorder_nodup`).
-/

-- Ways Down

namespace RubyWat

open List

variable {f : Code.Fragment} {n : Code.NodeId} {t : Code.Tree}
variable {m : MethodId} {fuel : Nat}

namespace Code

namespace Tree

variable {a b c : NodeId}

theorem Reaches.trans (hFirst : t.Reaches a b) (hSecond : t.Reaches b c) : t.Reaches a c := by
  induction hSecond with
  | self => exact hFirst
  | child _ hChild ih => exact .child ih hChild

theorem Reaches.head (hChild : c ∈ t.children a) (hReach : t.Reaches c b) : t.Reaches a b :=
  (Reaches.child .self hChild).trans hReach

/- A way down ends at once or starts with a child. -/
theorem Reaches.cases_head (hReach : t.Reaches a b) :
    a = b ∨ ∃ c ∈ t.children a, t.Reaches c b := by
  induction hReach with
  | self => exact .inl rfl
  | @child n c _ hChild ih =>
    rcases ih with rfl | ⟨d, hD, hRest⟩
    · exact .inr ⟨c, hChild, .self⟩
    · exact .inr ⟨d, hD, .child hRest hChild⟩

/- Where all ways down end, none comes back. -/
theorem not_reaches_of_acc (hAcc : Acc (fun c n => c ∈ t.children n) n) :
    ∀ c ∈ t.children n, ¬ t.Reaches c n := by
  induction hAcc with
  | intro n _ ih =>
    intro c hChild hReach
    rcases hReach.cases_head with rfl | ⟨d, hD, hRest⟩
    · exact ih c hChild c hChild .self
    · exact ih c hChild d hD (.child hRest hChild)

end Tree

-- Parts Of Fragments

/- A part of a fragment, which may be all of it. -/
inductive Fragment.Within (f : Fragment) : Fragment → Prop where
  | self : Within f f
  | child {g c : Fragment} (hWithin : Within f g) (hChild : c ∈ g.children) : Within f c

namespace Fragment.Within

variable {g h : Fragment}

theorem trans (hFirst : f.Within g) (hSecond : g.Within h) : f.Within h := by
  induction hSecond with
  | self => exact hFirst
  | child _ hChild ih => exact .child ih hChild

variable (hWithin : f.Within g)
include hWithin

theorem held (hHeld : Held t f) : Held t g := by
  induction hWithin with
  | self => exact hHeld
  | child _ hChild ih => exact ih.child hChild

theorem nodup (hNodup : f.ids.Nodup) : g.ids.Nodup := by
  induction hWithin with
  | self => exact hNodup
  | child _ hChild ih =>
    rw [ids_eq, nodup_cons] at ih
    exact (nodup_flatMap.mp ih.2).1 _ hChild

theorem reaches (hHeld : Held t f) : t.Reaches f.id g.id := by
  induction hWithin with
  | self => exact .self
  | @child g c hUp hChild ih =>
    refine .child ih ?_
    rw [(hUp.held hHeld).children]
    exact mem_map_of_mem hChild

/- A part of the code of a method. -/
theorem neat (hDefined : Defined t m f) : g = f ∨ Neat g := by
  induction hWithin with
  | self => exact .inl rfl
  | @child g c _ hChild ih =>
    rcases ih with rfl | hNeat
    · exact .inr (hDefined.coded.neat.neat c hChild)
    · exact .inr (hNeat.child hChild)

end Fragment.Within

/- What a fragment reaches are its parts. -/
theorem Held.within_of_reaches (hHeld : Held t f) (hReach : t.Reaches f.id n) :
    ∃ g, f.Within g ∧ g.id = n := by
  induction hReach with
  | self => exact ⟨f, .self, rfl⟩
  | child _ hChild ih =>
    rcases ih with ⟨g, hWithin, rfl⟩
    rw [(hWithin.held hHeld).children] at hChild
    rcases mem_map.mp hChild with ⟨c, hC, rfl⟩
    exact ⟨c, .child hWithin hC, rfl⟩

/- There is no way down without end in a fragment. -/
theorem Held.acc (hHeld : Held t f) : Acc (fun c n => c ∈ t.children n) f.id := by
  induction hHeld with
  | intro _ _ _ hChildren _ _ ih =>
    refine .intro _ fun c hChild => ?_
    rw [hChildren] at hChild
    rcases mem_map.mp hChild with ⟨g, hG, rfl⟩
    exact ih g hG

theorem Arranged.acc (hArranged : Arranged t n) : Acc (fun c n => c ∈ t.children n) n := by
  induction hArranged with
  | group _ _ _ ih => exact .intro _ ih
  | function hDefined => exact hDefined.held.acc

-- Places Of Reachable Nodes

namespace Tree

/- Where a node of a finished program is: among the groups, or in the code of a method. -/
inductive Located (t : Tree) : NodeId → Prop where
  | group {n : NodeId} (hAttached : t.Attached n) : Located t n
  | code {m : MethodId} {f g : Fragment} (hDefined : Defined t m f) (hDefines : t.Defines m f.id)
      (hWithin : f.Within g) : Located t g.id

variable {c : NodeId}

theorem Attached.arranged (hArranged : Arranged t Tree.root) (hAttached : t.Attached n) :
    Arranged t n := by
  induction hAttached with
  | root => exact hArranged
  | inner hParent hChild _ ih =>
    have hIs := hParent.isGroup
    cases ih with
    | group _ _ hChildren => exact hChildren _ hChild
    | function hDefined =>
      rw [hDefined.held.instr, hDefined.instr] at hIs
      contradiction

theorem Located.child (hArranged : Arranged t root) (hLocated : t.Located n)
    (hChild : c ∈ t.children n) : t.Located c := by
  cases hLocated with
  | group hAttached =>
    have hIs := hAttached.isGroup
    rcases hAttached.arranged hArranged with ⟨_, _, hChildren⟩ | @⟨m, f, hDefined⟩
    · have hBelow := hChildren c hChild
      cases hBelow with
      | group _ hGroup _ => exact .group (.inner hAttached hChild hGroup)
      | @function m f hDefined =>
        have hInstr : t.instr f.id = .function m := by rw [hDefined.held.instr, hDefined.instr]
        exact .code hDefined ⟨hInstr, n, hAttached, hChild⟩ .self
    · rw [hDefined.held.instr, hDefined.instr] at hIs
      contradiction
  | code hDefined hDefines hWithin =>
    rw [(hWithin.held hDefined.held).children] at hChild
    rcases mem_map.mp hChild with ⟨g, hG, rfl⟩
    exact .code hDefined hDefines (.child hWithin hG)

theorem Reaches.located (hArranged : Arranged t root) (hRoot : (t.instr root).isGroup = true)
    (hReach : t.Reaches root n) : t.Located n := by
  induction hReach with
  | self => exact .group (.root hRoot)
  | child _ hChild ih => exact ih.child hArranged hChild

theorem Attached.reaches (hAttached : t.Attached n) : t.Reaches Tree.root n := by
  induction hAttached with
  | root => exact .self
  | inner _ hChild _ ih => exact .child ih hChild

theorem Defines.reaches (hDefines : t.Defines m n) : t.Reaches root n := by
  rcases hDefines.attached with ⟨q, hAttached, hChild⟩
  exact .child hAttached.reaches hChild

/- A method in the tree is where methods are. -/
theorem Located.defines (hLocated : t.Located n) (hInstr : t.instr n = .function m) :
    t.Defines m n := by
  cases hLocated with
  | group hAttached =>
    have hIs := hAttached.isGroup
    rw [hInstr] at hIs
    contradiction
  | @code k f g hDefined hDefines hWithin =>
    rcases hWithin.neat hDefined with rfl | hNeat
    · rw [hDefines.instr] at hInstr
      cases hInstr
      exact hDefines
    · have hInner := hNeat.tidy.inner
      rw [← (hWithin.held hDefined.held).instr, hInstr] at hInner
      contradiction

-- Trees

/- What a node reaches is there, and no way down comes back. -/
structure Loopless (t : Tree) (top : NodeId) : Prop where
  isIn : ∀ n, t.Reaches top n → n.index < t.size
  noReturn : ∀ n, t.Reaches top n → ∀ c ∈ t.children n, ¬ t.Reaches c n

/- What a node reaches is a tree. -/
structure Shaped (t : Tree) (top : NodeId) : Prop extends Loopless t top where
  nodup : ∀ n, t.Reaches top n → (t.children n).Nodup
  parent : ∀ n, t.Reaches top n → ∀ c ∈ t.children n, t.parent? c = some n

theorem Outlined.shaped (hOutlined : t.Outlined) (hRoot : (t.instr root).isGroup = true)
    (hArranged : Arranged t root) : t.Shaped root := by
  have hLocated : ∀ n, t.Reaches root n → t.Located n :=
    fun n hReach => hReach.located hArranged hRoot
  refine ⟨⟨?_, ?_⟩, ?_, ?_⟩
  · intro n hReach
    cases hLocated n hReach with
    | group hAttached => exact index_lt_of_isGroup hAttached.isGroup
    | code hDefined _ hWithin => exact (hWithin.held hDefined.held).isIn
  · intro n hReach
    refine not_reaches_of_acc ?_
    cases hLocated n hReach with
    | group hAttached => exact (hAttached.arranged hArranged).acc
    | code hDefined _ hWithin => exact (hWithin.held hDefined.held).acc
  · intro n hReach
    cases hLocated n hReach with
    | group hAttached => exact hOutlined.nodup n hAttached
    | code hDefined _ hWithin =>
      have hNodup := hWithin.nodup hDefined.nodup
      rw [Fragment.ids_eq, nodup_cons] at hNodup
      rw [(hWithin.held hDefined.held).children]
      exact Fragment.nodup_map_id hNodup.2
  · intro n hReach c hChild
    cases hLocated n hReach with
    | group hAttached => exact (hOutlined.parent n hAttached c hChild).2
    | code hDefined _ hWithin =>
      have hHeld := hWithin.held hDefined.held
      rw [hHeld.children] at hChild
      rcases mem_map.mp hChild with ⟨g, hG, rfl⟩
      exact hHeld.parent hG

namespace Shaped

variable {a b top : NodeId}

/- Of two ways down to a node, one is part of the other. -/
theorem linear (hShaped : t.Shaped top) (hA : t.Reaches top a) (hB : t.Reaches top b)
    (hFirst : t.Reaches a n) (hSecond : t.Reaches b n) : t.Reaches a b ∨ t.Reaches b a := by
  induction hFirst with
  | self => exact .inr hSecond
  | @child p n hReach hChild ih =>
    cases hSecond with
    | self => exact .inl (.child hReach hChild)
    | @child q _ hOther hChild' =>
      have hSame : p = q := by
        have hUp := hShaped.parent p (hA.trans hReach) n hChild
        rw [hShaped.parent q (hB.trans hOther) n hChild'] at hUp
        exact (Option.some.inj hUp).symm
      subst hSame
      exact ih hOther

/- Different children of a node have nothing in common. -/
theorem disjoint (hShaped : t.Shaped top) (hReach : t.Reaches top n) (hA : a ∈ t.children n)
    (hB : b ∈ t.children n) (hNe : a ≠ b) (hFirst : t.Reaches a q) : ¬ t.Reaches b q := by
  have hApart : ∀ {a b}, a ∈ t.children n → b ∈ t.children n → a ≠ b → ¬ t.Reaches a b := by
    intro a b hA hB hNe hDown
    cases hDown with
    | self => exact hNe rfl
    | @child p _ hPart hChild =>
      have hTop : t.Reaches top p := (hReach.child hA).trans hPart
      have hSame : p = n := by
        have hUp := hShaped.parent p hTop b hChild
        rw [hShaped.parent n hReach b hB] at hUp
        exact (Option.some.inj hUp).symm
      subst hSame
      exact hShaped.noReturn p hReach a hA hPart
  intro hSecond
  rcases hShaped.linear (hReach.child hA) (hReach.child hB) hFirst hSecond with hDown | hDown
  · exact hApart hA hB hNe hDown
  · exact hApart hB hA (Ne.symm hNe) hDown

end Shaped

-- Walks Over The Tree

variable {top : NodeId}

theorem Reaches.of_mem_downward (hMem : n ∈ t.downward fuel top) : t.Reaches top n := by
  induction fuel generalizing top with
  | zero => cases hMem
  | succ fuel ih =>
    rcases mem_cons.mp hMem with rfl | hBelow
    · exact .self
    · rcases mem_flatMap.mp hBelow with ⟨c, hChild, hMem⟩
      exact .head hChild (ih hMem)

theorem mem_downward_child (hMem : n ∈ t.downward fuel top) (hChild : c ∈ t.children n) :
    c ∈ t.downward (fuel + 1) top := by
  induction fuel generalizing top with
  | zero => cases hMem
  | succ fuel ih =>
    rw [downward]
    refine mem_cons_of_mem _ (mem_flatMap.mpr ?_)
    rcases mem_cons.mp hMem with rfl | hBelow
    · exact ⟨c, hChild, (.head _)⟩
    · rcases mem_flatMap.mp hBelow with ⟨d, hD, hMem⟩
      exact ⟨d, hD, ih hMem⟩

theorem length_le_size {way : List NodeId} (hNodup : way.Nodup)
    (hIn : ∀ q ∈ way, q.index < t.size) : way.length ≤ t.size := by
  have hIndexes : (way.map NodeId.index).Nodup := by
    refine hNodup.map fun a b hEq => ?_
    cases a
    cases b
    exact congrArg NodeId.mk hEq
  have hRange : way.map NodeId.index ⊆ range t.size := by
    intro i hI
    rcases mem_map.mp hI with ⟨q, hQ, rfl⟩
    exact mem_range.mpr (hIn q hQ)
  have hLe := (Nodup.subperm hIndexes hRange).length_le
  rwa [length_map, length_range] at hLe

/-
  The nodes that are passed on the way down from one node to another, which are its strict
  ancestors below and including the first, nearest first.
-/
inductive Way (t : Tree) (top : NodeId) : List NodeId → NodeId → Prop where
  | here : Way t top [] top
  | down {above : List NodeId} {n c : NodeId} (hWay : Way t top above n)
      (hChild : c ∈ t.children n) : Way t top (n :: above) c

namespace Way

variable {above : List NodeId}

theorem reaches (hWay : t.Way top above n) : t.Reaches top n ∧ ∀ a ∈ above, t.Reaches a n := by
  induction hWay with
  | here => exact ⟨.self, forall_mem_nil _⟩
  | down _ hChild ih =>
    refine ⟨.child ih.1 hChild, forall_mem_cons.mpr ⟨.child .self hChild, ?_⟩⟩
    exact fun a hMem => .child (ih.2 a hMem) hChild

/- A way passes different nodes of the tree. -/
theorem nodup (hLoopless : t.Loopless top) (hWay : t.Way top above n) :
    (n :: above).Nodup ∧ ∀ a ∈ n :: above, a.index < t.size := by
  induction hWay with
  | here =>
    exact ⟨nodup_singleton _, forall_mem_singleton.mpr (hLoopless.isIn _ .self)⟩
  | @down above n c hWay hChild ih =>
    have hReach := hWay.reaches
    refine ⟨nodup_cons.mpr ⟨fun hBack => ?_, ih.1⟩, forall_mem_cons.mpr ⟨?_, ih.2⟩⟩
    · refine hLoopless.noReturn n hReach.1 c hChild ?_
      rcases mem_cons.mp hBack with rfl | hAbove
      · exact .self
      · exact hReach.2 c hAbove
    · exact hLoopless.isIn c (.child hReach.1 hChild)

theorem length_lt (hLoopless : t.Loopless top) (hWay : t.Way top above n) : above.length < t.size :=
  length_le_size (hWay.nodup hLoopless).1 (hWay.nodup hLoopless).2

theorem head (hChild : c ∈ t.children n) (hWay : t.Way c above k) : t.Way n (above ++ [n]) k := by
  induction hWay with
  | here => exact .down .here hChild
  | down _ hLast ih => exact .down ih hLast

end Way

/- All ways down from a node are shorter than a number. -/
def Shallow (t : Tree) (fuel : Nat) (n : NodeId) : Prop :=
  ∀ above k, t.Way n above k → above.length < fuel

theorem Shallow.child (hShallow : t.Shallow (fuel + 1) n) (hChild : c ∈ t.children n) :
    t.Shallow fuel c := by
  intro above k hWay
  have hLonger := hShallow _ k (hWay.head hChild)
  simpa using hLonger

/- More steps than there are on any way down add nothing. -/
theorem Shallow.downward_eq (hShallow : t.Shallow fuel n) (hLe : fuel ≤ more) :
    t.downward more n = t.downward fuel n := by
  induction fuel generalizing n more with
  | zero => exact absurd (hShallow [] n .here) (Nat.not_lt_zero _)
  | succ fuel ih =>
    cases more with
    | zero => omega
    | succ more =>
      rw [downward, downward, flatMap_congr]
      exact fun c hChild => ih (hShallow.child hChild) (by omega)

theorem Shallow.mem_downward (hShallow : t.Shallow fuel top) (hReach : t.Reaches top n) :
    n ∈ t.downward fuel top := by
  have hMore := hShallow.downward_eq (Nat.le_succ fuel)
  rw [← hMore]
  induction hReach with
  | self => exact .head _
  | child _ hChild ih =>
    rw [hMore] at ih
    exact mem_downward_child ih hChild

theorem Loopless.shallow (hLoopless : t.Loopless top) : t.Shallow t.size top :=
  fun _ _ => Way.length_lt hLoopless

/- A walk passes all that its start reaches, and nothing else. -/
theorem Loopless.mem_preorder (hLoopless : t.Loopless top) :
    n ∈ t.preorder top ↔ t.Reaches top n :=
  ⟨.of_mem_downward, hLoopless.shallow.mem_downward⟩

theorem Loopless.child (hLoopless : t.Loopless n) (hChild : c ∈ t.children n) : t.Loopless c :=
  ⟨fun k hReach => hLoopless.isIn k (.head hChild hReach),
    fun k hReach => hLoopless.noReturn k (.head hChild hReach)⟩

/- A node is listed before its children with all that is below them. -/
theorem Loopless.preorder_eq (hLoopless : t.Loopless n) :
    t.preorder n = n :: (t.children n).flatMap t.preorder := by
  have hIn := hLoopless.isIn n .self
  rcases Nat.exists_eq_add_one.mpr (Nat.zero_lt_of_lt hIn) with ⟨size, hSize⟩
  have hShallow := hLoopless.shallow
  rw [hSize] at hShallow
  rw [preorder, hSize, downward]
  congr 1
  refine flatMap_congr fun c hChild => ?_
  rw [preorder, hSize, (hShallow.child hChild).downward_eq (Nat.le_succ size)]

namespace Shaped

theorem downward_nodup (hShaped : t.Shaped top) (fuel : Nat) (hReach : t.Reaches top n) :
    (t.downward fuel n).Nodup := by
  induction fuel generalizing n with
  | zero => exact nodup_nil
  | succ fuel ih =>
    refine nodup_cons.mpr ⟨?_, ?_⟩
    · intro hBack
      rcases mem_flatMap.mp hBack with ⟨c, hChild, hMem⟩
      exact hShaped.noReturn n hReach c hChild (.of_mem_downward hMem)
    · refine nodup_flatMap.mpr ⟨fun c hChild => ih (.child hReach hChild), ?_⟩
      refine (hShaped.nodup n hReach).imp_of_mem ?_
      intro a b hA hB hNe q hFirst hSecond
      exact hShaped.disjoint hReach hA hB hNe (.of_mem_downward hFirst) (.of_mem_downward hSecond)

/- It passes nothing twice. -/
theorem preorder_nodup (hShaped : t.Shaped top) : (t.preorder top).Nodup :=
  hShaped.downward_nodup t.size .self

theorem length_preorder_le (hShaped : t.Shaped top) : (t.preorder top).length ≤ t.size :=
  length_le_size hShaped.preorder_nodup fun k hMem =>
    hShaped.isIn k (hShaped.mem_preorder.mp hMem)

end Shaped

end Tree

end Code

end RubyWat
