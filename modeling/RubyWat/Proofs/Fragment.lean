import Mathlib.Data.List.Flatten
import Mathlib.Data.List.Nodup
import RubyWat.Proofs.Edit

/-
  Pieces of code trees as values.

  Key definitions: `Code.Fragment`, `Code.Held`, `Code.Hung`, `Code.Row`, `Code.Edited`,
    `Code.Grown`.

  A fragment is a node with everything below it.  A tree holds a fragment when the links between
  its nodes are those of the fragment.  A step of a compilation either edits one fragment in
  place or puts new fragments behind the children of a node, and leaves all other nodes alone.
  Such steps can be put one after the other and inside of each other, so that code can be
  followed through a compilation without looking at the tree.
-/

-- Fragments

namespace RubyWat

variable {n : Code.NodeId} {t : Code.Tree}

namespace Code

/- A node with everything below it. -/
structure Fragment where
  id : NodeId
  instr : Instr
  ty : ValueType
  children : List Fragment := []

namespace Fragment

theorem eta (f : Fragment) : Fragment.mk f.id f.instr f.ty f.children = f := by
  cases f
  rfl

/- The nodes of a fragment, parents first. -/
def ids : Fragment → List NodeId
  | ⟨n, _, _, children⟩ => n :: children.flatMap ids

theorem ids_eq (f : Fragment) : f.ids = f.id :: f.children.flatMap ids := by
  cases f
  rw [ids]

theorem id_mem_ids (f : Fragment) : f.id ∈ f.ids := by
  rw [ids_eq]
  exact (.head _)

theorem mem_ids_of_child {f c : Fragment} (hChild : c ∈ f.children) (hMem : n ∈ c.ids) :
    n ∈ f.ids := by
  rw [ids_eq]
  exact .tail f.id (List.mem_flatMap.mpr ⟨c, hChild, hMem⟩)

/- Another fragment in the place of one among several. -/
theorem nodup_replace (hNodup : ((before ++ f :: after).flatMap ids).Nodup) (hNew : f'.ids.Nodup)
    (hFresh : ∀ n ∈ f'.ids, n ∈ f.ids ∨ n ∉ (before ++ f :: after).flatMap ids) :
    ((before ++ f' :: after).flatMap ids).Nodup := by
  simp only [List.flatMap_append, List.flatMap_cons,
    List.nodup_append, List.mem_append] at hNodup hFresh ⊢
  rcases hNodup with ⟨hBefore, ⟨_, hAfter, hFA⟩, hBF⟩
  refine ⟨hBefore, ⟨hNew, hAfter, ?_⟩, ?_⟩
  · intro a hA b hB hEq
    subst hEq
    rcases hFresh a hA with hOld | hOut
    · exact hFA a hOld a hB rfl
    · exact hOut (.inr (.inr hB))
  · intro a hA b hB hEq
    subst hEq
    rcases hB with hB | hB
    · rcases hFresh a hB with hOld | hOut
      · exact hBF a hA a (.inl hOld) rfl
      · exact hOut (.inl hA)
    · exact hBF a hA a (.inr hB) rfl

/- The nodes of one fragment among several are its own. -/
theorem disjoint_of_nodup
    (hNodup : ((before ++ f :: after).flatMap ids).Nodup) (hOther : g ∈ before ∨ g ∈ after)
    (hMem : n ∈ g.ids) : n ∉ f.ids := by
  intro hIn
  simp only [List.flatMap_append, List.flatMap_cons, List.nodup_append, List.mem_append] at hNodup
  rcases hNodup with ⟨_, ⟨_, _, hFA⟩, hBF⟩
  rcases hOther with hBefore | hAfter
  · exact hBF n (List.mem_flatMap.mpr ⟨g, hBefore, hMem⟩) n (.inl hIn) rfl
  · exact hFA n hIn n (List.mem_flatMap.mpr ⟨g, hAfter, hMem⟩) rfl

end Fragment

-- Held Fragments

/- A tree that holds a fragment: its nodes have the content and the links that the fragment says. -/
inductive Held (t : Tree) : Fragment → Prop where
  | intro {f : Fragment} (hIn : f.id.index < t.size) (hInstr : t.instr f.id = f.instr)
      (hTy : t.ty f.id = f.ty) (hChildren : t.children f.id = f.children.map Fragment.id)
      (hParent : ∀ c ∈ f.children, t.parent? c.id = some f.id)
      (hHeld : ∀ c ∈ f.children, Held t c) : Held t f

namespace Held

variable {t' : Tree} {f : Fragment}

section

variable (hHeld : Held t f)
include hHeld

theorem isIn : f.id.index < t.size := by
  cases hHeld
  assumption

theorem instr : t.instr f.id = f.instr := by
  cases hHeld
  assumption

theorem ty : t.ty f.id = f.ty := by
  cases hHeld
  assumption

theorem children : t.children f.id = f.children.map Fragment.id := by
  cases hHeld
  assumption

theorem parent (hChild : c ∈ f.children) : t.parent? c.id = some f.id := by
  cases hHeld with
  | intro _ _ _ _ hParent _ => exact hParent c hChild

theorem child (hChild : c ∈ f.children) : Held t c := by
  cases hHeld with
  | intro _ _ _ _ _ hHeld => exact hHeld c hChild

/- All nodes of a fragment are nodes of the tree. -/
theorem index_lt (hMem : n ∈ f.ids) : n.index < t.size := by
  induction hHeld with
  | @intro f hIn _ _ _ _ _ ih =>
    rw [Fragment.ids_eq] at hMem
    rcases List.mem_cons.mp hMem with rfl | hBelow
    · exact hIn
    · rcases List.mem_flatMap.mp hBelow with ⟨c, hChild, hMem⟩
      exact ih c hChild hMem

/- A fragment stays held while its nodes stay as they are. -/
theorem congr (hSize : t.size ≤ t'.size)
    (hSame : ∀ n ∈ f.ids, t'.node n = t.node n) : Held t' f := by
  induction hHeld with
  | @intro f hIn hInstr hTy hChildren hParent _ ih =>
    have hRoot := hSame f.id f.id_mem_ids
    have hBelow : ∀ c ∈ f.children, ∀ n ∈ c.ids, t'.node n = t.node n :=
      fun c hChild n hMem => hSame n (Fragment.mem_ids_of_child hChild hMem)
    constructor
    · omega
    · simpa [Tree.instr, hRoot] using hInstr
    · simpa [Tree.ty, hRoot] using hTy
    · simpa [Tree.children, hRoot] using hChildren
    · intro c hChild
      have hNode := hBelow c hChild c.id c.id_mem_ids
      simpa [Tree.parent?, hNode] using hParent c hChild
    · intro c hChild
      exact ih c hChild (hBelow c hChild)

/- It stays where it is, too. -/
theorem kept (hParent : t.parent? f.id = some p)
    (hSize : t.size ≤ t'.size) (hSame : ∀ n ∈ f.ids, t'.node n = t.node n) :
    t'.parent? f.id = some p ∧ Held t' f := by
  refine ⟨?_, hHeld.congr hSize hSame⟩
  rw [Tree.parent?, hSame f.id f.id_mem_ids]
  exact hParent

end

/- A fragment with another node or other links on top. -/
theorem of_root (hIn : g.id.index < t.size) (hInstr : t.instr g.id = g.instr)
    (hTy : t.ty g.id = g.ty) (hChildren : t.children g.id = g.children.map Fragment.id)
    (hBelow : ∀ c ∈ g.children, t.parent? c.id = some g.id ∧ Held t c) : Held t g :=
  .intro hIn hInstr hTy hChildren (fun c hChild => (hBelow c hChild).1)
    (fun c hChild => (hBelow c hChild).2)

end Held

/- A node whose children are nodes of the tree. -/
structure Open (t : Tree) (p : NodeId) : Prop where
  isIn : p.index < t.size
  children : ∀ c ∈ t.children p, c.index < t.size

/- A fragment that hangs below a node: the tree holds it, and its nodes are all different. -/
structure Hung (t : Tree) (p : NodeId) (f : Fragment) : Prop where
  held : Held t f
  parent : t.parent? f.id = some p
  nodup : f.ids.Nodup
  notMem : p ∉ f.ids
  isOpen : Open t p

/- Fragments below one node, next to each other.  No two of them share a node. -/
structure Row (t : Tree) (p : NodeId) (fs : List Fragment) : Prop where
  held : ∀ f ∈ fs, t.parent? f.id = some p ∧ Held t f
  nodup : (fs.flatMap Fragment.ids).Nodup
  notMem : p ∉ fs.flatMap Fragment.ids

namespace Row

variable {p : NodeId} {f : Fragment} {before after : List Fragment}

theorem index_lt (hRow : Row t p fs) (hMem : n ∈ fs.flatMap Fragment.ids) : n.index < t.size := by
  rcases List.mem_flatMap.mp hMem with ⟨f, hF, hMem⟩
  exact (hRow.held f hF).2.index_lt hMem

theorem ne_of_mem (hRow : Row t p fs) (hMem : n ∈ fs.flatMap Fragment.ids) : n ≠ p := by
  rintro rfl
  exact hRow.notMem hMem

theorem id_notMem_before (hRow : Row t p (before ++ f :: after)) :
    f.id ∉ before.map Fragment.id := by
  intro hMem
  rcases List.mem_map.mp hMem with ⟨g, hBefore, hEq⟩
  exact Fragment.disjoint_of_nodup hRow.nodup (.inl hBefore) g.id_mem_ids (hEq ▸ f.id_mem_ids)

theorem single (hParent : t.parent? f.id = some p) (hHeld : Held t f) (hNodup : f.ids.Nodup)
    (hNot : p ∉ f.ids) : Row t p [f] where
  held := by simpa using ⟨hParent, hHeld⟩
  nodup := by simpa using hNodup
  notMem := by simpa using hNot

/- A row stays while its nodes stay as they are. -/
theorem congr (hRow : Row t p fs) (hSize : t.size ≤ t'.size)
    (hSame : ∀ n ∈ fs.flatMap Fragment.ids, t'.node n = t.node n) : Row t' p fs where
  held := fun f hF => (hRow.held f hF).2.kept (hRow.held f hF).1 hSize
    fun n hMem => hSame n (List.mem_flatMap.mpr ⟨f, hF, hMem⟩)
  nodup := hRow.nodup
  notMem := hRow.notMem

theorem sublist (hRow : Row t p fs) (hSub : gs.Sublist fs) : Row t p gs where
  held := fun f hF => hRow.held f (hSub.subset hF)
  nodup := hRow.nodup.sublist (hSub.flatMap Fragment.ids)
  notMem := fun hMem => hRow.notMem ((hSub.flatMap Fragment.ids).subset hMem)

theorem append (hFirst : Row t p fs) (hSecond : Row t p gs)
    (hApart : ∀ n ∈ fs.flatMap Fragment.ids, n ∉ gs.flatMap Fragment.ids) : Row t p (fs ++ gs) where
  held := List.forall_mem_append.mpr ⟨hFirst.held, hSecond.held⟩
  nodup := by
    rw [List.flatMap_append, List.nodup_append]
    exact ⟨hFirst.nodup, hSecond.nodup, fun a hA b hB hEq => hApart a hA (hEq ▸ hB)⟩
  notMem := by
    rw [List.flatMap_append, List.mem_append, not_or]
    exact ⟨hFirst.notMem, hSecond.notMem⟩

/- Another fragment in the place of one in a row. -/
theorem replace (hRow : Row t p (before ++ f :: after)) (hSize : t.size ≤ t'.size)
    (hSame : ∀ n ∈ (before ++ f :: after).flatMap Fragment.ids, n ∉ f.ids → t'.node n = t.node n)
    (hNew : Row t' p [g])
    (hFresh : ∀ n ∈ g.ids, n ∈ f.ids ∨ n ∉ (before ++ f :: after).flatMap Fragment.ids) :
    Row t' p (before ++ g :: after) where
  held := by
    have hKeeps : ∀ h, h ∈ before ∨ h ∈ after → t'.parent? h.id = some p ∧ Held t' h := by
      intro h hOther
      have hIs : h ∈ before ++ f :: after := by grind
      refine (hRow.held h hIs).2.kept (hRow.held h hIs).1 hSize fun n hMem => ?_
      exact hSame n (List.mem_flatMap.mpr ⟨h, hIs, hMem⟩)
        (Fragment.disjoint_of_nodup hRow.nodup hOther hMem)
    intro h hMem
    rw [List.mem_append, List.mem_cons] at hMem
    rcases hMem with hBefore | rfl | hAfter
    · exact hKeeps h (.inl hBefore)
    · exact hNew.held h (.head _)
    · exact hKeeps h (.inr hAfter)
  nodup := Fragment.nodup_replace hRow.nodup (by simpa using hNew.nodup) hFresh
  notMem := by
    have hOld := hRow.notMem
    have hNot := hNew.notMem
    simp only [List.flatMap_append, List.flatMap_cons, List.flatMap_nil, List.append_nil,
      List.mem_append, not_or] at hOld hNot ⊢
    exact ⟨hOld.1, hNot, hOld.2.2⟩

end Row

/- The children of a fragment are a row below its root. -/
theorem Held.row (hHeld : Held t f) (hNodup : f.ids.Nodup) : Row t f.id f.children := by
  rw [Fragment.ids_eq, List.nodup_cons] at hNodup
  exact ⟨fun _ hC => ⟨hHeld.parent hC, hHeld.child hC⟩, hNodup.2, hNodup.1⟩

namespace Hung

variable {p : NodeId} {f : Fragment}

variable (hHung : Hung t p f)
include hHung

theorem ne_root : p ≠ f.id := by
  rintro rfl
  exact hHung.notMem f.id_mem_ids

theorem row : Row t f.id f.children :=
  hHung.held.row hHung.nodup

theorem id_notMem_child (hChild : c ∈ f.children) : f.id ∉ c.ids :=
  fun hMem => hHung.row.notMem (List.mem_flatMap.mpr ⟨c, hChild, hMem⟩)

/- The root of a fragment is open. -/
theorem root_isOpen : Open t f.id := by
  refine ⟨hHung.held.isIn, ?_⟩
  rw [hHung.held.children]
  intro n hMem
  rcases List.mem_map.mp hMem with ⟨c, hChild, rfl⟩
  exact (hHung.held.child hChild).isIn

/- The children of a fragment hang below its root. -/
theorem child (hChild : c ∈ f.children) : Hung t f.id c where
  held := hHung.held.child hChild
  parent := hHung.held.parent hChild
  nodup := (List.nodup_flatMap.mp hHung.row.nodup).1 c hChild
  notMem := hHung.id_notMem_child hChild
  isOpen := hHung.root_isOpen

theorem first (hChildren : f.children = c :: cs) : Hung t f.id c :=
  hHung.child (by simp [hChildren])

theorem second (hChildren : f.children = b :: c :: cs) : Hung t f.id c :=
  hHung.child (by simp [hChildren])

end Hung

-- Edits In Place

/-
  A fragment below a node became another one.  Outside of it only the link from the node may
  have changed, the nodes that it did not have are new, and labels stay apart.
-/
structure Edited (t t' : Tree) (p : NodeId) (f f' : Fragment) : Prop where
  start : Hung t p f
  size_le : t.size ≤ t'.size
  outside : ∀ n, n.index < t.size → n ∉ f.ids → n ≠ p → t'.node n = t.node n
  link : t'.node p = { t.node p with children := Tree.replaceFirst f.id f'.id (t.children p) }
  held : Held t' f'
  parent : t'.parent? f'.id = some p
  fresh : ∀ n ∈ f'.ids, n ∈ f.ids ∨ t.size ≤ n.index
  root : f'.id = f.id ∨ t.size ≤ f'.id.index
  nodup : f'.ids.Nodup
  labels : t.Labelled → t'.Labelled

namespace Edited

variable {t₁ : Tree} {p : NodeId} {f : Fragment}

theorem refl (hHung : Hung t p f) : Edited t t p f f where
  start := hHung
  size_le := Nat.le_refl t.size
  outside := fun _ _ _ _ => rfl
  link := by simp [Tree.children]
  held := hHung.held
  parent := hHung.parent
  fresh := fun _ => .inl
  root := .inl rfl
  nodup := hHung.nodup
  labels := id

/- What an edit leaves hangs where the fragment hung. -/
theorem hung (hEdit : Edited t t₁ p f g) : Hung t₁ p g where
  held := hEdit.held
  parent := hEdit.parent
  nodup := hEdit.nodup
  notMem := by
    intro hMem
    rcases hEdit.fresh p hMem with hOld | hNew
    · exact hEdit.start.notMem hOld
    · exact absurd hEdit.start.isOpen.isIn (Nat.not_lt.mpr hNew)
  isOpen := by
    have hIn := hEdit.start.isOpen.isIn
    have hLe := hEdit.size_le
    refine ⟨by omega, ?_⟩
    intro c hMem
    rw [Tree.children, hEdit.link] at hMem
    rcases Tree.mem_replaceFirst hMem with rfl | hOld
    · exact hEdit.held.isIn
    · have := hEdit.start.isOpen.children c hOld
      omega

theorem trans (hFirst : Edited t t₁ p f g) (hSecond : Edited t₁ t₂ p g h) : Edited t t₂ p f h where
  start := hFirst.start
  size_le := Nat.le_trans hFirst.size_le hSecond.size_le
  outside := by
    intro n hIn hNot hNe
    have hLe := hFirst.size_le
    have hOut : n ∉ g.ids := by
      intro hMem
      rcases hFirst.fresh n hMem with hOld | hNew
      · exact hNot hOld
      · omega
    rw [hSecond.outside n (by omega) hOut hNe, hFirst.outside n hIn hNot hNe]
  link := by
    have hRoot : g.id = f.id ∨ g.id ∉ t.children p := by
      rcases hFirst.root with hSame | hNew
      · exact .inl hSame
      right
      intro hMem
      have := hFirst.start.isOpen.children g.id hMem
      omega
    have hChildren : t₁.children p = Tree.replaceFirst f.id g.id (t.children p) := by
      rw [Tree.children, hFirst.link]
    rw [hSecond.link, hChildren, Tree.replaceFirst_replaceFirst hRoot, hFirst.link]
  held := hSecond.held
  parent := hSecond.parent
  fresh := by
    intro n hMem
    have hLe := hFirst.size_le
    rcases hSecond.fresh n hMem with hOld | hNew
    · exact hFirst.fresh n hOld
    · right
      omega
  root := by
    have hLe := hFirst.size_le
    rcases hSecond.root with hSame | hNew
    · rw [hSame]
      exact hFirst.root
    · right
      omega
  nodup := hSecond.nodup
  labels := fun hLabels => hSecond.labels (hFirst.labels hLabels)

/-
  A step that keeps the root of what an edit left.  The parts
  that it has below the root were there or are new.
-/
theorem step (hEdit : Edited t t₁ p f g) (hSize : t₁.size ≤ t₂.size)
    (hOutside : ∀ n, n.index < t₁.size → n ∉ f.ids → n ∉ g.ids → t₂.node n = t₁.node n)
    (hInstr : t₂.instr g.id = instr) (hTy : t₂.ty g.id = ty)
    (hChildren : t₂.children g.id = gs.map Fragment.id)
    (hParent : t₂.parent? g.id = t₁.parent? g.id) (hRow : Row t₂ g.id gs)
    (hFresh : ∀ n ∈ gs.flatMap Fragment.ids, n ∈ f.ids ∨ t.size ≤ n.index)
    (hLabels : t₁.Labelled → t₂.Labelled) : Edited t t₂ p f ⟨g.id, instr, ty, gs⟩ where
  start := hEdit.start
  size_le := Nat.le_trans hEdit.size_le hSize
  outside := by
    intro n hIn hNot hNe
    have hLe := hEdit.size_le
    have hOut : n ∉ g.ids := by
      intro hMem
      rcases hEdit.fresh n hMem with hOld | hNew
      · exact hNot hOld
      · omega
    rw [hOutside n (by omega) hNot hOut, hEdit.outside n hIn hNot hNe]
  link := by
    rw [hOutside p hEdit.hung.isOpen.isIn hEdit.start.notMem hEdit.hung.notMem, hEdit.link]
  held := .of_root (Nat.lt_of_lt_of_le hEdit.held.isIn hSize) hInstr hTy hChildren hRow.held
  parent := hParent.trans hEdit.parent
  fresh := by
    intro n hMem
    rw [Fragment.ids_eq] at hMem
    rcases List.mem_cons.mp hMem with rfl | hBelow
    · exact hEdit.fresh g.id g.id_mem_ids
    · exact hFresh n hBelow
  root := hEdit.root
  nodup := by
    rw [Fragment.ids_eq, List.nodup_cons]
    exact ⟨hRow.notMem, hRow.nodup⟩
  labels := fun hLabelled => hLabels (hEdit.labels hLabelled)

/- Other parts below a root that stays. -/
theorem of_row (hHung : Hung t p f) (hSize : t.size ≤ t₁.size)
    (hOutside : ∀ n, n.index < t.size → n ∉ f.ids → t₁.node n = t.node n)
    (hRoot : t₁.node f.id = { t.node f.id with children := gs.map Fragment.id })
    (hRow : Row t₁ f.id gs)
    (hFresh : ∀ n ∈ gs.flatMap Fragment.ids, n ∈ f.children.flatMap Fragment.ids ∨ t.size ≤ n.index)
    (hLabels : t.Labelled → t₁.Labelled) : Edited t t₁ p f { f with children := gs } := by
  refine step (refl hHung) hSize (fun n hIn hNot _ => hOutside n hIn hNot)
    ?_ ?_ ?_ ?_ hRow ?_ hLabels
  · simpa [Tree.instr, hRoot] using hHung.held.instr
  · simpa [Tree.ty, hRoot] using hHung.held.ty
  · simp [Tree.children, hRoot]
  · simp [Tree.parent?, hRoot]
  · intro n hMem
    rw [Fragment.ids_eq]
    exact (hFresh n hMem).imp_left (.tail f.id)

/- The nodes of a row after an edit of one of its fragments. -/
theorem fresh_row (hEdit : Edited t t₁ p f g)
    (hMem : n ∈ (before ++ g :: after).flatMap Fragment.ids) :
    n ∈ (before ++ f :: after).flatMap Fragment.ids ∨ t.size ≤ n.index := by
  simp only [List.flatMap_append, List.flatMap_cons, List.mem_append] at hMem ⊢
  rcases hMem with hBefore | hMid | hAfter
  · exact .inl (.inl hBefore)
  · exact (hEdit.fresh n hMid).imp_left fun hOld => .inr (.inl hOld)
  · exact .inl (.inr (.inr hAfter))

theorem row (hEdit : Edited t t₁ p f g) (hRow : Row t p (before ++ f :: after)) :
    Row t₁ p (before ++ g :: after) := by
  refine hRow.replace hEdit.size_le ?_ ?_ ?_
  · exact fun n hMem hNot => hEdit.outside n (hRow.index_lt hMem) hNot (hRow.ne_of_mem hMem)
  · exact .single hEdit.parent hEdit.held hEdit.nodup hEdit.hung.notMem
  · intro n hMem
    refine (hEdit.fresh n hMem).imp_right fun hNew hIs => ?_
    have := hRow.index_lt hIs
    omega

/- An edit of a child is an edit of the whole. -/
theorem inside {before after : List Fragment} {c c' : Fragment} (hHung : Hung t p f)
    (hChildren : f.children = before ++ c :: after) (hEdit : Edited t t₁ f.id c c') :
    Edited t t₁ p f { f with children := before ++ c' :: after } := by
  have hChild : c ∈ f.children := by simp [hChildren]
  have hRow := hHung.row
  rw [hChildren] at hRow
  refine of_row hHung hEdit.size_le ?_ ?_ (hEdit.row hRow) ?_ hEdit.labels
  · intro n hIn hNot
    refine hEdit.outside n hIn (fun hMem => hNot (Fragment.mem_ids_of_child hChild hMem)) ?_
    rintro rfl
    exact hNot f.id_mem_ids
  · rw [hEdit.link, hHung.held.children, hChildren]
    simp only [List.map_append, List.map_cons, Tree.replaceFirst_append_cons hRow.id_notMem_before]
  · rw [hChildren]
    exact fun _ => hEdit.fresh_row

end Edited

-- Growth

/- New fragments hang behind the children of a node, and nothing else has changed. -/
structure Grown (t t' : Tree) (p : NodeId) (fs : List Fragment) : Prop where
  size_le : t.size ≤ t'.size
  outside : ∀ n, n.index < t.size → n ≠ p → t'.node n = t.node n
  link : t'.node p = { t.node p with children := t.children p ++ fs.map Fragment.id }
  held : ∀ f ∈ fs, t'.parent? f.id = some p ∧ Held t' f
  fresh : ∀ n ∈ fs.flatMap Fragment.ids, t.size ≤ n.index
  nodup : (fs.flatMap Fragment.ids).Nodup
  labels : t.Labelled → t'.Labelled

namespace Grown

theorem refl (t : Tree) (p : NodeId) : Grown t t p [] where
  size_le := Nat.le_refl t.size
  outside := fun _ _ _ => rfl
  link := by simp [Tree.children]
  held := by simp
  fresh := by simp
  nodup := by simp
  labels := id

section

variable (hGrown : Grown t t₁ p fs)
include hGrown

theorem children : t₁.children p = t.children p ++ fs.map Fragment.id := by
  rw [Tree.children, hGrown.link]

/- Growing keeps instructions and the way up from old nodes. -/
theorem instr (hIn : n.index < t.size) : t₁.instr n = t.instr n := by
  by_cases hEq : n = p
  · subst hEq
    rw [Tree.instr, hGrown.link]
    rfl
  · rw [Tree.instr, hGrown.outside n hIn hEq]
    rfl

theorem parent? (hIn : n.index < t.size) : t₁.parent? n = t.parent? n := by
  by_cases hEq : n = p
  · subst hEq
    rw [Tree.parent?, hGrown.link]
    rfl
  · rw [Tree.parent?, hGrown.outside n hIn hEq]
    rfl

theorem isOpen (hOpen : Open t p) : Open t₁ p := by
  have hIn := hOpen.isIn
  have hLe := hGrown.size_le
  refine ⟨by omega, ?_⟩
  rw [hGrown.children]
  intro c hMem
  rcases List.mem_append.mp hMem with hOld | hNew
  · have := hOpen.children c hOld
    omega
  · rcases List.mem_map.mp hNew with ⟨f, hF, rfl⟩
    exact (hGrown.held f hF).2.isIn

theorem row (hOpen : Open t p) : Row t₁ p fs where
  held := hGrown.held
  nodup := hGrown.nodup
  notMem := fun hMem => Nat.not_le.mpr hOpen.isIn (hGrown.fresh p hMem)

/- What has grown hangs below the node. -/
theorem hung (hOpen : Open t p) (hMem : f ∈ fs) : Hung t₁ p f where
  held := (hGrown.held f hMem).2
  parent := (hGrown.held f hMem).1
  nodup := (List.nodup_flatMap.mp hGrown.nodup).1 f hMem
  notMem := fun hIs => (hGrown.row hOpen).notMem (List.mem_flatMap.mpr ⟨f, hMem, hIs⟩)
  isOpen := hGrown.isOpen hOpen

end

/- New fragments behind a row. -/
theorem append_row (hGrown : Grown t t₁ p gs) (hOpen : Open t p) (hRow : Row t p fs) :
    Row t₁ p (fs ++ gs) := by
  refine (hRow.congr hGrown.size_le ?_).append (hGrown.row hOpen) ?_
  · exact fun n hMem => hGrown.outside n (hRow.index_lt hMem) (hRow.ne_of_mem hMem)
  · intro n hMem hNew
    have := hRow.index_lt hMem
    have := hGrown.fresh n hNew
    omega

theorem trans (hOpen : Open t p) (hFirst : Grown t t₁ p fs) (hSecond : Grown t₁ t₂ p gs) :
    Grown t t₂ p (fs ++ gs) := by
  have hLe := hFirst.size_le
  have hRow := hSecond.append_row (hFirst.isOpen hOpen) (hFirst.row hOpen)
  constructor
  · exact Nat.le_trans hLe hSecond.size_le
  · intro n hN hNe
    rw [hSecond.outside n (by omega) hNe, hFirst.outside n hN hNe]
  · rw [hSecond.link, hFirst.children, hFirst.link]
    simp
  · exact hRow.held
  · intro n hMem
    rw [List.flatMap_append, List.mem_append] at hMem
    rcases hMem with hF | hG
    · exact hFirst.fresh n hF
    · exact Nat.le_trans hLe (hSecond.fresh n hG)
  · exact hRow.nodup
  · exact fun hLabels => hSecond.labels (hFirst.labels hLabels)

/- An edit of one of the fragments that have grown. -/
theorem edit (hOpen : Open t p)
    (hGrown : Grown t t₁ p (before ++ f :: after)) (hEdit : Edited t₁ t₂ p f f') :
    Grown t t₂ p (before ++ f' :: after) := by
  have hLe := hGrown.size_le
  have hOld := hGrown.row hOpen
  have hRow := hEdit.row hOld
  have hFreshF : ∀ n ∈ f.ids, t.size ≤ n.index :=
    fun n hMem => hGrown.fresh n (List.mem_flatMap.mpr ⟨f, by simp, hMem⟩)
  constructor
  · exact Nat.le_trans hLe hEdit.size_le
  · intro n hN hNe
    have hOut : n ∉ f.ids := by
      intro hMem
      have := hFreshF n hMem
      omega
    rw [hEdit.outside n (by omega) hOut hNe, hGrown.outside n hN hNe]
  · have hNot : f.id ∉ t.children p ++ before.map Fragment.id := by
      rw [List.mem_append, not_or]
      refine ⟨fun hMem => ?_, hOld.id_notMem_before⟩
      have := hOpen.children f.id hMem
      have := hFreshF f.id f.id_mem_ids
      omega
    rw [hEdit.link, hGrown.children, hGrown.link]
    simp only [List.map_append, List.map_cons, ← List.append_assoc,
      Tree.replaceFirst_append_cons hNot]
  · exact hRow.held
  · intro n hMem
    rcases hEdit.fresh_row hMem with hIs | hNew
    · exact hGrown.fresh n hIs
    · omega
  · exact hRow.nodup
  · exact fun hLabels => hEdit.labels (hGrown.labels hLabels)

/- Growth below the root of a fragment is an edit of it. -/
theorem edited (hHung : Hung t p f) (hGrown : Grown t t₁ f.id fs) :
    Edited t t₁ p f { f with children := f.children ++ fs } := by
  refine .of_row hHung hGrown.size_le ?_ ?_ (hGrown.append_row hHung.root_isOpen hHung.row) ?_
    hGrown.labels
  · intro n hIn hNot
    refine hGrown.outside n hIn ?_
    rintro rfl
    exact hNot f.id_mem_ids
  · rw [hGrown.link, hHung.held.children, List.map_append]
  · intro n hMem
    rw [List.flatMap_append, List.mem_append] at hMem
    exact hMem.imp_right (hGrown.fresh n)

end Grown

end Code

end RubyWat
