import RubyWat.Proofs.Accesses
import RubyWat.Proofs.Constructs
import RubyWat.Proofs.Discipline

/-
  The classes and methods of a code tree.

  Key definitions: `Code.Arranged`, `Code.Steps`, `Code.Tree.Defines`, `Settled`, `EvolvesTo`.

  The upper part of a code tree groups definitions: the root and the bodies of classes have
  classes and methods below them, and a method has its code.  Outside of methods a compilation
  adds definitions and takes methods off that are defined anew.  The code of a method stays as
  it is once it is complete.  Between definitions the methods that are implemented are those
  that the tree has a function of.
-/

-- Arranged Trees

namespace RubyWat

open Code Program

variable {f : Fragment} {n p : NodeId} {t t₁ : Tree}
variable {ctx ctx' : Context} {fs : List Fragment} {m : MethodId}

namespace Code

open Translation (Coded)

/- Whether an instruction has definitions below it. -/
def Instr.isGroup : Instr → Bool
  | root | classBody _ => true
  | _ => false

theorem Instr.isOuter_of_isGroup {instr : Instr} (hGroup : instr.isGroup = true) :
    instr.isOuter = true := by
  cases instr <;> simp_all [isGroup, isOuter]

/- A method in a tree: the code below its node is that of a complete method. -/
structure Defined (t : Tree) (m : MethodId) (f : Fragment) : Prop where
  held : Held t f
  instr : f.instr = .function m
  coded : Coded f.children
  nodup : f.ids.Nodup

/- A node below which there are only complete definitions. -/
inductive Arranged (t : Tree) : NodeId → Prop where
  | group {n : NodeId} (hIn : n.index < t.size) (hGroup : (t.instr n).isGroup = true)
      (hChildren : ∀ c ∈ t.children n, Arranged t c) : Arranged t n
  | function {m : MethodId} {f : Fragment} (hDefined : Defined t m f) : Arranged t f.id

theorem Arranged.isIn (hArranged : Arranged t n) : n.index < t.size := by
  cases hArranged with
  | group hIn => exact hIn
  | function hDefined => exact hDefined.held.isIn

/- Only nodes of the tree group anything. -/
theorem Tree.index_lt_of_isGroup (hGroup : (t.instr n).isGroup = true) : n.index < t.size := by
  by_contra hOut
  rw [instr, node, Array.getD_eq_getD_getElem?,
    Array.getElem?_eq_none (by simpa [size] using hOut)] at hGroup
  contradiction

/- The nodes of neat code are no definitions. -/
theorem Neat.isOuter_eq_false (hNeat : Neat f) (hHeld : Held t f) (hMem : n ∈ f.ids) :
    (t.instr n).isOuter = false := by
  induction hNeat with
  | @intro f hTidy _ ih =>
    rw [Fragment.ids_eq] at hMem
    rcases List.mem_cons.mp hMem with rfl | hBelow
    · rw [hHeld.instr]
      exact hTidy.inner
    · rcases List.mem_flatMap.mp hBelow with ⟨c, hChild, hMem⟩
      exact ih c hChild (hHeld.child hChild) hMem

/-
  What happens to a tree outside of methods.  Code stays as it is, methods may be taken off, and
  new definitions may come below the root and the bodies of classes.
-/
structure Steps (t t' : Tree) : Prop where
  size_le : t.size ≤ t'.size
  inner : ∀ n, n.index < t.size → (t.instr n).isOuter = false → t'.node n = t.node n
  function : ∀ n m, n.index < t.size → t.instr n = .function m →
      t'.instr n = .function m ∧ t'.ty n = t.ty n ∧ t'.children n = t.children n
        ∧ (t'.parent? n = t.parent? n ∨ t'.parent? n = none)
  group : ∀ n, n.index < t.size → (t.instr n).isGroup = true →
      t'.instr n = t.instr n ∧ t'.parent? n = t.parent? n
        ∧ (∀ c ∈ t'.children n, c ∈ t.children n ∨ Arranged t' c)
        ∧ ∀ c ∈ t.children n, (t.instr c).isGroup = true → c ∈ t'.children n
  labels : t.Labelled → t'.Labelled

/- A complete method stays as it is. -/
theorem Defined.steps (hDefined : Defined t m f) (hSteps : Steps t t') : Defined t' m f := by
  have hHeld := hDefined.held
  have hInstr : t.instr f.id = .function m := by rw [hHeld.instr, hDefined.instr]
  rcases hSteps.function f.id m hHeld.isIn hInstr with ⟨hInstr', hTy', hChildren', _⟩
  refine ⟨.of_root ?_ ?_ ?_ ?_ ?_, hDefined.instr, hDefined.coded, hDefined.nodup⟩
  · exact Nat.lt_of_lt_of_le hHeld.isIn hSteps.size_le
  · rw [hInstr', hDefined.instr]
  · rw [hTy', hHeld.ty]
  · rw [hChildren', hHeld.children]
  · intro c hChild
    have hHeldC := hHeld.child hChild
    have hNeat := hDefined.coded.neat.neat c hChild
    have hSame : ∀ n ∈ c.ids, t'.node n = t.node n :=
      fun n hMem => hSteps.inner n (hHeldC.index_lt hMem) (hNeat.isOuter_eq_false hHeldC hMem)
    refine ⟨?_, hHeldC.congr hSteps.size_le hSame⟩
    rw [Tree.parent?, hSame c.id c.id_mem_ids]
    exact hHeld.parent hChild

theorem Arranged.steps (hArranged : Arranged t n) (hSteps : Steps t t') : Arranged t' n := by
  induction hArranged with
  | @group n hIn hGroup _ ih =>
    rcases hSteps.group n hIn hGroup with ⟨hInstr, _, hChildren, _⟩
    refine .group (Nat.lt_of_lt_of_le hIn hSteps.size_le) ?_ ?_
    · rw [hInstr]
      exact hGroup
    · intro c hChild
      rcases hChildren c hChild with hOld | hNew
      · exact ih c hOld
      · exact hNew
  | function hDefined => exact .function (hDefined.steps hSteps)

/- What is below an old node of a tree that has grown. -/
theorem Grown.mem_children (hGrown : Grown t t₁ p fs) (hIn : q.index < t.size) :
    c ∈ t₁.children q ↔ c ∈ t.children q ∨ q = p ∧ ∃ f ∈ fs, f.id = c := by
  by_cases hEq : q = p
  · subst hEq
    rw [hGrown.children, List.mem_append, List.mem_map]
    simp
  · rw [Tree.children, hGrown.outside q hIn hEq, ← Tree.children]
    simp [hEq]

namespace Steps

theorem refl (t : Tree) : Steps t t where
  size_le := Nat.le_refl _
  inner := fun _ _ _ => rfl
  function := fun _ _ _ hInstr => ⟨hInstr, rfl, rfl, .inl rfl⟩
  group := fun _ _ _ => ⟨rfl, rfl, fun _ => .inl, fun _ hChild _ => hChild⟩
  labels := id

theorem trans (hFirst : Steps t t₁) (hSecond : Steps t₁ t₂) : Steps t t₂ where
  size_le := Nat.le_trans hFirst.size_le hSecond.size_le
  inner := by
    intro n hIn hInner
    have hLe := hFirst.size_le
    have hNode := hFirst.inner n hIn hInner
    have hInner₁ : (t₁.instr n).isOuter = false := by
      rw [Tree.instr, hNode]
      exact hInner
    rw [hSecond.inner n (by omega) hInner₁, hNode]
  function := by
    intro n m hIn hInstr
    have hLe := hFirst.size_le
    rcases hFirst.function n m hIn hInstr with ⟨hInstr₁, hTy₁, hChildren₁, hParent₁⟩
    rcases hSecond.function n m (by omega) hInstr₁ with ⟨hInstr₂, hTy₂, hChildren₂, hParent₂⟩
    refine ⟨hInstr₂, hTy₂.trans hTy₁, hChildren₂.trans hChildren₁, ?_⟩
    rcases hParent₂ with hSame | hNone
    · rw [hSame]
      exact hParent₁
    · exact .inr hNone
  group := by
    intro n hIn hGroup
    have hLe := hFirst.size_le
    rcases hFirst.group n hIn hGroup with ⟨hInstr₁, hParent₁, hChildren₁, hKept₁⟩
    rcases hSecond.group n (by omega) (by rw [hInstr₁, hGroup]) with
      ⟨hInstr₂, hParent₂, hChildren₂, hKept₂⟩
    refine ⟨hInstr₂.trans hInstr₁, hParent₂.trans hParent₁, ?_, ?_⟩
    · intro c hChild
      rcases hChildren₂ c hChild with hOld | hNew
      · rcases hChildren₁ c hOld with hOld | hNew
        · exact .inl hOld
        · exact .inr (hNew.steps hSecond)
      · exact .inr hNew
    · intro c hChild hIs
      refine hKept₂ c (hKept₁ c hChild hIs) ?_
      rw [(hFirst.group c (Tree.index_lt_of_isGroup hIs) hIs).1]
      exact hIs
  labels := fun hLabels => hSecond.labels (hFirst.labels hLabels)

/- New definitions below the root or the body of a class. -/
theorem of_grown (hIn : p.index < t.size) (hGroup : (t.instr p).isGroup = true)
    (hGrown : Grown t t₁ p fs) (hNew : ∀ f ∈ fs, Arranged t₁ f.id) : Steps t t₁ where
  size_le := hGrown.size_le
  inner := by
    intro n hN hInner
    refine hGrown.outside n hN ?_
    rintro rfl
    rw [Instr.isOuter_of_isGroup hGroup] at hInner
    contradiction
  function := by
    intro n m hN hInstr
    have hNe : n ≠ p := by
      rintro rfl
      rw [hInstr] at hGroup
      contradiction
    have hNode := hGrown.outside n hN hNe
    simp only [Tree.instr, Tree.ty, Tree.children, Tree.parent?, hNode] at hInstr ⊢
    exact ⟨hInstr, trivial, trivial, .inl trivial⟩
  group := by
    intro n hN _
    refine ⟨hGrown.instr hN, hGrown.parent? hN, ?_, ?_⟩
    · intro c hChild
      rcases (hGrown.mem_children hN).mp hChild with hOld | ⟨_, f, hF, rfl⟩
      · exact .inl hOld
      · exact .inr (hNew f hF)
    · intro c hChild _
      exact (hGrown.mem_children hN).mpr (.inl hChild)
  labels := hGrown.labels

/- A method that is taken off. -/
theorem of_detach (hIn : n.index < t.size) (hInstr : t.instr n = .function m)
    (hParent : ∀ q, t.parent? n = some q → (t.instr q).isGroup = true) : Steps t (t.detach n) := by
  rcases hUp : t.parent? n with _ | q
  · rw [Tree.detach, hUp]
    exact .refl t
  have hGroup := hParent q hUp
  have hQ := Tree.index_lt_of_isGroup hGroup
  have hNe : q ≠ n := by
    rintro rfl
    rw [hInstr] at hGroup
    contradiction
  rcases Tree.nodes_detach hQ hIn hNe hUp with ⟨hSize, hSelf, hQNode, hOther⟩
  constructor
  · omega
  · intro k _ hInner
    refine hOther k ?_ ?_
    · rintro rfl
      rw [Instr.isOuter_of_isGroup hGroup] at hInner
      contradiction
    · rintro rfl
      rw [hInstr] at hInner
      contradiction
  · intro k m' _ hInstr'
    by_cases hEq : k = n
    · subst hEq
      simp only [Tree.instr, Tree.ty, Tree.children, Tree.parent?, hSelf] at hInstr' ⊢
      exact ⟨hInstr', trivial, trivial, .inr trivial⟩
    have hK : k ≠ q := by
      rintro rfl
      rw [hInstr'] at hGroup
      contradiction
    simp only [Tree.instr, Tree.ty, Tree.children, Tree.parent?, hOther k hK hEq] at hInstr' ⊢
    exact ⟨hInstr', trivial, trivial, .inl trivial⟩
  · intro k _ hGroup'
    have hK : k ≠ n := by
      rintro rfl
      rw [hInstr] at hGroup'
      contradiction
    by_cases hEq : k = q
    · subst hEq
      simp only [Tree.instr, Tree.parent?, Tree.children, hQNode]
      refine ⟨trivial, trivial, ?_, ?_⟩
      · intro c hChild
        exact .inl (List.mem_filter.mp hChild).1
      · intro c hChild hIs
        refine List.mem_filter.mpr ⟨hChild, ?_⟩
        rw [decide_eq_true_iff]
        rintro rfl
        rw [← Tree.instr, hInstr] at hIs
        contradiction
    · simp only [Tree.instr, Tree.parent?, Tree.children, hOther k hEq hK]
      exact ⟨trivial, trivial, fun _ => .inl, fun c hChild _ => hChild⟩
  · exact fun hLabels => hLabels.detach n

end Steps

-- Attached Definitions

/- A group that is below the root through groups only. -/
inductive Tree.Attached (t : Tree) : NodeId → Prop where
  | root (hGroup : (t.instr Tree.root).isGroup = true) : Attached t Tree.root
  | inner {p c : NodeId} (hParent : Attached t p) (hChild : c ∈ t.children p)
      (hGroup : (t.instr c).isGroup = true) : Attached t c

/- The function of a method, directly below an attached group. -/
structure Tree.Defines (t : Tree) (m : MethodId) (n : NodeId) : Prop where
  instr : t.instr n = .function m
  attached : ∃ q, t.Attached q ∧ n ∈ t.children q

/- What is below an attached group is there once. -/
structure Tree.Outlined (t : Tree) : Prop where
  nodup : ∀ q, t.Attached q → (t.children q).Nodup
  parent : ∀ q, t.Attached q → ∀ c ∈ t.children q, c.index < t.size ∧ t.parent? c = some q

/- Fragments without a common node have different roots. -/
theorem Fragment.nodup_map_id (hNodup : (fs.flatMap ids).Nodup) : (fs.map id).Nodup := by
  refine List.pairwise_map.mpr ((List.nodup_flatMap.mp hNodup).2.imp ?_)
  intro f g hDisjoint hEq
  exact hDisjoint f.id_mem_ids (hEq ▸ g.id_mem_ids)

namespace Tree

variable {q c : NodeId} {k : MethodId}

theorem Attached.isGroup (hAttached : t.Attached q) : (t.instr q).isGroup = true := by
  cases hAttached with
  | root hGroup | inner _ _ hGroup => exact hGroup

/- A group that is attached stays so. -/
theorem Attached.steps (hAttached : t.Attached q) (hSteps : Steps t t₁) : t₁.Attached q := by
  have hStill : ∀ {q}, (t.instr q).isGroup = true → (t₁.instr q).isGroup = true := by
    intro q hGroup
    rw [(hSteps.group q (index_lt_of_isGroup hGroup) hGroup).1]
    exact hGroup
  induction hAttached with
  | root hGroup => exact .root (hStill hGroup)
  | @inner p c hParent hChild hGroup ih =>
    have hIs := hParent.isGroup
    have hKept := (hSteps.group p (index_lt_of_isGroup hIs) hIs).2.2.2
    exact .inner ih (hKept c hChild hGroup) (hStill hGroup)

namespace Outlined

variable (hOutlined : t.Outlined)
include hOutlined

section

variable (hPlace : t.Attached p) (hGrown : Grown t t₁ p fs)
variable (hNew : ∀ f ∈ fs, f.instr.isGroup = true → f.children = [])
include hPlace hGrown hNew

/- New groups have nothing below them. -/
theorem attached_grown :
    t₁.Attached q ↔ t.Attached q ∨ ∃ f ∈ fs, f.id = q ∧ f.instr.isGroup = true := by
  have hOld : ∀ {q}, t.Attached q → t₁.Attached q := by
    intro q hAttached
    have hInstr : ∀ {q}, (t.instr q).isGroup = true → (t₁.instr q).isGroup = true := by
      intro q hGroup
      rw [hGrown.instr (index_lt_of_isGroup hGroup)]
      exact hGroup
    induction hAttached with
    | root hGroup => exact .root (hInstr hGroup)
    | inner hParent hChild hGroup ih =>
      have hIn := index_lt_of_isGroup hParent.isGroup
      exact .inner ih ((hGrown.mem_children hIn).mpr (.inl hChild)) (hInstr hGroup)
  constructor
  · intro hAttached
    have hRoot : root.index < t.size := by
      have hIn := index_lt_of_isGroup hPlace.isGroup
      exact Nat.lt_of_le_of_lt (Nat.zero_le _) hIn
    induction hAttached with
    | root hGroup =>
      rw [hGrown.instr hRoot] at hGroup
      exact .inl (.root hGroup)
    | @inner q c _ hChild hGroup ih =>
      rcases ih with hAttached | ⟨f, hF, rfl, hIs⟩
      · have hIn := index_lt_of_isGroup hAttached.isGroup
        rcases (hGrown.mem_children hIn).mp hChild with hOldChild | ⟨_, f, hF, rfl⟩
        · have hInC := (hOutlined.parent q hAttached c hOldChild).1
          rw [hGrown.instr hInC] at hGroup
          exact .inl (.inner hAttached hOldChild hGroup)
        · rw [(hGrown.held f hF).2.instr] at hGroup
          exact .inr ⟨f, hF, rfl, hGroup⟩
      · rw [(hGrown.held f hF).2.children, hNew f hF hIs] at hChild
        cases hChild
  · rintro (hAttached | ⟨f, hF, rfl, hIs⟩)
    · exact hOld hAttached
    have hIn := index_lt_of_isGroup hPlace.isGroup
    refine .inner (hOld hPlace) ((hGrown.mem_children hIn).mpr (.inr ⟨rfl, f, hF, rfl⟩)) ?_
    rw [(hGrown.held f hF).2.instr]
    exact hIs

theorem defines_grown :
    t₁.Defines m n ↔ t.Defines m n ∨ ∃ f ∈ fs, f.id = n ∧ f.instr = .function m := by
  have hGroups : ∀ q, t₁.Attached q ↔ t.Attached q ∨ ∃ f ∈ fs, f.id = q ∧ f.instr.isGroup = true :=
    fun _ => hOutlined.attached_grown hPlace hGrown hNew
  constructor
  · rintro ⟨hInstr, q, hAttached, hChild⟩
    rcases (hGroups q).mp hAttached with hOld | ⟨f, hF, rfl, hIs⟩
    · have hIn := index_lt_of_isGroup hOld.isGroup
      rcases (hGrown.mem_children hIn).mp hChild with hOldChild | ⟨_, f, hF, rfl⟩
      · have hInN := (hOutlined.parent q hOld n hOldChild).1
        rw [hGrown.instr hInN] at hInstr
        exact .inl ⟨hInstr, q, hOld, hOldChild⟩
      · rw [(hGrown.held f hF).2.instr] at hInstr
        exact .inr ⟨f, hF, rfl, hInstr⟩
    · rw [(hGrown.held f hF).2.children, hNew f hF hIs] at hChild
      cases hChild
  · rintro (⟨hInstr, q, hAttached, hChild⟩ | ⟨f, hF, rfl, hInstr⟩)
    · have hIn := index_lt_of_isGroup hAttached.isGroup
      refine ⟨?_, q, (hGroups q).mpr (.inl hAttached), (hGrown.mem_children hIn).mpr (.inl hChild)⟩
      rw [hGrown.instr (hOutlined.parent q hAttached n hChild).1]
      exact hInstr
    · have hIn := index_lt_of_isGroup hPlace.isGroup
      refine ⟨?_, p, (hGroups p).mpr (.inl hPlace),
        (hGrown.mem_children hIn).mpr (.inr ⟨rfl, f, hF, rfl⟩)⟩
      rw [(hGrown.held f hF).2.instr]
      exact hInstr

theorem grown : t₁.Outlined := by
  have hSplit : ∀ q, t₁.Attached q → t.Attached q ∨ t₁.children q = [] := by
    intro q hAttached
    rcases (hOutlined.attached_grown hPlace hGrown hNew).mp hAttached with hOld | ⟨f, hF, rfl, hIs⟩
    · exact .inl hOld
    · rw [(hGrown.held f hF).2.children, hNew f hF hIs]
      exact .inr rfl
  constructor
  · intro q hAttached
    rcases hSplit q hAttached with hOld | hNone
    · by_cases hEq : q = p
      · subst hEq
        rw [hGrown.children]
        refine List.nodup_append.mpr ⟨hOutlined.nodup q hOld, ?_, ?_⟩
        · exact Fragment.nodup_map_id hGrown.nodup
        · intro a hA b hB
          rcases List.mem_map.mp hB with ⟨f, hF, rfl⟩
          have hIn := (hOutlined.parent q hOld a hA).1
          have hFresh := hGrown.fresh f.id (List.mem_flatMap.mpr ⟨f, hF, f.id_mem_ids⟩)
          rintro rfl
          omega
      · have hIn := index_lt_of_isGroup hOld.isGroup
        rw [Tree.children, hGrown.outside q hIn hEq]
        exact hOutlined.nodup q hOld
    · rw [hNone]
      exact List.nodup_nil
  · intro q hAttached c hChild
    rcases hSplit q hAttached with hOld | hNone
    · have hIn := index_lt_of_isGroup hOld.isGroup
      rcases (hGrown.mem_children hIn).mp hChild with hOldChild | ⟨rfl, f, hF, rfl⟩
      · rcases hOutlined.parent q hOld c hOldChild with ⟨hInC, hUp⟩
        refine ⟨Nat.lt_of_lt_of_le hInC hGrown.size_le, ?_⟩
        rw [hGrown.parent? hInC, hUp]
      · exact ⟨(hGrown.held f hF).2.isIn, (hGrown.held f hF).1⟩
    · rw [hNone] at hChild
      cases hChild

end

variable (hDefines : t.Defines m n)
include hDefines

/- A function that is taken off. -/
theorem detached : (t.detach n).size = t.size ∧ (∀ k, (t.detach n).instr k = t.instr k)
      ∧ (∀ k, k ≠ n → (t.detach n).parent? k = t.parent? k)
      ∧ ∀ q, t.Attached q → (t.detach n).children q = (t.children q).filter (· ≠ n) := by
  rcases hDefines.attached with ⟨p, hPlace, hChild⟩
  rcases hOutlined.parent p hPlace n hChild with ⟨hIn, hUp⟩
  have hGroup := hPlace.isGroup
  have hNe : p ≠ n := by
    rintro rfl
    rw [hDefines.instr] at hGroup
    contradiction
  rcases nodes_detach (index_lt_of_isGroup hGroup) hIn hNe hUp with ⟨hSize, hSelf, hParent, hOther⟩
  refine ⟨hSize, ?_, ?_, ?_⟩
  · intro k
    by_cases hK : k = n
    · subst hK
      simp only [instr, hSelf]
    by_cases hP : k = p
    · subst hP
      simp only [instr, hParent]
    · simp only [instr, hOther k hP hK]
  · intro k hK
    by_cases hP : k = p
    · subst hP
      simp only [parent?, hParent]
    · simp only [parent?, hOther k hP hK]
  · intro q hAttached
    by_cases hP : q = p
    · subst hP
      simp only [children, hParent]
    have hK : q ≠ n := by
      rintro rfl
      have hIs := hAttached.isGroup
      rw [hDefines.instr] at hIs
      contradiction
    have hSame : (t.detach n).children q = t.children q := by simp only [children, hOther q hP hK]
    rw [hSame, List.filter_eq_self.mpr]
    intro c hC
    rw [decide_eq_true_iff]
    rintro rfl
    rw [(hOutlined.parent q hAttached c hC).2] at hUp
    cases hUp
    exact hP rfl

theorem attached_detach : (t.detach n).Attached q ↔ t.Attached q := by
  rcases hOutlined.detached hDefines with ⟨_, hInstr, _, hChildren⟩
  constructor
  · intro hAttached
    induction hAttached with
    | root hGroup =>
      rw [hInstr] at hGroup
      exact .root hGroup
    | inner _ hChild hGroup ih =>
      rw [hInstr] at hGroup
      rw [hChildren _ ih] at hChild
      exact .inner ih (List.mem_filter.mp hChild).1 hGroup
  · intro hAttached
    induction hAttached with
    | root hGroup => exact .root (by rw [hInstr]; exact hGroup)
    | @inner p c hParent hChild hGroup ih =>
      refine .inner ih ?_ (by rw [hInstr]; exact hGroup)
      rw [hChildren p hParent]
      refine List.mem_filter.mpr ⟨hChild, ?_⟩
      rw [decide_eq_true_iff]
      rintro rfl
      rw [hDefines.instr] at hGroup
      contradiction

theorem defines_detach : (t.detach n).Defines k c ↔ t.Defines k c ∧ c ≠ n := by
  rcases hOutlined.detached hDefines with ⟨_, hInstr, _, hChildren⟩
  constructor
  · rintro ⟨hIs, q, hAttached, hChild⟩
    have hOld := (hOutlined.attached_detach hDefines).mp hAttached
    rw [hInstr] at hIs
    rw [hChildren q hOld, List.mem_filter, decide_eq_true_iff] at hChild
    exact ⟨⟨hIs, q, hOld, hChild.1⟩, hChild.2⟩
  · rintro ⟨⟨hIs, q, hAttached, hChild⟩, hNe⟩
    refine ⟨by rw [hInstr, hIs], q, (hOutlined.attached_detach hDefines).mpr hAttached, ?_⟩
    rw [hChildren q hAttached, List.mem_filter, decide_eq_true_iff]
    exact ⟨hChild, hNe⟩

theorem detach : (t.detach n).Outlined := by
  rcases hOutlined.detached hDefines with ⟨hSize, _, hParent, hChildren⟩
  constructor
  · intro q hAttached
    have hOld := (hOutlined.attached_detach hDefines).mp hAttached
    rw [hChildren q hOld]
    exact (hOutlined.nodup q hOld).filter _
  · intro q hAttached c hChild
    have hOld := (hOutlined.attached_detach hDefines).mp hAttached
    rw [hChildren q hOld, List.mem_filter, decide_eq_true_iff] at hChild
    rw [hSize, hParent c hChild.2]
    exact hOutlined.parent q hOld c hChild.1

end Outlined

end Tree

-- Places Of Definitions

/- The root or the body of a class, where definitions come. -/
structure Grouping (t : Tree) (p : NodeId) : Prop where
  isOpen : Open t p
  attached : t.Attached p
  place : t.instr p = .root ∧ t.parent? p = none ∨ ∃ c, t.instr p = .classBody c

namespace Grouping

theorem isGroup (hPlace : Grouping t p) : (t.instr p).isGroup = true := by
  rcases hPlace.place with ⟨hInstr, _⟩ | ⟨c, hInstr⟩
  · rw [hInstr]
    rfl
  · rw [hInstr]
    rfl

/- A place of definitions stays one. -/
theorem steps (hPlace : Grouping t p) (hSteps : Steps t t') : Grouping t' p := by
  rcases hSteps.group p hPlace.isOpen.isIn hPlace.isGroup with ⟨hInstr, hParent, hChildren, _⟩
  have hLe := hSteps.size_le
  refine ⟨⟨Nat.lt_of_lt_of_le hPlace.isOpen.isIn hLe, ?_⟩, hPlace.attached.steps hSteps, ?_⟩
  · intro c hChild
    rcases hChildren c hChild with hOld | hNew
    · exact Nat.lt_of_lt_of_le (hPlace.isOpen.children c hOld) hLe
    · exact hNew.isIn
  · rw [hInstr, hParent]
    exact hPlace.place

end Grouping

end Code

-- Evolving Programs

/- A method that the host provides has no code of its own. -/
def Method.IsApart (x : Method) : Prop :=
  x.flags.imported = true → x.flags.implemented = false ∧ x.flags.synthesized = false

theorem Method.Marked.isApart {x y : Method} (hMarked : x.Marked False y) (hApart : x.IsApart) :
    y.IsApart := by
  intro hImported
  have hOld := hMarked.unimported id hImported
  rcases hApart hOld with ⟨hNo, hFree⟩
  refine ⟨hMarked.implemented_eq.trans hNo, ?_⟩
  by_contra hIs
  rcases hMarked.synthesized (by simpa using hIs) with hWas | hNot
  · rw [hFree] at hWas
    contradiction
  · rw [hOld] at hNot
    exact absurd hNot.2 (by simp)

/- A method that has code, of its own or from the host. -/
def Method.IsLinked (x : Method) : Prop :=
  x.isWritten = true ∨ x.flags.imported = true

/- Code that is what the compiler provides, if it does. -/
def Method.Provides (x : Method) (fs : List Fragment) : Prop :=
  x.flags.synthesized = true → Translation.Provides x.owner x.name x.scope fs

theorem Method.Provides.same {x y : Method} (hProvides : x.Provides fs) (hSame : x.Same y)
    (hStill : y.flags.synthesized = true → x.flags.synthesized = true) : y.Provides fs := by
  intro hIs
  rw [hSame.owner_eq, hSame.name_eq, hSame.scope_eq]
  exact hProvides (hStill hIs)

/-
  What holds of a method between two definitions: its body is its function in the tree, whose
  accesses fit the fields of its class, and which is what the compiler provides under its name
  if it does; it is implemented if it has one, it belongs to a class if it has code, it has no
  locals if it has no code of the program, and it has code if it is exported.  While it gets its
  code anew, it may be without.
-/
structure InOrder (isBusy : Prop) (ctx : Context) (m : MethodId) : Prop where
  body : ∀ n, (ctx.program.method m).body = some n ↔ ctx.tree.Defines m n
  code : ∀ n, (ctx.program.method m).body = some n →
      ∃ f, f.id = n ∧ Defined ctx.tree m f ∧ f.Accesses (ctx.program.Allows m)
        ∧ (ctx.program.method m).Provides f.children
  implemented : (ctx.program.method m).body ≠ none → (ctx.program.method m).flags.implemented = true
  complete : ¬ isBusy → (ctx.program.method m).flags.implemented = true →
      (ctx.program.method m).body ≠ none
  bare : (ctx.program.method m).Bare
  apart : (ctx.program.method m).IsApart
  owned : (ctx.program.method m).body ≠ none ∨ (ctx.program.method m).flags.imported = true →
      ctx.program.Owned m
  exports : ∀ e ∈ ctx.program.exports, e.target = .method m → (ctx.program.method m).IsLinked

/- A method without a body, from what is known of it. -/
theorem InOrder.of_bodiless {isBusy : Prop} {x : Method} (hMethod : ctx.program.method m = x)
    (hBody : x.body = none) (hNone : ∀ n, ¬ ctx.tree.Defines m n)
    (hComplete : ¬ isBusy → x.flags.implemented = false) (hBare : x.Bare) (hApart : x.IsApart)
    (hOwned : x.flags.imported = true → ctx.program.Owned m)
    (hExports : ∀ e ∈ ctx.program.exports, e.target = .method m → x.IsLinked) :
    InOrder isBusy ctx m := by
  subst hMethod
  refine ⟨?_, ?_, ?_, ?_, hBare, hApart, ?_, hExports⟩
  · simp [hBody, hNone]
  · simp [hBody]
  · simp [hBody]
  · intro hFree
    simp [hComplete hFree]
  · simpa [hBody] using hOwned

/- A method that is not concerned stays in order. -/
theorem InOrder.of_same {isBusy isBusy' : Prop} {busy : Option MethodId}
    (hOrder : InOrder isBusy ctx m) (hBusy : isBusy → isBusy') (hSteps : Steps ctx.tree ctx'.tree)
    (hLasts : Lasts busy ctx.program ctx'.program)
    (hDefines : ∀ n, ctx'.tree.Defines m n ↔ ctx.tree.Defines m n)
    (hBody : (ctx'.program.method m).body = (ctx.program.method m).body)
    (hMarked : (ctx.program.method m).Marked False (ctx'.program.method m))
    (hExports : ∀ e ∈ ctx'.program.exports, e.target = .method m → e ∈ ctx.program.exports) :
    InOrder isBusy' ctx' m where
  body := by
    intro n
    rw [hBody, hDefines]
    exact hOrder.body n
  code := by
    intro n hIs
    rw [hBody] at hIs
    rcases hOrder.code n hIs with ⟨f, hId, hDefined, hAllows, hProvides⟩
    refine ⟨f, hId, hDefined.steps hSteps, hAllows.mono fun _ hIs => hIs.lasts hLasts, ?_⟩
    refine hProvides.same (hLasts.same m (index_lt_of_body hIs)) fun hNow => ?_
    refine (hMarked.synthesized hNow).resolve_right fun hNot => ?_
    rw [hOrder.implemented (by simp [hIs])] at hNot
    cases hNot.1
  implemented := by
    rw [hBody, hMarked.implemented_eq]
    exact hOrder.implemented
  complete := by
    rw [hBody, hMarked.implemented_eq]
    exact fun hFree => hOrder.complete fun hIs => hFree (hBusy hIs)
  bare := hMarked.bare hOrder.bare
  apart := hMarked.isApart hOrder.apart
  owned := by
    rw [hBody]
    exact fun hHas => (hOrder.owned (hHas.imp_right (hMarked.unimported id))).lasts hLasts
  exports := by
    intro e hMem hTarget
    rcases hOrder.exports e (hExports e hMem hTarget) hTarget with hIs | hIs
    · exact .inl (hMarked.isWritten hIs)
    · exact .inr (hMarked.imported hIs)

/- A program in which all methods but perhaps one are complete. -/
structure Settled (busy : Option MethodId) (ctx : Context) : Prop where
  root : Grouping ctx.tree Tree.root
  rootInstr : ctx.tree.instr Tree.root = .root
  outlined : ctx.tree.Outlined
  regular : ctx.program.Regular
  inOrder : ∀ m, InOrder (busy = some m) ctx m

/- A program in which every method is complete. -/
abbrev Rooted :=
  Settled none

namespace Settled

variable {busy : Option MethodId}

theorem while_busy (hRooted : Rooted ctx) : Settled busy ctx := by
  refine ⟨hRooted.root, hRooted.rootInstr, hRooted.outlined, hRooted.regular, fun m => ?_⟩
  exact (hRooted.inOrder m).of_same (by simp) (.refl _)
    (.refl none _) (fun _ => .rfl) rfl (.refl _) fun _ hMem _ => hMem

/- Names that are declared. -/
theorem declares (hSettled : Settled busy ctx) (hTree : ctx'.tree = ctx.tree)
    (hDeclares : Declares none ctx.program ctx'.program) : Settled busy ctx' := by
  refine ⟨hTree ▸ hSettled.root, hTree ▸ hSettled.rootInstr, hTree ▸ hSettled.outlined,
    hSettled.regular.lasts hDeclares.lasts, ?_⟩
  intro m
  refine (hSettled.inOrder m).of_same id (hTree ▸ .refl _) hDeclares.lasts ?_ (hDeclares.body_eq m)
    (by simpa using hDeclares.marked m) ?_
  · rw [hTree]
    exact fun _ => .rfl
  · intro e hMem hTarget
    rcases hDeclares.exports e hMem with hOld | hNew
    · exact hOld
    · cases hNew m hTarget

theorem rootInstr_steps (hSettled : Settled busy ctx) (hSteps : Steps ctx.tree ctx'.tree) :
    ctx'.tree.instr Tree.root = .root := by
  have hRoot := hSettled.root
  rw [(hSteps.group _ hRoot.isOpen.isIn hRoot.isGroup).1]
  exact hSettled.rootInstr

/- One method changes, and the others are not concerned. -/
theorem replace (hSettled : Settled (some m) ctx)
    (hSteps : Steps ctx.tree ctx'.tree) (hLasts : Lasts busy' ctx.program ctx'.program)
    (hOutlined : ctx'.tree.Outlined)
    (hDefines : ∀ k, k ≠ m → ∀ n, ctx'.tree.Defines k n ↔ ctx.tree.Defines k n)
    (hOthers : ∀ k, k ≠ m → (ctx'.program.method k).body = (ctx.program.method k).body
          ∧ (ctx.program.method k).Marked False (ctx'.program.method k))
    (hExports :
      ∀ e ∈ ctx'.program.exports, ∀ k, k ≠ m → e.target = .method k → e ∈ ctx.program.exports)
    (hOwn : InOrder (busy = some m) ctx' m) : Settled busy ctx' := by
  refine ⟨hSettled.root.steps hSteps, hSettled.rootInstr_steps hSteps,
    hOutlined, hSettled.regular.lasts hLasts, fun k => ?_⟩
  by_cases hEq : k = m
  · rw [hEq]
    exact hOwn
  rcases hOthers k hEq with ⟨hBody, hMarked⟩
  refine (hSettled.inOrder k).of_same ?_ hSteps hLasts (hDefines k hEq) hBody hMarked
    fun e hMem => hExports e hMem k hEq
  simp [Ne.symm hEq]

/- New classes, which have nothing below them. -/
theorem grown (hSettled : Settled busy ctx) (hPlace : Grouping ctx.tree p)
    (hSteps : Steps ctx.tree ctx'.tree) (hGrown : Grown ctx.tree ctx'.tree p fs)
    (hNew : ∀ f ∈ fs, f.instr.isGroup = true ∧ f.children = [])
    (hProgram : ctx'.program = ctx.program) : Settled busy ctx' := by
  have hEmpty : ∀ f ∈ fs, f.instr.isGroup = true → f.children = [] := fun f hF _ => (hNew f hF).2
  have hLasts : Lasts none ctx.program ctx'.program := by
    rw [hProgram]
    exact .refl none _
  refine ⟨hSettled.root.steps hSteps, hSettled.rootInstr_steps hSteps, hSettled.outlined.grown
    hPlace.attached hGrown hEmpty, hSettled.regular.lasts hLasts, ?_⟩
  intro m
  refine (hSettled.inOrder m).of_same id hSteps hLasts ?_ (by rw [hProgram]) ?_ ?_
  · intro n
    rw [hSettled.outlined.defines_grown hPlace.attached hGrown hEmpty, or_iff_left]
    rintro ⟨f, hF, _, hInstr⟩
    have hIs := (hNew f hF).1
    rw [hInstr] at hIs
    contradiction
  · rw [hProgram]
    exact .refl _
  · rw [hProgram]
    exact fun _ hMem _ => hMem

end Settled

/- What happens to a program outside of methods. -/
structure EvolvesTo (busy : Option MethodId) (ctx ctx' : Context) : Prop where
  options_eq : ctx'.options = ctx.options
  tree : Steps ctx.tree ctx'.tree
  names : Lasts none ctx.program ctx'.program
  rooted : Settled busy ctx'

theorem EvolvesTo.trans (hFirst : EvolvesTo before ctx ctx₁) (hSecond : EvolvesTo after ctx₁ ctx₂) :
    EvolvesTo after ctx ctx₂ :=
  ⟨hSecond.options_eq.trans hFirst.options_eq, hFirst.tree.trans hSecond.tree, hFirst.names.trans
    hSecond.names, hSecond.rooted⟩

/- A step after which every method is complete. -/
abbrev Evolves :=
  EvolvesTo none

/- A step outside of methods, if every method is complete. -/
def Evolving (ctx ctx' : Context) : Prop :=
  Rooted ctx → Evolves ctx ctx'

instance : Lasting Evolving where
  refl := fun ctx hRooted => ⟨rfl, .refl ctx.tree, .refl none ctx.program, hRooted⟩
  trans := by
    intro ctx₁ ctx₂ ctx₃ hFirst hSecond hRooted
    have hOne := hFirst hRooted
    exact hOne.trans (hSecond hOne.rooted)

namespace Evolving

/- Names that are declared. -/
theorem of_declares (hOptions : ctx'.options = ctx.options) (hTree : ctx'.tree = ctx.tree)
    (hDeclares : Declares none ctx.program ctx'.program) : Evolving ctx ctx' := by
  intro hRooted
  refine ⟨hOptions, ?_, hDeclares.lasts, hRooted.declares hTree hDeclares⟩
  rw [hTree]
  exact .refl ctx.tree

theorem of_declaring (hDeclaring : Declaring none ctx ctx') : Evolving ctx ctx' := by
  have hSame := hDeclaring.same
  exact of_declares (by rw [hSame]) (by rw [hSame]) hDeclaring.program

end Evolving

end RubyWat
