import RubyWat.Proofs.Fragment

/-
  The edits of a code tree as edits of fragments.

  Main statements: adding a node grows its parent, and giving a node other content, putting a
  node above it, taking children off it and moving children around are edits in place.
-/

-- Adding And Changing Nodes

namespace RubyWat

open Code List

variable {c f : Fragment} {instr : Instr} {n p : NodeId}
variable {t : Tree} {after before : List Fragment}

namespace Code

/- A node without children. -/
abbrev Fragment.leaf (n : NodeId) (instr : Instr) (ty : ValueType) : Fragment :=
  { id := n, instr, ty }

@[simp] theorem Fragment.ids_leaf (n : NodeId) (instr : Instr) (ty : ValueType) :
    (Fragment.leaf n instr ty).ids = [n] := by
  rw [Fragment.ids_eq]
  rfl

/- A new node is held as soon as it is there. -/
theorem Held.leaf {t₀ : Tree} {ty : ValueType} {parent : Option NodeId} (hIn : n.index < t.size)
    (hNode : t.node n = { t₀.newNode instr ty with parent }) : Held t (.leaf n instr ty) := by
  apply Held.of_root
  · exact hIn
  · simp [Tree.instr, hNode, Tree.newNode]
  · simp [Tree.ty, hNode, Tree.newNode]
  · simp [Tree.children, hNode, Tree.newNode]
  · simp

/- A fragment whose root is hung elsewhere. -/
theorem Held.rehung {parent : Option NodeId} (hHeld : Held t f) (hNodup : f.ids.Nodup)
    (hSize : t.size ≤ t'.size) (hRoot : t'.node f.id = { t.node f.id with parent })
    (hBelow : ∀ n ∈ f.children.flatMap Fragment.ids, t'.node n = t.node n) : Held t' f := by
  apply Held.of_root
  · exact Nat.lt_of_lt_of_le hHeld.isIn hSize
  · simpa [Tree.instr, hRoot] using hHeld.instr
  · simpa [Tree.ty, hRoot] using hHeld.ty
  · simpa [Tree.children, hRoot] using hHeld.children
  · exact ((hHeld.row hNodup).congr hSize hBelow).held

namespace Tree

/- The nodes after a node was hung below another. -/
theorem size_attachLast (t : Tree) (p n : NodeId) : (t.attachLast p n).size = t.size := by
  simp [attachLast]

theorem node_attachLast_parent (hIn : p.index < t.size) (hNe : p ≠ n) :
    (t.attachLast p n).node p = { t.node p with children := t.children p ++ [n] } := by
  unfold attachLast setChildren setParent
  rw [node_modify_self (by rwa [size_modify]), node_modify_of_ne hNe]

theorem node_attachLast_self (hIn : n.index < t.size) (hNe : p ≠ n) :
    (t.attachLast p n).node n = { t.node n with parent := some p } := by
  unfold attachLast setChildren setParent
  rw [node_modify_of_ne (Ne.symm hNe), node_modify_self hIn]

theorem node_attachLast_other (hParent : k ≠ p) (hSelf : k ≠ n) :
    (t.attachLast p n).node k = t.node k := by
  unfold attachLast setChildren setParent
  rw [node_modify_of_ne hParent, node_modify_of_ne hSelf]

/- A new node grows its parent. -/
theorem grown_add (hOpen : Open t p) (instr : Instr) (ty : ValueType) :
    (t.add p instr ty).1 = ⟨t.size⟩ ∧ Grown t (t.add p instr ty).2 p [.leaf ⟨t.size⟩ instr ty] := by
  refine ⟨rfl, ?_⟩
  have hIn := hOpen.isIn
  have hNe := ne_of_index_lt hIn
  have hInNew : p.index < (t.create instr ty).2.size := by
    simp only [size_create]
    omega
  have hNewIn : (⟨t.size⟩ : NodeId).index < (t.create instr ty).2.size := by simp
  have hAdd : (t.add p instr ty).2 = (t.create instr ty).2.attachLast p ⟨t.size⟩ := rfl
  have hParent := node_create_old hIn instr ty
  have hNew := t.node_create_new instr ty
  rw [hAdd]
  constructor
  · simp [size_attachLast]
  · intro n hN hP
    rw [node_attachLast_other hP (ne_of_index_lt hN), node_create_old hN]
  · rw [node_attachLast_parent hInNew hNe, Tree.children, hParent]
    rfl
  · intro f hMem
    rcases mem_singleton.mp hMem with rfl
    have hNode := node_attachLast_self hNewIn hNe
    rw [hNew] at hNode
    exact ⟨by simp [Tree.parent?, hNode], .leaf (by simp [size_attachLast]) hNode⟩
  · simp
  · simp
  · exact fun hLabels => hLabels.add p instr ty

end Tree

/- A root with another instruction and type. -/
theorem Edited.of_content (hHung : Hung t p f) (span : Span)
    (hSize : t'.size = t.size) (hOthers : ∀ n, n ≠ f.id → t'.node n = t.node n)
    (hRoot : t'.node f.id = { t.node f.id with instr, ty, span })
    (hLabels : t.Labelled → t'.Labelled) : Edited t t' p f { f with instr, ty } := by
  have hLe := Nat.le_of_eq hSize.symm
  refine .step (.refl hHung) hLe ?_ ?_ ?_ ?_ ?_ (hHung.row.congr hLe ?_) ?_ hLabels
  · intro n _ hNot _
    apply hOthers
    rintro rfl
    exact hNot f.id_mem_ids
  · simp [Tree.instr, hRoot]
  · simp [Tree.ty, hRoot]
  · simpa [Tree.children, hRoot] using hHung.held.children
  · simp [Tree.parent?, hRoot]
  · exact fun n hMem => hOthers n (hHung.row.ne_of_mem hMem)
  · intro n hMem
    rw [Fragment.ids_eq]
    exact .inl (.tail f.id hMem)

namespace Tree

theorem edited_setNode (hHung : Hung t p f) (hLabel : instr.takesLabel = false) (ty : ValueType) :
    Edited t ((t.setInstr f.id instr).setTy f.id ty) p f { f with instr, ty } := by
  have hIn := hHung.held.isIn
  apply Edited.of_content hHung (t.node f.id).span
  · simp
  · intro n hNe
    unfold setTy setInstr
    rw [node_modify_of_ne hNe, node_modify_of_ne hNe]
  · unfold setTy setInstr
    have hIn' : f.id.index < (t.modify f.id fun x => { x with instr }).size := by
      rwa [size_modify]
    rw [node_modify_self hIn', node_modify_self hIn]
  · exact fun hLabels => (hLabels.setInstr hLabel f.id).setTy f.id ty

theorem edited_setTy (hHung : Hung t p f) (ty : ValueType) :
    Edited t (t.setTy f.id ty) p f { f with ty } := by
  have hIn := hHung.held.isIn
  have hInstr := hHung.held.instr
  apply Edited.of_content hHung (t.node f.id).span
  · simp
  · intro n hNe
    exact node_modify_of_ne hNe _
  · rw [← hInstr]
    exact node_modify_self hIn _
  · exact fun hLabels => hLabels.setTy f.id ty

theorem edited_setSpan (hHung : Hung t p f) (span : Span) :
    Edited t (t.setSpan f.id span) p f f := by
  have hIn := hHung.held.isIn
  have hSame :
      { t.node f.id with instr := f.instr, ty := f.ty, span } = { t.node f.id with span } := by
    rw [← hHung.held.instr, ← hHung.held.ty]
    rfl
  rcases f with ⟨n, instr, ty, children⟩
  refine Edited.of_content hHung span (size_setSpan t n span) ?_ ?_ ?_
  · intro k hNe
    exact node_modify_of_ne hNe _
  · exact (node_modify_self hIn _).trans hSame.symm
  · exact fun hLabels => hLabels.setSpan n span

-- Nodes Above And In Front

/- The nodes after another node was put above one of them. -/
theorem nodes_insertAbove (hP : p.index < t.size) (hN : n.index < t.size) (hNe : p ≠ n)
    (hParent : t.parent? n = some p) (instr : Instr) (ty : ValueType) :
    (t.insertAbove n instr ty).2.size = t.size + 1
      ∧ (t.insertAbove n instr ty).2.node ⟨t.size⟩ = { t.newNode instr ty with
            span := t.span n
            parent := some p
            children := [n] }
      ∧ (t.insertAbove n instr ty).2.node p = { t.node p with
            children := replaceFirst n ⟨t.size⟩ (t.children p) }
      ∧ (t.insertAbove n instr ty).2.node n = { t.node n with parent := some ⟨t.size⟩ }
      ∧ ∀ k : NodeId, k.index < t.size → k ≠ p → k ≠ n →
          (t.insertAbove n instr ty).2.node k = t.node k := by
  have hPNew := ne_of_index_lt hP
  have hNNew := ne_of_index_lt hN
  simp only [insertAbove, hParent, create_fst]
  unfold setChildren setParent setSpan
  refine ⟨by simp, ?_, ?_, ?_, ?_⟩
  · rw [node_modify_self (by simp), node_modify_of_ne hNNew.symm,
      node_modify_self (by simp), node_modify_of_ne hPNew.symm,
      node_modify_self (by simp), node_create_new]
  · rw [node_modify_of_ne hPNew, node_modify_of_ne hNe, node_modify_of_ne hPNew,
      node_modify_self (by simpa using Nat.lt_succ_of_lt hP),
      node_modify_of_ne hPNew, node_create_old hP]
  · rw [node_modify_of_ne hNNew, node_modify_self (by simpa using Nat.lt_succ_of_lt hN),
      node_modify_of_ne hNNew, node_modify_of_ne hNe.symm,
      node_modify_of_ne hNNew, node_create_old hN]
  · intro k hK hKP hKN
    have hKNew := ne_of_index_lt hK
    rw [node_modify_of_ne hKNew, node_modify_of_ne hKN, node_modify_of_ne hKNew,
      node_modify_of_ne hKP, node_modify_of_ne hKNew, node_create_old hK]

/- A new node in the place of a fragment takes it as its child. -/
theorem edited_insertAbove (hHung : Hung t p f) (instr : Instr) (ty : ValueType) :
    Edited t (t.insertAbove f.id instr ty).2 p f
      { id := ⟨t.size⟩, instr, ty, children := [f] } := by
  have hP := hHung.isOpen.isIn
  have hF := hHung.held.isIn
  have hRow := hHung.row
  have hNotMem := hHung.notMem
  rcases nodes_insertAbove hP hF hHung.ne_root hHung.parent instr ty with
    ⟨hSize, hNew, hLink, hRoot, hOthers⟩
  have hHeldF : Held (t.insertAbove f.id instr ty).2 f := by
    refine hHung.held.rehung hHung.nodup (by omega) hRoot fun k hMem => ?_
    refine hOthers k (hRow.index_lt hMem) ?_ (hRow.ne_of_mem hMem)
    rintro rfl
    rw [Fragment.ids_eq] at hNotMem
    exact hNotMem (.tail f.id hMem)
  constructor
  · exact hHung
  · omega
  · intro k hK hNot hKP
    refine hOthers k hK hKP ?_
    rintro rfl
    exact hNot f.id_mem_ids
  · exact hLink
  · apply Held.of_root
    · simp [hSize]
    · simp [Tree.instr, hNew, newNode]
    · simp [Tree.ty, hNew, newNode]
    · simp [Tree.children, hNew]
    · intro c hChild
      rcases mem_singleton.mp hChild with rfl
      exact ⟨by simp [Tree.parent?, hRoot], hHeldF⟩
  · simp [Tree.parent?, hNew]
  · intro k hMem
    rw [Fragment.ids_eq] at hMem
    rcases mem_cons.mp hMem with rfl | hBelow
    · exact .inr (Nat.le_refl _)
    · exact .inl (by simpa using hBelow)
  · exact .inr (Nat.le_refl _)
  · rw [Fragment.ids_eq]
    simp only [flatMap_cons, flatMap_nil, append_nil, nodup_cons]
    refine ⟨?_, hHung.nodup⟩
    intro hMem
    exact Nat.lt_irrefl _ (hHung.held.index_lt hMem)
  · exact fun hLabels => hLabels.insertAbove f.id instr ty

/- The nodes after a new node was put before all children. -/
theorem nodes_prepend (hN : n.index < t.size) (instr : Instr) (ty : ValueType) :
    ((t.create instr ty).2.prependChild n ⟨t.size⟩).size = t.size + 1
      ∧ ((t.create instr ty).2.prependChild n ⟨t.size⟩).node ⟨t.size⟩
        = { t.newNode instr ty with parent := some n }
      ∧ ((t.create instr ty).2.prependChild n ⟨t.size⟩).node n
        = { t.node n with children := ⟨t.size⟩ :: t.children n }
      ∧ ∀ k : NodeId, k.index < t.size → k ≠ n →
          ((t.create instr ty).2.prependChild n ⟨t.size⟩).node k = t.node k := by
  have hNNew := ne_of_index_lt hN
  have hLoose : (t.create instr ty).2.parent? ⟨t.size⟩ = none := by
    rw [Tree.parent?, node_create_new]
    rfl
  have hDetach : (t.create instr ty).2.detach ⟨t.size⟩ = (t.create instr ty).2 := by
    simp only [detach, hLoose]
  unfold prependChild
  rw [hDetach]
  unfold setChildren setParent
  refine ⟨by simp, ?_, ?_, ?_⟩
  · rw [node_modify_of_ne hNNew.symm, node_modify_self (by simp), node_create_new]
  · rw [node_modify_self (by simpa using Nat.lt_succ_of_lt hN),
      node_modify_of_ne hNNew, Tree.children, node_create_old hN]
    rfl
  · intro k hK hKN
    rw [node_modify_of_ne hKN, node_modify_of_ne (ne_of_index_lt hK), node_create_old hK]

/- A new first child of a fragment. -/
theorem edited_prepend (hHung : Hung t p f) (instr : Instr) (ty : ValueType) :
    Edited t ((t.create instr ty).2.prependChild f.id ⟨t.size⟩) p f
      { f with children := .leaf ⟨t.size⟩ instr ty :: f.children } := by
  rcases nodes_prepend hHung.held.isIn instr ty with ⟨hSize, hNew, hRoot, hOthers⟩
  have hRow := hHung.row
  have hLe : t.size ≤ ((t.create instr ty).2.prependChild f.id ⟨t.size⟩).size := by omega
  have hLeaf : Row ((t.create instr ty).2.prependChild f.id ⟨t.size⟩) f.id
        [.leaf ⟨t.size⟩ instr ty] := by
    refine .single ?_ (.leaf (by simp [hSize]) hNew) (by simp) ?_
    · simp [Tree.parent?, hNew]
    · rw [Fragment.ids_leaf, mem_singleton]
      intro hEq
      exact Nat.lt_irrefl _ (hEq ▸ hHung.held.isIn)
  refine .of_row hHung hLe ?_ ?_ (hLeaf.append (hRow.congr hLe ?_) ?_) ?_ ?_
  · intro k hK hNot
    refine hOthers k hK ?_
    rintro rfl
    exact hNot f.id_mem_ids
  · simp [hRoot, hHung.held.children]
  · exact fun k hMem => hOthers k (hRow.index_lt hMem) (hRow.ne_of_mem hMem)
  · intro k hMem hIs
    have := hRow.index_lt hIs
    simp only [flatMap_cons, Fragment.ids_leaf, flatMap_nil, append_nil, mem_singleton] at hMem
    simp [hMem] at this
  · intro k hMem
    simp only [flatMap_cons, Fragment.ids_leaf, singleton_append, mem_cons] at hMem
    rcases hMem with rfl | hBelow
    · exact .inr (Nat.le_refl _)
    · exact .inl hBelow
  · exact fun hLabels => (hLabels.create instr ty).prependChild f.id _

-- Children Taken Off

/- Forgetting parents leaves all other nodes alone. -/
theorem node_forgetParents {ns : List NodeId} (hNot : n ∉ ns) (t : Tree) :
    (ns.foldl (fun t c => t.setParent c none) t).node n = t.node n := by
  induction ns generalizing t with
  | nil => rfl
  | cons k rest ih =>
    rw [mem_cons, not_or] at hNot
    rw [foldl_cons, ih hNot.2]
    exact node_modify_of_ne hNot.1 _

@[simp] theorem size_forgetParents (ns : List NodeId) (t : Tree) :
    (ns.foldl (fun t c => t.setParent c none) t).size = t.size := by
  induction ns generalizing t with
  | nil => rfl
  | cons k rest ih => rw [foldl_cons, ih, size_setParent]

/- A root without children and with another instruction. -/
theorem edited_clear (hHung : Hung t p f) (hLabel : instr.takesLabel = false) :
    Edited t ((t.clearChildren f.id).setInstr f.id instr) p f (.leaf f.id instr f.ty) := by
  have hIn := hHung.held.isIn
  have hMemIds : ∀ k ∈ t.children f.id, k ∈ f.ids ∧ k ≠ f.id := by
    rw [hHung.held.children]
    intro k hMem
    rcases mem_map.mp hMem with ⟨c, hChild, rfl⟩
    exact ⟨Fragment.mem_ids_of_child hChild c.id_mem_ids,
      hHung.row.ne_of_mem (mem_flatMap.mpr ⟨c, hChild, c.id_mem_ids⟩)⟩
  have hOthers : ∀ k, k ∉ f.ids → ((t.clearChildren f.id).setInstr f.id instr).node k
          = t.node k := by
    intro k hNot
    have hRoot : k ≠ f.id := by
      rintro rfl
      exact hNot f.id_mem_ids
    unfold setInstr clearChildren setChildren
    rw [node_modify_of_ne hRoot, node_forgetParents, node_modify_of_ne hRoot]
    exact fun hMem => hNot (hMemIds k hMem).1
  have hRoot : ((t.clearChildren f.id).setInstr f.id instr).node f.id
        = { t.node f.id with instr, children := [] } := by
    unfold setInstr clearChildren setChildren
    rw [node_modify_self (by simpa using hIn), node_forgetParents, node_modify_self hIn]
    exact fun hMem => (hMemIds f.id hMem).2 rfl
  have hSize : ((t.clearChildren f.id).setInstr f.id instr).size = t.size := by simp [clearChildren]
  have hRow : Row ((t.clearChildren f.id).setInstr f.id instr) f.id [] :=
    ⟨by simp, by simp, by simp⟩
  refine .step (.refl hHung) (Nat.le_of_eq hSize.symm) (fun k _ hNot _ => hOthers k hNot)
    ?_ ?_ ?_ ?_ hRow (by simp) ?_
  · simp [Tree.instr, hRoot]
  · simpa [Tree.ty, hRoot] using hHung.held.ty
  · simp [Tree.children, hRoot]
  · simp [Tree.parent?, hRoot]
  · exact fun hLabels => (hLabels.clearChildren f.id).setInstr hLabel f.id

/- The nodes after a child was taken off. -/
theorem nodes_detach (hP : p.index < t.size) (hN : n.index < t.size) (hNe : p ≠ n)
    (hParent : t.parent? n = some p) :
    (t.detach n).size = t.size ∧ (t.detach n).node n = { t.node n with parent := none }
      ∧ (t.detach n).node p = { t.node p with children := (t.children p).filter (· ≠ n) }
      ∧ ∀ k, k ≠ p → k ≠ n → (t.detach n).node k = t.node k := by
  simp only [detach, hParent]
  unfold setChildren setParent
  refine ⟨by simp, ?_, ?_, ?_⟩
  · rw [node_modify_of_ne hNe.symm, node_modify_self hN]
  · rw [node_modify_self (by simpa using hP), node_modify_of_ne hNe]
  · intro k hKP hKN
    rw [node_modify_of_ne hKP, node_modify_of_ne hKN]

/- One node left out of a list of children. -/
theorem filter_ne_children (hNodup : ((before ++ c :: after).flatMap Fragment.ids).Nodup) :
    ((before ++ c :: after).map Fragment.id).filter (· ≠ c.id)
      = (before ++ after).map Fragment.id := by
  have hOther : ∀ g, g ∈ before ∨ g ∈ after → g.id ≠ c.id := by
    intro g hG hEq
    exact Fragment.disjoint_of_nodup hNodup hG g.id_mem_ids (hEq ▸ c.id_mem_ids)
  simp only [map_append, map_cons, filter_append]
  congr 1
  · rw [filter_eq_self]
    intro k hMem
    rcases mem_map.mp hMem with ⟨g, hG, rfl⟩
    simpa using hOther g (.inl hG)
  · rw [filter_cons_of_neg (by simp), filter_eq_self]
    intro k hMem
    rcases mem_map.mp hMem with ⟨g, hG, rfl⟩
    simpa using hOther g (.inr hG)

/- A child taken off a fragment.  It is still held, without a parent. -/
theorem edited_detach (hHung : Hung t p f) (hChildren : f.children = before ++ c :: after) :
    Edited t (t.detach c.id) p f { f with children := before ++ after } ∧ Held (t.detach c.id) c
      ∧ (t.detach c.id).parent? c.id = none := by
  have hChild : c ∈ f.children := by simp [hChildren]
  have hRow := hHung.row
  have hRowC := (hHung.child hChild).row
  have hFC : f.id ≠ c.id := (hRow.ne_of_mem (mem_flatMap.mpr ⟨c, hChild, c.id_mem_ids⟩)).symm
  rcases nodes_detach hHung.held.isIn (hHung.held.child hChild).isIn hFC
    (hHung.held.parent hChild) with ⟨hSize, hSelf, hRoot, hOthers⟩
  have hLe : t.size ≤ (t.detach c.id).size := Nat.le_of_eq hSize.symm
  rw [hChildren] at hRow
  have hSub : (before ++ after).Sublist (before ++ c :: after) := by simp
  have hRest := hRow.sublist hSub
  refine ⟨?_, ?_, by simp [Tree.parent?, hSelf]⟩
  · refine .of_row hHung hLe ?_ ?_ (hRest.congr hLe ?_) ?_ fun hLabels => hLabels.detach c.id
    · intro k _ hNot
      refine hOthers k ?_ ?_
      · rintro rfl
        exact hNot f.id_mem_ids
      · rintro rfl
        exact hNot (Fragment.mem_ids_of_child hChild c.id_mem_ids)
    · rw [hRoot, hHung.held.children, hChildren, filter_ne_children hRow.nodup]
    · intro k hMem
      refine hOthers k (hRest.ne_of_mem hMem) ?_
      rintro rfl
      rcases mem_flatMap.mp hMem with ⟨g, hG, hIs⟩
      exact Fragment.disjoint_of_nodup hRow.nodup (mem_append.mp hG) hIs c.id_mem_ids
    · intro k hMem
      rw [hChildren]
      exact .inl ((hSub.flatMap Fragment.ids).subset hMem)
  · refine (hHung.held.child hChild).rehung (hHung.child hChild).nodup hLe hSelf fun k hMem => ?_
    refine hOthers k ?_ (hRowC.ne_of_mem hMem)
    rintro rfl
    exact hHung.id_notMem_child hChild (by rw [Fragment.ids_eq]; exact .tail c.id hMem)

-- Children Moved

variable {t₀ : Tree} {f₀ : Fragment}

/- A part that was taken off a fragment is put behind the children of one of its children again. -/
theorem edited_reparent (hEdit : Edited t₀ t p f₀ f)
    (hChildren : f.children = before ++ arm :: after) (hHeld : Held t c)
    (hLoose : t.parent? c.id = none) (hNodup : c.ids.Nodup) (hWas : ∀ n ∈ c.ids, n ∈ f₀.ids)
    (hApart : ∀ n ∈ c.ids, n ∉ f.ids) :
    Edited t₀ (t.reparent c.id arm.id) p f₀
      { f with children := before ++ { arm with children := arm.children ++ [c] } :: after } := by
  have hHung := hEdit.hung
  have hRow := hHung.row
  have hArm : arm ∈ f.children := by simp [hChildren]
  have hHungArm := hHung.child hArm
  have hArmIds : arm.id ∈ f.ids := Fragment.mem_ids_of_child hArm arm.id_mem_ids
  have hNotC : ∀ k ∈ f.ids, k ≠ c.id := by
    rintro k hMem rfl
    exact hApart c.id c.id_mem_ids hMem
  have hArmC := hNotC arm.id hArmIds
  have hFArm : f.id ≠ arm.id := (hRow.ne_of_mem (mem_flatMap.mpr ⟨arm, hArm, arm.id_mem_ids⟩)).symm
  have hMove : t.reparent c.id arm.id = t.attachLast arm.id c.id := by
    simp [reparent, detach, hLoose]
  have hArmNode := node_attachLast_parent hHungArm.held.isIn hArmC
  have hCNode := node_attachLast_self hHeld.isIn hArmC
  have hOthers : ∀ k, k ≠ arm.id → k ≠ c.id → (t.attachLast arm.id c.id).node k = t.node k :=
    fun k hK hK' => node_attachLast_other hK hK'
  have hRoot := hOthers f.id hFArm (hNotC f.id f.id_mem_ids)
  have hLe := Nat.le_of_eq (size_attachLast t arm.id c.id).symm
  -- the part in its new place, then the arm around it
  have hRowC : Row (t.attachLast arm.id c.id) arm.id [c] := by
    have hBelow := hHeld.row hNodup
    refine .single (by simp [Tree.parent?, hCNode]) (hHeld.rehung hNodup hLe hCNode ?_) hNodup
      fun hMem => hApart arm.id hMem hArmIds
    intro k hMem
    refine hOthers k ?_ (hBelow.ne_of_mem hMem)
    rintro rfl
    rw [Fragment.ids_eq] at hApart
    exact hApart arm.id (.tail c.id hMem) hArmIds
  have hBelow : Row (t.attachLast arm.id c.id) arm.id (arm.children ++ [c]) := by
    have hMemIds : ∀ k ∈ arm.children.flatMap Fragment.ids, k ∈ f.ids := by
      intro k hMem
      refine Fragment.mem_ids_of_child hArm ?_
      rw [Fragment.ids_eq]
      exact .tail arm.id hMem
    refine (hHungArm.row.congr hLe ?_).append hRowC ?_
    · exact fun k hMem => hOthers k (hHungArm.row.ne_of_mem hMem) (hNotC k (hMemIds k hMem))
    · intro k hMem hIs
      exact hApart k (by simpa using hIs) (hMemIds k hMem)
  have hIds : ({ arm with children := arm.children ++ [c] } : Fragment).ids = arm.ids ++ c.ids := by
    rw [Fragment.ids_eq, Fragment.ids_eq]
    simp
  have hNew : Row (t.attachLast arm.id c.id) f.id
        [{ arm with children := arm.children ++ [c] }] := by
    refine .single ?_ (.of_root ?_ ?_ ?_ ?_ hBelow.held) ?_ ?_
    · simpa [Tree.parent?, hArmNode] using hHung.held.parent hArm
    · exact Nat.lt_of_lt_of_le hHungArm.held.isIn hLe
    · simpa [Tree.instr, hArmNode] using hHungArm.held.instr
    · simpa [Tree.ty, hArmNode] using hHungArm.held.ty
    · simp [Tree.children, hArmNode, ← hHungArm.held.children]
    · rw [Fragment.ids_eq, nodup_cons]
      exact ⟨hBelow.notMem, hBelow.nodup⟩
    · rw [hIds, mem_append, not_or]
      exact ⟨hHungArm.notMem, fun hMem => hApart f.id hMem f.id_mem_ids⟩
  have hIn : ∀ k ∈ (before ++ arm :: after).flatMap Fragment.ids, k ∈ f.ids := by
    rw [← hChildren, Fragment.ids_eq]
    exact fun k hMem => .tail f.id hMem
  rw [hChildren] at hRow
  rw [hMove]
  refine .step hEdit hLe ?_ ?_ ?_ ?_ ?_ (hRow.replace hLe ?_ hNew ?_) ?_ ?_
  · intro k _ hNot hNot'
    refine hOthers k ?_ ?_
    · rintro rfl
      exact hNot' hArmIds
    · rintro rfl
      exact hNot (hWas c.id c.id_mem_ids)
  · simpa [Tree.instr, hRoot] using hHung.held.instr
  · simpa [Tree.ty, hRoot] using hHung.held.ty
  · simpa [Tree.children, hRoot, hChildren] using hHung.held.children
  · simp [Tree.parent?, hRoot]
  · intro k hMem hNot
    refine hOthers k ?_ (hNotC k (hIn k hMem))
    rintro rfl
    exact hNot arm.id_mem_ids
  · intro k hMem
    rw [hIds, mem_append] at hMem
    exact hMem.imp_right fun hC hIs => hApart k hC (hIn k hIs)
  · intro k hMem
    simp only [flatMap_append, flatMap_cons, mem_append, hIds] at hMem hIn
    rcases hMem with hB | (hA | hC) | hAf
    · exact hEdit.fresh k (hIn k (.inl hB))
    · exact hEdit.fresh k (hIn k (.inr (.inl hA)))
    · exact .inl (hWas k hC)
    · exact hEdit.fresh k (hIn k (.inr (.inr hAf)))
  · exact fun hLabels => hLabels.attachLast arm.id c.id

end Tree

end Code

end RubyWat
