import RubyWat.Program.Class

/-
  Fields while a program is compiled.

  A field keeps its place and its name, and once its type is fixed it keeps that as well.  Until
  then it is an attribute with a narrow type, which the first declaration of a type may replace.
-/

-- Attributes

namespace RubyWat.Class

open List

variable {k k₁ k₂ : Class} {name : String} {slot : Nat} {v : Ivar}

/- The names that accessors were declared for. -/
def attrNames (k : Class) : List String :=
  k.attrs.map (·.name)

theorem mem_attrNames_declareAttr (reader writer : Bool)
    (hIs : x = name ∨ x ∈ k.attrNames) : x ∈ (k.declareAttr name reader writer).attrNames := by
  unfold declareAttr
  split
  · rename_i i hFound
    have hNames : ∀ (f : Attr → Attr), (∀ a, (f a).name = a.name) →
          (k.attrs.modify i f).map (·.name) = k.attrNames := by
      intro f hSame
      refine ext_getElem? fun j => ?_
      simp only [attrNames, getElem?_map, getElem?_modify]
      rcases k.attrs[j]? with _ | a
      · rfl
      · by_cases hEq : i = j <;> simp [hEq, hSame]
    have hOld : x ∈ k.attrNames := by
      rcases hIs with rfl | hOld
      · rcases findIdx?_eq_some_iff_getElem.mp hFound with ⟨hIn, hName, -⟩
        exact mem_map.mpr ⟨_, getElem_mem hIn, eq_of_beq hName⟩
      · exact hOld
    rw [← hNames] at hOld
    · exact hOld
    · exact fun _ => rfl
  · simpa [attrNames, or_comm] using hIs

theorem ivars_declareAttr (k : Class) (name : String) (reader writer : Bool) :
    (k.declareAttr name reader writer).ivars = k.ivars := by
  unfold declareAttr
  split <;> rfl

-- Fields

/- The field that a name stands for is at the place it has. -/
theorem getElem?_of_ivar? (hSlot : k.ivarSlot? name = some slot) (hIvar : k.ivar? name = some v) :
    k.ivars[slot]? = some v := by
  rw [ivarSlot?, findIdx?_eq_some_iff_findIdx_eq] at hSlot
  rwa [ivar?, find?_eq_getElem?_findIdx, hSlot.2] at hIvar

/- A field with a fixed type is as it was, and any other keeps its name. -/
theorem fixIvar_keeps (ty : ValueType) (v : Ivar) :
    (fixIvar ty v).fixed = true ∧ (fixIvar ty v).name = v.name
      ∧ (v.fixed = true → fixIvar ty v = v) := by
  unfold fixIvar
  split <;> simp_all

theorem getElem?_fix (vs : List Ivar) (ty : ValueType) (slot i : Nat) :
    (vs.modify slot (fixIvar ty))[i]?
      = (vs[i]?).map fun v => if slot = i then fixIvar ty v else v := by
  rw [getElem?_modify]
  split <;> simp_all

/- A field whose type is not fixed is a narrow attribute. -/
def Provisional (k : Class) : Prop :=
  ∀ (i : Nat) (v : Ivar), k.ivars[i]? = some v → v.fixed = false →
    v.ty = .i32 ∧ v.name ∈ k.attrNames

/- What lasts of the fields of a class. -/
structure FieldsLast (k k' : Class) : Prop where
  slots : ∀ (i : Nat) (v : Ivar), k.ivars[i]? = some v →
      ∃ v', k'.ivars[i]? = some v' ∧ v'.name = v.name ∧ (v.fixed = true → v' = v)
  attrs : k.attrNames ⊆ k'.attrNames
  provisional : k.Provisional → k'.Provisional

namespace FieldsLast

theorem of_eq (hIvars : k₁.ivars = k.ivars) (hAttrs : k.attrNames ⊆ k₁.attrNames) :
    k.FieldsLast k₁ := by
  refine ⟨?_, hAttrs, ?_⟩
  · rw [hIvars]
    exact fun i v hAt => ⟨v, hAt, rfl, fun _ => rfl⟩
  · intro hAll i v hAt hFree
    rw [hIvars] at hAt
    rcases hAll i v hAt hFree with ⟨hTy, hMem⟩
    exact ⟨hTy, hAttrs hMem⟩

theorem refl (k : Class) : k.FieldsLast k :=
  of_eq rfl (Subset.refl _)

theorem trans (hFirst : k.FieldsLast k₁) (hSecond : k₁.FieldsLast k₂) : k.FieldsLast k₂ := by
  refine ⟨?_, Subset.trans hFirst.attrs hSecond.attrs,
    fun hAll => hSecond.provisional (hFirst.provisional hAll)⟩
  intro i v hAt
  rcases hFirst.slots i v hAt with ⟨v₁, hAt₁, hName₁, hFixed₁⟩
  rcases hSecond.slots i v₁ hAt₁ with ⟨v₂, hAt₂, hName₂, hFixed₂⟩
  refine ⟨v₂, hAt₂, hName₂.trans hName₁, fun hFixed => ?_⟩
  have hEq := hFixed₁ hFixed
  rw [hFixed₂ (hEq ▸ hFixed), hEq]

/- A new field. -/
theorem add (hIvars : k'.ivars = k.ivars ++ [v]) (hAttrs : k.attrNames ⊆ k'.attrNames)
    (hNew : v.fixed = false → v.ty = .i32 ∧ v.name ∈ k'.attrNames) : k.FieldsLast k' := by
  refine ⟨?_, hAttrs, ?_⟩
  · intro i w hW
    refine ⟨w, ?_, rfl, fun _ => rfl⟩
    rw [hIvars, List.getElem?_append_left (List.getElem?_eq_some_iff.mp hW).1, hW]
  · intro hAll i w hW hFree
    rw [hIvars, List.getElem?_append] at hW
    split at hW
    · rcases hAll i w hW hFree with ⟨hTy, hMem⟩
      exact ⟨hTy, hAttrs hMem⟩
    · rcases List.mem_singleton.mp (List.mem_of_getElem? hW) with rfl
      exact hNew hFree

/- The type of a field is fixed. -/
theorem declareIvar (k : Class) (name : String) (ty : ValueType) :
    k.FieldsLast (k.declareIvar name ty true).2 ∧ ∃ v, (k.declareIvar name ty true).2.ivars[
          (k.declareIvar name ty true).1]? = some v
        ∧ v.fixed = true := by
  unfold Class.declareIvar
  split
  · rename_i slot hSlot
    rw [if_pos rfl]
    refine ⟨⟨?_, Subset.refl _, ?_⟩, ?_⟩
    · intro i v hV
      refine ⟨_, by rw [getElem?_fix, hV]; rfl, ?_⟩
      split
      · exact (fixIvar_keeps ty v).2
      · exact ⟨rfl, fun _ => rfl⟩
    · intro hAll i v hV hFree
      rw [getElem?_fix, Option.map_eq_some_iff] at hV
      rcases hV with ⟨w, hW, rfl⟩
      by_cases hEq : slot = i
      · rw [if_pos hEq, (fixIvar_keeps ty w).1] at hFree
        cases hFree
      · rw [if_neg hEq] at hFree ⊢
        exact hAll i w hW hFree
    · rw [ivarSlot?, findIdx?_eq_some_iff_getElem] at hSlot
      rcases hSlot with ⟨hIn, -⟩
      refine ⟨_, ?_, (fixIvar_keeps ty k.ivars[slot]).1⟩
      rw [getElem?_fix, getElem?_eq_getElem hIn]
      simp
  · refine ⟨add rfl (Subset.refl _) ?_, _, getElem?_concat_length, rfl⟩
    rintro ⟨⟩

/- Accessors are declared for a field, which may be new. -/
theorem declareAttr (k : Class) (name : String) (reader writer : Bool) :
    k.FieldsLast ((k.declareIvar name .i32 false).2.declareAttr name reader writer) := by
  have hAttrs : ∀ k₁ : Class, k₁.attrs = k.attrs → k.attrNames
        ⊆ (k₁.declareAttr name reader writer).attrNames := by
    intro k₁ hSame x hIs
    refine mem_attrNames_declareAttr reader writer (.inr ?_)
    rw [attrNames, hSame]
    exact hIs
  unfold Class.declareIvar
  split
  · exact of_eq (ivars_declareAttr _ _ _ _) (hAttrs k rfl)
  · exact add (ivars_declareAttr _ _ _ _) (hAttrs _ rfl)
      fun _ => ⟨rfl, mem_attrNames_declareAttr reader writer (.inl rfl)⟩

end FieldsLast

end RubyWat.Class
