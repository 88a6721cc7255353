import RubyWat.Proofs.Names

/-
  The layout of objects while fields are declared.

  Key definitions: `Class.FieldsKept`, `Class.Occupies`, `Class.Tiled`, `Program.requestAll`.

  Declarations hand out places before the types that decide about offsets are known.

  Main statement: whatever fields are declared, a field keeps the place that it was given and the
  type that was fixed for it, and at any time the fields lie side by side and fill the object
  (`fields_tile_objects`).
-/

-- Offsets

namespace RubyWat

open List

namespace Class

variable {k k₁ k₂ : Class} {name : String} {slot i j : Nat} {v : Ivar}

theorem fieldsSize_append (xs ys : List Ivar) :
    fieldsSize (xs ++ ys) = fieldsSize xs + fieldsSize ys := by
  induction xs with
  | nil => simp [fieldsSize]
  | cons x xs ih => rw [cons_append, fieldsSize, fieldsSize, ih, Nat.add_assoc]

theorem fieldOffset_succ (hAt : k.ivars[slot]? = some v) :
    k.fieldOffset (slot + 1) = k.fieldOffset slot + v.ty.size := by
  rw [fieldOffset, take_add_one, hAt, fieldsSize_append, fieldOffset]
  simp [fieldsSize]

theorem fieldOffset_mono (hLe : i ≤ j) : k.fieldOffset i ≤ k.fieldOffset j := by
  rw [fieldOffset, fieldOffset, ← Nat.min_eq_left hLe, ← take_take,
    ← take_append_drop i (k.ivars.take j), fieldsSize_append]
  simp

theorem fieldOffset_length (k : Class) : k.fieldOffset k.ivars.length = k.size := by
  rw [fieldOffset, take_length, size]

/- A field ends before the object does. -/
theorem fieldOffset_add_le (hAt : k.ivars[slot]? = some v) :
    k.fieldOffset slot + v.ty.size ≤ k.size := by
  rw [← fieldOffset_succ hAt, ← fieldOffset_length]
  exact fieldOffset_mono (List.getElem?_eq_some_iff.mp hAt).1

/- A byte of an object belongs to the field of a slot. -/
def Occupies (k : Class) (slot byte : Nat) : Prop :=
  ∃ v, k.ivars[slot]? = some v ∧ k.fieldOffset slot ≤ byte ∧ byte < k.fieldOffset slot + v.ty.size

/-
  Fields follow one another from the start of an object to its end, so that every byte of the
  object belongs to one field and no other byte does.
-/
structure Tiled (k : Class) : Prop where
  first : k.fieldOffset 0 = 0
  next : ∀ slot v, k.ivars[slot]? = some v →
      k.fieldOffset (slot + 1) = k.fieldOffset slot + v.ty.size
  last : k.fieldOffset k.ivars.length = k.size
  covers : ∀ byte, byte < k.size ↔ ∃ slot, k.Occupies slot byte
  apart : ∀ i j byte, k.Occupies i byte → k.Occupies j byte → i = j

theorem exists_occupies (hByte : byte < fieldOffset k n) : ∃ slot, k.Occupies slot byte := by
  induction n with
  | zero => simp [fieldOffset, fieldsSize] at hByte
  | succ n ih =>
    by_cases hBefore : byte < k.fieldOffset n
    · exact ih hBefore
    cases hAt : k.ivars[n]? with
    | none =>
      rw [fieldOffset, take_add_one, hAt] at hByte
      simp [fieldOffset] at hByte hBefore
      omega
    | some v =>
      rw [fieldOffset_succ hAt] at hByte
      exact ⟨n, v, hAt, by omega, hByte⟩

theorem Occupies.le (hFirst : k.Occupies i byte) (hSecond : k.Occupies j byte) : j ≤ i := by
  rcases hFirst with ⟨v, hAt, -, hEnd⟩
  rcases hSecond with ⟨-, -, hStart, -⟩
  by_contra hLt
  have hMono : k.fieldOffset (i + 1) ≤ k.fieldOffset j := fieldOffset_mono (by omega)
  rw [fieldOffset_succ hAt] at hMono
  omega

theorem tiled (k : Class) : k.Tiled := by
  refine ⟨rfl, fun slot v => fieldOffset_succ, fieldOffset_length k, fun byte => ⟨?_, ?_⟩, ?_⟩
  · intro hByte
    rw [← fieldOffset_length] at hByte
    exact exists_occupies hByte
  · rintro ⟨slot, v, hAt, -, hEnd⟩
    have hInside := fieldOffset_add_le hAt
    omega
  · exact fun i j byte hFirst hSecond => Nat.le_antisymm (hSecond.le hFirst) (hFirst.le hSecond)

-- Slots

def ivarNames (k : Class) : List String :=
  k.ivars.map (·.name)

theorem ivarSlot?_eq (k : Class) (name : String) :
    k.ivarSlot? name = k.ivarNames.findIdx? (· == name) := by
  rw [ivarNames, findIdx?_map]
  rfl

/- What declarations leave as it is. -/
structure FieldsKept (k k' : Class) : Prop where
  names : k.ivarNames <+: k'.ivarNames
  distinct : k.ivarNames.Nodup → k'.ivarNames.Nodup
  fixed : ∀ (i : Nat) (v : Ivar), k.ivars[i]? = some v → v.fixed = true → k'.ivars[i]? = some v

namespace FieldsKept

theorem refl (k : Class) : k.FieldsKept k :=
  ⟨prefix_refl _, id, fun _ _ hAt _ => hAt⟩

theorem trans (hFirst : k.FieldsKept k₁) (hSecond : k₁.FieldsKept k₂) : k.FieldsKept k₂ :=
  ⟨hFirst.names.trans hSecond.names, fun hNodup => hSecond.distinct (hFirst.distinct hNodup),
    fun i v hAt hFixed => hSecond.fixed i v (hFirst.fixed i v hAt hFixed) hFixed⟩

/- A name keeps its slot. -/
theorem ivarSlot?_eq_some (hKept : k.FieldsKept k₁) (hSlot : k.ivarSlot? name = some slot) :
    k₁.ivarSlot? name = some slot := by
  rcases hKept.names with ⟨more, hMore⟩
  rw [ivarSlot?_eq] at hSlot ⊢
  rw [← hMore, findIdx?_append, hSlot]
  rfl

/- A declaration keeps all fields, and its name has the slot that it returns. -/
theorem declareIvar (k : Class) (name : String) (ty : ValueType) (fixed : Bool) :
    k.FieldsKept (k.declareIvar name ty fixed).2
      ∧ (k.declareIvar name ty fixed).2.ivarSlot? name = some (k.declareIvar name ty fixed).1 := by
  unfold Class.declareIvar
  split
  · rename_i slot hSlot
    split
    · have hNames : (k.ivars.modify slot (fixIvar ty)).map (·.name) = k.ivarNames := by
        refine List.ext_getElem? fun i => ?_
        rw [ivarNames, List.getElem?_map, List.getElem?_map, getElem?_fix, Option.map_map]
        congr 1
        funext v
        by_cases hEq : slot = i
        · simp [hEq, (fixIvar_keeps ty v).2.1]
        · simp [hEq]
      have hKept : k.FieldsKept { k with ivars := k.ivars.modify slot (fixIvar ty) } := by
        refine ⟨?_, ?_, fun i v hAt hFixed => ?_⟩
        · exact hNames ▸ List.prefix_refl _
        · intro hNodup
          rwa [ivarNames, hNames]
        · rw [getElem?_fix, hAt]
          simp [(fixIvar_keeps ty v).2.2 hFixed]
      exact ⟨hKept, hKept.ivarSlot?_eq_some hSlot⟩
    · exact ⟨.refl k, hSlot⟩
  · rename_i hNone
    have hNew : name ∉ k.ivarNames := by
      rw [ivarSlot?_eq, List.findIdx?_eq_none_iff] at hNone
      exact fun hMem => by simpa using hNone name hMem
    refine ⟨⟨?_, ?_, ?_⟩, ?_⟩
    · rw [ivarNames, ivarNames, List.map_append]
      exact List.prefix_append _ _
    · intro hNodup
      rw [ivarNames, List.map_append]
      exact hNodup.append (List.nodup_singleton _) (by simpa using hNew)
    · intro i v hAt _
      rw [List.getElem?_append_left (List.getElem?_eq_some_iff.mp hAt).1, hAt]
    · rw [ivarSlot?] at hNone ⊢
      rw [List.findIdx?_append, hNone]
      simp

end FieldsKept

/- A name that is declared again gets the slot that it has. -/
theorem declareIvar_fst (hSlot : k.ivarSlot? name = some slot) (ty : ValueType) (fixed : Bool) :
    (k.declareIvar name ty fixed).1 = slot := by
  simp only [declareIvar, hSlot]
  split <;> rfl

end Class

-- Runs

/- A declaration of a field. -/
structure FieldRequest where
  cls : ClassId
  name : String
  ty : ValueType
  fixed : Bool

namespace Program

variable {p : Program} {c : ClassId}

/- A program after declarations of fields. -/
def requestAll (p : Program) (requests : List FieldRequest) : Program :=
  requests.foldl (fun p r => (p.declareIvar r.cls r.name r.ty r.fixed).2) p

theorem cls_declareIvar (hIn : c.index < p.classes.size) (d : ClassId) (name : String)
    (ty : ValueType) (fixed : Bool) :
    (p.declareIvar d name ty fixed).2.cls c
      = if c = d then ((p.cls c).declareIvar name ty fixed).2 else p.cls c := by
  rw [declareIvar, cls_modifyClass]
  by_cases hEq : c = d
  · subst hEq
    simp [hIn]
  · simp [hEq]

theorem size_declareIvar (d : ClassId) (name : String) (ty : ValueType) (fixed : Bool) :
    (p.declareIvar d name ty fixed).2.classes.size = p.classes.size :=
  Array.size_modify

/- Declarations in any classes keep the fields of each class. -/
theorem fieldsKept_requestAll (hIn : c.index < p.classes.size) (requests : List FieldRequest) :
    (p.cls c).FieldsKept ((p.requestAll requests).cls c)
      ∧ c.index < (p.requestAll requests).classes.size := by
  induction requests generalizing p with
  | nil => exact ⟨.refl _, hIn⟩
  | cons r requests ih =>
    have hStep : (p.cls c).FieldsKept ((p.declareIvar r.cls r.name r.ty r.fixed).2.cls c) := by
      rw [cls_declareIvar hIn]
      split
      · exact (Class.FieldsKept.declareIvar _ _ _ _).1
      · exact .refl _
    have hRest := ih (p := (p.declareIvar r.cls r.name r.ty r.fixed).2) (by rwa [size_declareIvar])
    exact ⟨hStep.trans hRest.1, hRest.2⟩

/-
  A declaration of a field between earlier and later ones, in whichever classes these are.  At
  any time the names of a class are distinct and its fields fill its objects.  The declaration
  returns a slot that its name has from then on, and gets it again whenever it is repeated, and
  fields whose type is fixed stay as they are.
-/
theorem fields_tile_objects (hIn : c.index < p.classes.size)
    (hDistinct : (p.cls c).ivarNames.Nodup) (earlier later : List FieldRequest) (name : String)
    (ty : ValueType) (fixed : Bool) :
    let q := p.requestAll earlier
    let declared := q.declareIvar c name ty fixed
    let r := declared.2.requestAll later
    (q.cls c).ivarNames.Nodup ∧ (q.cls c).Tiled ∧ (r.cls c).ivarSlot? name = some declared.1
      ∧ (∀ ty' fixed', (r.declareIvar c name ty' fixed').1 = declared.1)
      ∧ ∀ (slot : Nat) (v : Ivar), (q.cls c).ivars[slot]? = some v → v.fixed = true →
          (r.cls c).ivars[slot]? = some v := by
  intro q declared r
  rcases fieldsKept_requestAll hIn earlier with ⟨hEarlier, hInQ⟩
  rcases Class.FieldsKept.declareIvar (q.cls c) name ty fixed with ⟨hDeclared, hSlot⟩
  have hLater := (fieldsKept_requestAll (p := declared.2) (c := c)
    (by rwa [size_declareIvar]) later).1
  rw [cls_declareIvar hInQ, if_pos rfl] at hLater
  have hLast := hLater.ivarSlot?_eq_some hSlot
  refine ⟨hEarlier.distinct hDistinct, (q.cls c).tiled, hLast, ?_, ?_⟩
  · exact fun ty' fixed' => Class.declareIvar_fst hLast ty' fixed'
  · exact (hDeclared.trans hLater).fixed

/- A narrow field whose type becomes wide moves the field after it, which keeps its slot. -/
theorem widenedField_keeps : let p := Program.empty 0
    let earlier : List FieldRequest := [⟨objectClass, "len", .i32, false⟩]
    let q := p.requestAll earlier
    let declared := q.declareIvar objectClass "data" .i32 true
    let r := declared.2.requestAll [⟨objectClass, "len", .i64, true⟩]
    objectClass.index < p.classes.size ∧ (p.cls objectClass).ivarNames.Nodup
      ∧ (declared.2.cls objectClass).fieldOffset declared.1 = 4
      ∧ (r.cls objectClass).fieldOffset declared.1 = 8
      ∧ (r.cls objectClass).ivarSlot? "data" = some declared.1 := by
  intro p earlier q declared r
  have hIn : objectClass.index < p.classes.size := by decide
  have hDistinct : (p.cls objectClass).ivarNames.Nodup := nodup_nil
  have hTiled := fields_tile_objects hIn hDistinct earlier [⟨objectClass, "len", .i64, true⟩]
    "data" .i32 true
  exact ⟨hIn, hDistinct, by decide +kernel, by decide +kernel, hTiled.2.2.1⟩

end Program

end RubyWat
