import RubyWat.Machine.Value

/-
  Named values and their types.

  An assignment changes a value but not its type.
-/

-- Types Of Slots

namespace RubyWat.Machine

open List Option

namespace Slots

/- The names of slots with the types of their values. -/
def types (slots : Slots) : List (String × Wasm.MachineType) :=
  slots.map fun (name, v) => (name, v.type)

/- A name with a type has a value of the type. -/
theorem lookup_types (slots : Slots) (name : String) :
    slots.types.lookup name = (slots.lookup name).map Value.type := by
  induction slots with
  | nil => rfl
  | cons slot rest ih =>
    rcases slot with ⟨key, v⟩
    cases hKey : name == key with
    | true => simp [types, lookup_cons, hKey]
    | false => simpa [types, lookup_cons, hKey] using ih

/- A value that replaces another has its type. -/
theorem type_replacing (old new : Value) : (old.replacing new).type = old.type := by
  cases old <;> rfl

/- Assignments keep all types. -/
theorem types_assign? {slots result : Slots} {name : String} {v : Value}
    (hAssign : slots.assign? name v = some result) : result.types = slots.types := by
  induction slots generalizing result with
  | nil => simp [assign?] at hAssign
  | cons slot rest ih =>
    rcases slot with ⟨key, old⟩
    by_cases hKey : key = name
    · simp only [assign?, hKey, if_true, some.injEq] at hAssign
      subst hAssign
      simp [types, type_replacing, hKey]
    simp only [assign?, hKey, if_false, map_eq_some_iff] at hAssign
    rcases hAssign with ⟨tail, hTail, rfl⟩
    have hTypes := ih hTail
    simp only [types, map_cons, cons.injEq, true_and]
    exact hTypes

/- The names that have a value can be assigned to. -/
theorem isSome_assign? (slots : Slots) (name : String) (v : Value) :
    (slots.assign? name v).isSome = (slots.lookup name).isSome := by
  induction slots with
  | nil => rfl
  | cons slot rest ih =>
    rcases slot with ⟨key, old⟩
    by_cases hKey : key = name
    · simp [assign?, hKey]
    have hOther : (name == key) = false := by simpa using fun h => hKey h.symm
    simpa [assign?, hKey, lookup_cons, hOther] using ih

theorem exists_assign? {slots : Slots} {name : String} {old : Value}
    (hLookup : slots.lookup name = some old) (v : Value) :
    ∃ result, slots.assign? name v = some result :=
  isSome_iff_exists.mp (by simp [isSome_assign?, hLookup])

/- A name that was assigned to has a value. -/
theorem lookup_of_assign? {slots result : Slots} {name : String} {v : Value}
    (hAssign : slots.assign? name v = some result) : ∃ u, result.lookup name = some u := by
  have hTypes := congrArg isSome (lookup_types result name)
  rw [types_assign? hAssign, lookup_types, isSome_map, isSome_map,
    ← isSome_assign? slots name v, hAssign] at hTypes
  exact isSome_iff_exists.mp hTypes.symm

/- Insertion changes one name. -/
theorem lookup_insert (slots : Slots) (name key : String) (v : Value) :
    (slots.insert name v).lookup key = if key = name then some v else slots.lookup key := by
  induction slots with
  | nil =>
    by_cases hKey : key = name
    · simp [insert, hKey]
    · have hOther : (key == name) = false := by simpa using hKey
      simp [insert, lookup_cons, hKey, hOther]
  | cons slot rest ih =>
    rcases slot with ⟨first, old⟩
    by_cases hFirst : first = name
    · subst hFirst
      cases hKey : key == first with
      | true =>
        have hEq : key = first := by simpa using hKey
        simp [insert, hEq]
      | false =>
        have hNe : key ≠ first := by simpa using hKey
        simp [insert, lookup_cons, hKey, hNe]
    · cases hKey : key == first with
      | true =>
        have hEq : key = first := by simpa using hKey
        have hNe : key ≠ name := by
          rw [hEq]
          exact hFirst
        simp [insert, lookup_cons, hFirst, hKey, hNe]
      | false => simpa [insert, lookup_cons, hFirst, hKey] using ih

/- A new name gets its value, and old names keep theirs. -/
theorem lookup_insertNew (slots : Slots) (name key : String) (v : Value) :
    (slots.insertNew name v).lookup key
      = (slots.lookup key).or (if key = name then some v else none) := by
  unfold insertNew
  cases hOld : slots.lookup name with
  | some old =>
    by_cases hKey : key = name
    · subst hKey
      simp [hOld]
    · simp [hKey]
  | none =>
    by_cases hKey : key = name
    · subst hKey
      simp [hOld, lookup_insert]
    · simp [hKey, lookup_insert]

end Slots

end RubyWat.Machine
