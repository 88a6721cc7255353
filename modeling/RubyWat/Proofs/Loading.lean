import RubyWat.Proofs.Origin

/-
  Reading units.

  A name stands for a unit that has been read, or for one that is
  remembered and then read (`require_new`).
-/

-- Loaders

namespace RubyWat

open Dump Step List

variable {relative : Bool} {l l' : Loader} {span : Span}
variable {found : Option SourceUnit} {asking : Option String}
variable {unit : SourceUnit} {key name path text : String}

namespace Loader

/- The keys of the units that a loader can read. -/
def Key (l : Loader) (key : String) : Prop :=
  key ∈ l.inMemory.map Prod.fst ∨ l.disk.isFile key = true

/- A loader that has read some units more. -/
structure Advance (l l' : Loader) : Prop where
  disk_eq : l'.disk = l.disk
  inMemory_eq : l'.inMemory = l.inMemory
  loaded : l.loaded ⊆ l'.loaded

namespace Advance

theorem refl (l : Loader) : Advance l l :=
  ⟨rfl, rfl, fun _ => id⟩

theorem trans {l₁ l₂ : Loader} (hFirst : Advance l l₁) (hSecond : Advance l₁ l₂) : Advance l l₂ :=
  ⟨hSecond.disk_eq.trans hFirst.disk_eq, hSecond.inMemory_eq.trans hFirst.inMemory_eq,
    fun _ hMem => hSecond.loaded (hFirst.loaded hMem)⟩

theorem key_iff (hAdvance : Advance l l') (key : String) : l'.Key key ↔ l.Key key := by
  rw [Key, Key, hAdvance.disk_eq, hAdvance.inMemory_eq]

end Advance

end Loader

-- Units

namespace Load

/- A unit that is read under a name, with its text kept. -/
def Reads (l l' : Loader) (unit : SourceUnit) (name : String) : Prop :=
  ∃ text, l' = { l with sources := (name, text) :: l.sources }
    ∧ unit.name = name ∧ read text = .ok unit.root

/- A unit that is read is remembered first. -/
structure Remembers (l l' : Loader) (unit : SourceUnit) : Prop where
  key : l.Key unit.name
  fresh : unit.name ∉ l.loaded
  advance : Loader.Advance l l'
  loaded : unit.name ∈ l'.loaded
  kept : ∃ text, l'.sources = (unit.name, text) :: l.sources ∧ read text = .ok unit.root

/- A key is remembered if it is new. -/
theorem mark_eq (key : String) (l : Loader) : mark key l = if key ∈ l.loaded then .ok false l
        else .ok true { l with loaded := key :: l.loaded } := by
  change (if l.loaded.contains key then pure false else _ : Load Bool) l = _
  rw [contains_eq_mem]
  by_cases hLoaded : key ∈ l.loaded
  · simp only [hLoaded, decide_true, if_true]
    rfl
  · simp only [hLoaded, decide_false, if_false, Bool.false_eq_true]
    rfl

theorem parse_eq (path : Option String) : parse name path text l = match read text with
        | .ok root => .ok ⟨name, path, root⟩ { l with sources := (name, text) :: l.sources }
        | .error error =>
          .error ⟨.unreadable error, some name⟩
            { l with sources := (name, text) :: l.sources } := by
  rcases hRead : read text with error | root
  · simp only [parse, hRead]
    rfl
  · simp only [parse, hRead]
    rfl

theorem readFile_eq : readFile path span l = match l.textOf path span with
        | .ok text => parse path (some path) text l
        | .error fault => .error ⟨fault, none⟩ l := by
  change (match l.textOf path span with
    | .ok text => parse path (some path) text
    | .error fault => throw ⟨fault, none⟩ : Load SourceUnit) l = _
  rcases l.textOf path span with fault | text
  · rfl
  · rfl

theorem parse_reads {path : Option String} (hRun : parse name path text l = .ok unit l') :
    Reads l l' unit name := by
  rw [parse_eq] at hRun
  split at hRun
  · rename_i root hRead
    cases hRun
    exact ⟨text, rfl, rfl, hRead⟩
  · cases hRun

theorem readFile_reads (hRun : readFile path span l = .ok unit l') : Reads l l' unit path := by
  rw [readFile_eq] at hRun
  split at hRun
  · exact parse_reads hRun
  · cases hRun

theorem key_of_findInMemory? (hFound : l.findInMemory? name = some (key, text)) : l.Key key := by
  rcases exists_of_findSome?_eq_some hFound with ⟨tried, -, hTried⟩
  rcases Option.map_eq_some_iff.mp hTried with ⟨found, hLookup, hPair⟩
  cases hPair
  rcases lookup_eq_some_iff.mp hLookup with ⟨before, after, hUnits, -⟩
  refine .inl (mem_map.mpr ⟨(key, text), ?_, rfl⟩)
  rw [hUnits]
  simp

theorem key_of_resolve? (hFound : l.resolve? name asking relative = some path) : l.Key path :=
  .inr (find?_some hFound)

/- A unit is read under a key unless the key is known. -/
theorem unlessRead_ok {read : Load SourceUnit} (hKey : l.Key key)
    (hRead : ∀ {unit l₁ l₂}, read l₁ = .ok unit l₂ → Reads l₁ l₂ unit key)
    (hRun : (do if ← mark key then some <$> read else return none) l = .ok found l') :
    found = none ∧ l' = l ∨ ∃ unit, found = some unit ∧ Remembers l l' unit := by
  rcases bind_ok hRun with ⟨isNew, l₁, hMark, hRun⟩
  rw [mark_eq] at hMark
  split at hMark
  · cases hMark
    cases hRun
    exact .inl ⟨rfl, rfl⟩
  rename_i hFresh
  cases hMark
  rcases map_ok hRun with ⟨unit, hUnit, rfl⟩
  rcases hRead hUnit with ⟨text, rfl, rfl, hText⟩
  exact .inr ⟨unit, rfl, hKey, hFresh, ⟨rfl, rfl, fun _ => mem_cons_of_mem _⟩,
    (.head _), text, rfl, hText⟩

/- A name stands for a unit that has been read, or for one that is remembered and then read. -/
theorem require_new (hRun : require name asking relative span l = .ok found l') :
    found = none ∧ l' = l ∨ ∃ unit, found = some unit ∧ Remembers l l' unit := by
  rcases bind_ok hRun with ⟨_, _, hGet, hRun⟩
  cases hGet
  rcases hFound : l.findInMemory? name with _ | ⟨key, text⟩
  · simp only [hFound] at hRun
    rcases hPath : l.resolve? name asking relative with _ | path
    · simp only [hPath] at hRun
      exact (throw_ok hRun).elim
    · simp only [hPath] at hRun
      exact unlessRead_ok (key_of_resolve? hPath) readFile_reads hRun
  · simp only [hFound] at hRun
    exact unlessRead_ok (key_of_findInMemory? hFound) parse_reads hRun

/- A new unit in memory is read from its text. -/
theorem require_inMemory (hFound : l.findInMemory? name = some (key, text))
    (hFresh : key ∉ l.loaded) (hRun : require name asking relative span l = .ok found l') :
    ∃ root, read text = .ok root ∧ found = some ⟨key, none, root⟩ ∧ l' = { l with
            loaded := key :: l.loaded
            sources := (key, text) :: l.sources } := by
  rcases bind_ok hRun with ⟨_, _, hGet, hRun⟩
  cases hGet
  simp only [hFound] at hRun
  rcases bind_ok hRun with ⟨isNew, l₁, hMark, hRun⟩
  rw [mark_eq, if_neg hFresh] at hMark
  cases hMark
  rcases map_ok hRun with ⟨unit, hParse, rfl⟩
  rw [parse_eq] at hParse
  split at hParse
  · rename_i root hRead
    cases hParse
    exact ⟨root, hRead, rfl, rfl⟩
  · cases hParse

end Load

end RubyWat
