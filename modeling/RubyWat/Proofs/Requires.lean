import Mathlib.Data.Finset.Dedup
import Mathlib.Data.List.Perm.Subperm
import Mathlib.Data.Nat.Digits.Defs
import RubyWat.Proofs.Visits

/-
  Units that ask for other units.

  Key definitions: `Loader.Room`, `Lower.unitStep`, `Lower.Walked`.

  A loader can only read so many units: those in memory, and a file for each path.  Each unit is
  remembered before it is walked, so the way from a unit into those that it asks for ends,
  whoever asks for whom.

  Main statement: a compilation walks no unit twice, does not depend on how many units it is
  allowed to walk, and is through with a unit when it goes on behind the statement that asks for
  it (`each_unit_once`).
-/

-- Keys

namespace RubyWat

open Code Dump Step List

variable {relative : Bool} {d : Disk} {l : Loader}
variable {s s' : LowerState} {count limit : Nat}
variable {found : Option SourceUnit} {asking : Option String}
variable {unit : SourceUnit} {way : SourceUnit → Lower Unit}
variable {span : Span} {key name path text : String}

namespace Disk

/- A path that leads to a file is not too long. -/
theorem size_lt_of_isFile (hFile : d.isFile path = true) : path.utf8ByteSize < pathLimit := by
  by_contra hLong
  have hError : d.locate path = .error .nameTooLong ∨ d.locate path = .error .notFound := by
    rw [locate, locateParts]
    split
    · exact .inr rfl
    · rw [if_pos (Nat.le_of_not_lt hLong)]
      exact .inl rfl
  rcases hError with hError | hError <;> simp [isFile, hError] at hFile

/- A way over a disk without files leads to directories. -/
theorem enter_of_no_files
    (hFiles : d.files = []) (hEnter : d.enter (.directory names) part = .ok entry) :
    ∃ inner, entry = .directory inner := by
  simp only [enter, content?, isDirectory, hFiles] at hEnter
  split at hEnter
  · cases hEnter
    exact ⟨names, rfl⟩
  split at hEnter
  · cases hEnter
    exact ⟨_, rfl⟩
  split at hEnter <;> cases hEnter

theorem files_ne_nil_of_isFile (hFile : d.isFile path = true) : d.files ≠ [] := by
  intro hFiles
  have hWay : ∀ (parts names : List String) (entry : DiskEntry),
        parts.foldlM d.enter (.directory names) = .ok entry →
        ∃ inner, entry = .directory inner := by
    intro parts
    induction parts with
    | nil =>
      intro names entry hFold
      cases hFold
      exact ⟨names, rfl⟩
    | cons part parts ih =>
      intro names entry hFold
      rw [foldlM_cons] at hFold
      rcases hEnter : d.enter (.directory names) part with fault | next
      · rw [hEnter] at hFold
        cases hFold
      · rw [hEnter] at hFold
        rcases enter_of_no_files hFiles hEnter with ⟨inner, rfl⟩
        exact ih inner entry hFold
  have hStart : ∃ names, startOf path = .directory names := by
    rw [startOf]
    split <;> exact ⟨_, rfl⟩
  rcases hStart with ⟨names, hStart⟩
  rcases hLocate : d.locate path with fault | entry
  · simp [isFile, hLocate] at hFile
  have hFold := hLocate
  rw [locate, locateParts] at hFold
  split at hFold
  · cases hFold
  split at hFold
  · cases hFold
  rw [hStart] at hFold
  rcases hWay _ _ _ hFold with ⟨inner, rfl⟩
  simp [isFile, hLocate] at hFile

/- A text as a number: its bytes are digits below a leading one. -/
def code (path : String) : Nat :=
  Nat.ofDigits 256 (path.toByteArray.data.toList.map UInt8.toNat ++ [1])

theorem digit_lt (hMem : digit ∈ path.toByteArray.data.toList.map UInt8.toNat ++ [1]) :
    digit < 256 := by
  rw [mem_append, mem_singleton] at hMem
  rcases hMem with hMem | rfl
  · rcases mem_map.mp hMem with ⟨b, -, rfl⟩
    exact b.toNat_lt
  · decide

theorem digits_code (path : String) :
    Nat.digits 256 (code path) = path.toByteArray.data.toList.map UInt8.toNat ++ [1] := by
  refine Nat.digits_ofDigits 256 (by decide) _ (fun _ => digit_lt) fun hNonempty => ?_
  rw [getLast_append_singleton]
  decide

theorem code_injective : Function.Injective code := by
  intro first second hSame
  have hDigits := congrArg (Nat.digits 256) hSame
  rw [digits_code, digits_code] at hDigits
  have hBytes := append_cancel_right hDigits
  have hData := map_injective_iff.mpr (fun a b => UInt8.toNat_inj.mp) hBytes
  rw [← String.toByteArray_inj]
  exact ByteArray.ext (Array.toList_inj.mp hData)

theorem code_lt (hShort : path.utf8ByteSize < limit) : code path < 256 ^ limit := by
  have hLess : code path < 256 ^ (path.toByteArray.data.toList.map UInt8.toNat ++ [1]).length :=
    Nat.ofDigits_lt_base_pow_length (by decide) fun _ => digit_lt
  refine hLess.trans_le (Nat.pow_le_pow_right (by decide) ?_)
  have hSize : path.toByteArray.data.size = path.utf8ByteSize := rfl
  simp only [length_append, length_map, Array.length_toList, length_singleton, hSize]
  exact hShort

/- There are only so many short paths. -/
theorem length_le_of_short {paths : List String} (hNodup : paths.Nodup)
    (hShort : ∀ path ∈ paths, path.utf8ByteSize < limit) : paths.length ≤ Nat.pow 256 limit := by
  have hCodes : (paths.map code).Nodup := hNodup.map code_injective
  have hBelow : (paths.map code).toFinset ⊆ Finset.range (256 ^ limit) := by
    intro n hMem
    rcases mem_map.mp (mem_toFinset.mp hMem) with ⟨path, hPath, rfl⟩
    exact Finset.mem_range.mpr (code_lt (hShort path hPath))
  have hCard := Finset.card_le_card hBelow
  rwa [toFinset_card_of_nodup hCodes, length_map, Finset.card_range] at hCard

end Disk

-- Loaders

namespace Loader

/- Keys of units that can be read and have not been yet. -/
structure Unread (l : Loader) (keys : List String) : Prop where
  nodup : keys.Nodup
  fresh : ∀ key ∈ keys, key ∉ l.loaded
  key : ∀ key ∈ keys, l.Key key

/- There are fewer units left to read than a number. -/
def Room (l : Loader) (count : Nat) : Prop :=
  ∀ keys, l.Unread keys → keys.length < count

theorem Advance.room (hAdvance : Advance l l') (hRoom : l.Room count) : l'.Room count := by
  intro keys hUnread
  refine hRoom keys ⟨hUnread.nodup, ?_, ?_⟩
  · intro key hMem hLoaded
    exact hUnread.fresh key hMem (hAdvance.loaded hLoaded)
  · intro key hMem
    exact (hAdvance.key_iff key).mp (hUnread.key key hMem)

/- The keys of a loader are fewer than its limit. -/
theorem room_unitLimit (l : Loader) : l.Room (Lower.unitLimit l) := by
  intro keys hUnread
  have hSplit := length_eq_length_filter_add (l := keys)
    fun key => decide (key ∈ l.inMemory.map Prod.fst)
  have hMemory : (keys.filter fun key =>
        decide (key ∈ l.inMemory.map Prod.fst)).length
        ≤ l.inMemory.length := by
    have hLength : (l.inMemory.map Prod.fst).length = l.inMemory.length := length_map _
    rw [← hLength]
    refine (subperm_of_subset (hUnread.nodup.filter _) ?_).length_le
    intro key hMem
    exact of_decide_eq_true (mem_filter.mp hMem).2
  have hFile : ∀ key ∈ keys.filter fun key =>
          !decide (key ∈ l.inMemory.map Prod.fst),
        l.disk.isFile key = true := by
    intro key hMem
    rw [mem_filter, Bool.not_eq_true', decide_eq_false_iff_not] at hMem
    exact (hUnread.key key hMem.1).resolve_left hMem.2
  have hFiles : (keys.filter fun key =>
        !decide (key ∈ l.inMemory.map Prod.fst)).length
        ≤ if l.disk.files.isEmpty then 0 else Nat.pow 256 Disk.pathLimit := by
    split
    · rename_i hEmpty
      rw [Nat.le_zero, length_eq_zero_iff, eq_nil_iff_forall_not_mem]
      intro key hMem
      exact Disk.files_ne_nil_of_isFile (hFile key hMem) (isEmpty_iff.mp hEmpty)
    · exact Disk.length_le_of_short (hUnread.nodup.filter _)
        fun key hMem => Disk.size_lt_of_isFile (hFile key hMem)
  rw [Lower.unitLimit]
  omega

/- Reading a unit leaves one unit less to read. -/
theorem room_of_mark (hKey : l.Key key) (hFresh : key ∉ l.loaded) (hAdvance : Advance l l')
    (hLoaded : key ∈ l'.loaded) (hRoom : l.Room (count + 1)) : l'.Room count := by
  intro keys hUnread
  have hMore : l.Unread (key :: keys) := by
    refine ⟨?_, ?_, ?_⟩
    · rw [nodup_cons]
      exact ⟨fun hMem => hUnread.fresh key hMem hLoaded, hUnread.nodup⟩
    · rw [forall_mem_cons]
      exact ⟨hFresh, fun other hMem hOld => hUnread.fresh other hMem (hAdvance.loaded hOld)⟩
    · rw [forall_mem_cons]
      exact ⟨hKey, fun other hMem => (hAdvance.key_iff other).mp (hUnread.key other hMem)⟩
  have hLess := hRoom (key :: keys) hMore
  rw [length_cons] at hLess
  omega

theorem Room.pos (hRoom : l.Room count) : 0 < count :=
  hRoom [] ⟨nodup_nil, by simp, by simp⟩

end Loader

-- Walks

namespace Lower

/- How a step ends. -/
abbrev Outcome (α : Type) : Type :=
  EStateM.Result Failure LowerState α

/- The statements of a unit, with a way into other units. -/
def unitStep (way : SourceUnit → Lower Unit) (unit : SourceUnit) : Lower Unit :=
  inUnit unit.name <| askingFrom unit.path do
    let _ ← lowerNode way unit.root.height Tree.root unit.root false

/-
  A walk through a unit: the state it starts in, how it ends, and the names of the unit and of
  all units that are walked on the way, in order.
-/
structure Walk where
  unit : SourceUnit
  before : LowerState
  outcome : Outcome Unit
  names : List String

namespace Walk

/- A way into units that makes these walks. -/
def Takes (walks : List Walk) (way : SourceUnit → Lower Unit) : Prop :=
  ∀ w ∈ walks, way w.unit w.before = w.outcome

/- The names of all units on some walks. -/
def allNames (walks : List Walk) : List String :=
  walks.flatMap (·.names)

theorem allNames_append (first second : List Walk) :
    allNames (first ++ second) = allNames first ++ allNames second :=
  flatMap_append

theorem Takes.of_append (hTakes : Takes (first ++ second) way) :
    Takes first way ∧ Takes second way :=
  forall_mem_append.mp hTakes

end Walk

/-
  The walks that a unit is made of, without a bound on their number.  The statements of a unit
  end the same way under every way into other units that makes the walks listed here, so no
  other walk is made.
-/
inductive Walked : Walk → Prop where
  | through {unit : SourceUnit} {s : LowerState} {outcome : Outcome Unit} (walks : List Walk)
      (hWalks : ∀ w ∈ walks, Walked w)
      (hOutcome : ∀ way, Walk.Takes walks way → unitStep way unit s = outcome) :
      Walked ⟨unit, s, outcome, unit.name :: Walk.allNames walks⟩

/- Enough fuel for some walks is enough for all of them. -/
theorem Walk.exists_takes (hWalks :
      ∀ w ∈ walks, ∃ enough, ∀ fuel, enough ≤ fuel → lowerUnit fuel w.unit w.before = w.outcome) :
    ∃ enough, ∀ fuel, enough ≤ fuel → Takes walks (lowerUnit fuel) := by
  induction walks with
  | nil => exact ⟨0, fun _ _ => by simp [Takes]⟩
  | cons w walks ih =>
    rw [forall_mem_cons] at hWalks
    rcases hWalks.1 with ⟨first, hFirst⟩
    rcases ih hWalks.2 with ⟨rest, hRest⟩
    refine ⟨max first rest, fun fuel hFuel => ?_⟩
    exact forall_mem_cons.mpr ⟨hFirst fuel (by omega), hRest fuel (by omega)⟩

/- With enough fuel a unit is compiled as it is walked. -/
theorem Walked.exists_fuel (hWalked : Walked w) :
    ∃ enough, ∀ fuel, enough ≤ fuel → lowerUnit fuel w.unit w.before = w.outcome := by
  induction hWalked with
  | through walks _ hOutcome ih =>
    rcases Walk.exists_takes ih with ⟨enough, hTakes⟩
    refine ⟨enough + 1, fun fuel hFuel => ?_⟩
    rcases fuel with _ | fuel
    · omega
    · exact hOutcome _ (hTakes fuel (by omega))

-- New Units

variable {α β : Type}

/-
  Names of units that were not read when a step began, none of
  them twice, and read when it has succeeded.
-/
structure Fresh (s : LowerState) (outcome : Outcome α) (names : List String) : Prop where
  nodup : names.Nodup
  unread : ∀ name ∈ names, name ∉ s.loader.loaded
  read : ∀ a s', outcome = .ok a s' → Loader.Advance s.loader s'.loader
        ∧ ∀ name ∈ names, name ∈ s'.loader.loaded

namespace Fresh

variable {s₁ : LowerState}

theorem of_advance {outcome : Outcome α}
    (hAdvance : ∀ a s', outcome = .ok a s' → Loader.Advance s.loader s'.loader) :
    Fresh s outcome [] where
  nodup := nodup_nil
  unread := by simp
  read := fun a s' hOk => ⟨hAdvance a s' hOk, by simp⟩

/- A unit that is remembered is new. -/
theorem of_remembers (a : α) (hRemembers : Load.Remembers s.loader l unit) :
    Fresh s (.ok a { s with loader := l }) [unit.name] where
  nodup := nodup_singleton _
  unread := forall_mem_singleton.mpr hRemembers.fresh
  read := by
    intro b s' hOk
    cases hOk
    exact ⟨hRemembers.advance, forall_mem_singleton.mpr hRemembers.loaded⟩

/- What is new in one step is not new in the next. -/
theorem append (hFirst : Fresh s (.ok a s₁) first) (hSecond : Fresh s₁ outcome second) :
    Fresh s outcome (first ++ second) := by
  rcases hFirst.read a s₁ rfl with ⟨hAdvance, hRead⟩
  refine ⟨?_, ?_, ?_⟩
  · rw [nodup_append']
    refine ⟨hFirst.nodup, hSecond.nodup, ?_⟩
    intro name hOld hNew
    exact hSecond.unread name hNew (hRead name hOld)
  · rw [forall_mem_append]
    exact ⟨hFirst.unread, fun name hNew hLoaded =>
      hSecond.unread name hNew (hAdvance.loaded hLoaded)⟩
  · intro b s₂ hOk
    rcases hSecond.read b s₂ hOk with ⟨hLater, hReadLater⟩
    refine ⟨hAdvance.trans hLater, ?_⟩
    rw [forall_mem_append]
    exact ⟨fun name hOld => hLater.loaded (hRead name hOld), hReadLater⟩

end Fresh

/- A way into units that walks them as it should while there is room for so many more. -/
def Walks (way : SourceUnit → Lower Unit) (count : Nat) : Prop :=
  ∀ (unit : SourceUnit) (s : LowerState), s.loader.Room count → unit.name ∈ s.loader.loaded →
    ∃ names, Walked ⟨unit, s, way unit s, unit.name :: names⟩ ∧ Fresh s (way unit s) names

/-
  A step whose walks are listed: it ends the same way under every
  way into units that makes them.
-/
def Listed (way : SourceUnit → Lower Unit) (count : Nat)
    (step : (SourceUnit → Lower Unit) → Lower α) : Prop :=
  ∀ s : LowerState, s.loader.Room (count + 1) → ∃ walks,
      (∀ w ∈ walks, Walked w) ∧ Fresh s (step way s) (Walk.allNames walks)
        ∧ ∀ other, Walk.Takes walks other → step other s = step way s

namespace Listed

theorem quiet {step : Lower α} (hQuiet : Quiet step) : Listed way count fun _ => step := by
  intro s _
  refine ⟨[], by simp, .of_advance fun a s' hRun => ?_, fun _ _ => rfl⟩
  have hSame : s'.loader = s.loader := hQuiet.ok s a s' hRun
  rw [hSame]
  exact .refl _

theorem bind {step : (SourceUnit → Lower Unit) → Lower α}
    {next : α → (SourceUnit → Lower Unit) → Lower β} (hStep : Listed way count step)
    (hNext : ∀ a s s', step way s = .ok a s' → Listed way count (next a)) :
    Listed way count fun other => step other >>= fun a => next a other := by
  intro s hRoom
  rcases hStep s hRoom with ⟨walks, hWalks, hFresh, hSame⟩
  rcases hRun : step way s with ⟨a, s₁⟩ | ⟨e, s₁⟩
  · rw [hRun] at hFresh hSame
    have hAdvance := (hFresh.read a s₁ rfl).1
    rcases hNext a s s₁ hRun s₁ (hAdvance.room hRoom) with ⟨later, hLater, hFreshLater, hSameLater⟩
    refine ⟨walks ++ later, ?_, ?_, ?_⟩
    · rw [forall_mem_append]
      exact ⟨hWalks, hLater⟩
    · rw [Walk.allNames_append]
      change Fresh s ((step way >>= fun a => next a way) s) _
      rw [bind_of_ok hRun]
      exact hFresh.append hFreshLater
    · intro other hTakes
      rcases hTakes.of_append with ⟨hFirst, hSecond⟩
      change (step other >>= fun a => next a other) s = (step way >>= fun a => next a way) s
      rw [bind_of_ok hRun, bind_of_ok (hSame other hFirst)]
      exact hSameLater other hSecond
  · rw [hRun] at hFresh hSame
    refine ⟨walks, hWalks, ?_, ?_⟩
    · change Fresh s ((step way >>= fun a => next a way) s) _
      rw [bind_of_error hRun]
      refine ⟨hFresh.nodup, hFresh.unread, ?_⟩
      intro b s₂ hOk
      cases hOk
    · intro other hTakes
      change (step other >>= fun a => next a other) s = (step way >>= fun a => next a way) s
      rw [bind_of_error hRun, bind_of_error (hSame other hTakes)]

/- A unit that is new is walked once. -/
theorem enter (hWay : Walks way count)
    (node : (SourceUnit → Lower Unit) → NodeId → Node → Bool → Lower (Option NodeId))
    (name : String) (asking : Option String) (relative : Bool) (span : Span) :
    Listed way count fun other => enterUnit ⟨node other, other⟩ name asking relative span := by
  intro s hRoom
  rcases hRun : (liftM (Load.require name asking relative span)
      : Lower (Option SourceUnit)) s with ⟨found, s₁⟩ | ⟨e, s₁⟩
  · rcases load_ok hRun with ⟨l, hRequire, rfl⟩
    rcases Load.require_new hRequire with ⟨rfl, rfl⟩ | ⟨unit, rfl, hRemembers⟩
    · have hOk : ∀ other, enterUnit ⟨node other, other⟩ name asking relative span s = .ok () _ :=
        fun _ => bind_of_ok hRun _
      refine ⟨[], by simp, .of_advance ?_, ?_⟩
      · intro a s' hEnd
        cases (hOk way).symm.trans hEnd
        exact .refl _
      · intro other _
        exact (hOk other).trans (hOk way).symm
    · have hOk : ∀ other, enterUnit ⟨node other, other⟩ name asking relative span s
              = other unit _ :=
        fun _ => bind_of_ok hRun _
      have hLess := Loader.room_of_mark hRemembers.key hRemembers.fresh
        hRemembers.advance hRemembers.loaded hRoom
      rcases hWay unit { s with loader := l } hLess hRemembers.loaded with ⟨names, hWalked, hFresh⟩
      refine ⟨[⟨unit, _, _, unit.name :: names⟩], forall_mem_singleton.mpr hWalked, ?_, ?_⟩
      · rw [Walk.allNames, flatMap_singleton]
        change Fresh s (enterUnit ⟨node way, way⟩ _ _ _ _ s) _
        rw [hOk]
        exact (Fresh.of_remembers () hRemembers).append hFresh
      · intro other hTakes
        have hSame := hTakes _ (mem_singleton_self _)
        exact ((hOk other).trans hSame).trans (hOk way).symm
  · have hError : ∀ other, enterUnit ⟨node other, other⟩ name asking relative span s
            = .error e s₁ :=
      fun _ => bind_of_error hRun _
    refine ⟨[], by simp, .of_advance ?_, ?_⟩
    · intro a s' hEnd
      cases (hError way).symm.trans hEnd
    · intro other _
      exact (hError other).trans (hError way).symm

end Listed

theorem Listed.sequential (hWay : Walks way count) : Sequential (Listed way count) where
  quiet := .quiet
  enter := .enter hWay
  bind := fun hStep hNext => .bind hStep fun a s s' hRun => hNext a ⟨way, s, s', hRun⟩

/- The statements of a unit run, and a failure is attributed. -/
theorem unitStep_eq (way : SourceUnit → Lower Unit) :
    unitStep way unit s = match lowerNode way unit.root.height Tree.root unit.root false
          { s with asking := unit.path } with
        | .ok _ s₁ => .ok () { s₁ with asking := s.asking }
        | .error failure s₁ =>
          .error (failure.inFile unit.name) { s₁ with asking := s.asking } := by
  rcases hBody : lowerNode way unit.root.height Tree.root unit.root false
      { s with asking := unit.path } with ⟨result, s₁⟩ | ⟨failure, s₁⟩
  · simp only [unitStep, inUnit, askingFrom, bind_of_ok hBody]
    rfl
  · simp only [unitStep, inUnit, askingFrom, bind_of_error hBody]

/- Units are walked as they should, as far as there is room. -/
theorem lowerUnit_walks (fuel : Nat) : Walks (lowerUnit fuel) fuel := by
  induction fuel with
  | zero => exact fun unit s hRoom => absurd hRoom.pos (by simp)
  | succ fuel ih =>
    intro unit s hRoom _
    rcases (Listed.sequential ih).lowerNode unit.root.height Tree.root false
        (Nat.le_refl unit.root.height) { s with asking := unit.path }
        hRoom
      with ⟨walks, hWalks, hFresh, hSame⟩
    dsimp only at hFresh hSame
    refine ⟨Walk.allNames walks, .through walks hWalks ?_, hFresh.nodup, hFresh.unread, ?_⟩
    · intro other hTakes
      change _ = unitStep (lowerUnit fuel) unit s
      rw [unitStep_eq, unitStep_eq, hSame other hTakes]
    · intro _ s' hRun
      change unitStep (lowerUnit fuel) unit s = _ at hRun
      rw [unitStep_eq] at hRun
      split at hRun
      · rename_i result s₁ hBody
        cases hRun
        exact hFresh.read result s₁ hBody
      · cases hRun

end Lower

-- Programs

namespace Load

/- The ways to read the main unit of a program. -/
inductive Opens : Load SourceUnit → Prop where
  | text (name dump : String) : Opens (openText name dump)
  | unit (path : String) : Opens (openUnit path)

theorem mark_loaded (hRun : mark key l = .ok isNew l') : key ∈ l'.loaded := by
  rw [mark_eq] at hRun
  split at hRun
  · cases hRun
    assumption
  · cases hRun
    exact (.head _)

/- The main unit is remembered. -/
theorem Opens.loaded {main : Load SourceUnit} (hMain : Opens main) (hOpen : main l = .ok unit l') :
    unit.name ∈ l'.loaded := by
  -- What is remembered first stays so when the unit is read.
  have hRead : ∀ {read : Load SourceUnit} {l : Loader} {key : String},
      (∀ {l₁}, read l₁ = .ok unit l' → Reads l₁ l' unit key) →
      (mark key >>= fun _ => read) l = .ok unit l' → unit.name ∈ l'.loaded := by
    intro read l key hReads hRun
    rcases bind_ok hRun with ⟨_, l₁, hMark, hRun⟩
    have hLoaded := mark_loaded hMark
    rcases hReads hRun with ⟨text, rfl, hName, -⟩
    rw [hName]
    exact hLoaded
  cases hMain with
  | text name dump => exact hRead parse_reads hOpen
  | unit path =>
    rcases bind_ok hOpen with ⟨_, _, hGet, hRun⟩
    cases hGet
    rcases hFound : l.inMemory.lookup path with _ | text
    · simp only [hFound] at hRun
      exact hRead readFile_reads hRun
    · simp only [hFound] at hRun
      exact hRead parse_reads hRun

end Load

namespace Lower

/-
  A statement that asks for a new unit in memory and succeeds has walked that unit: what comes
  after it starts where the walk ended.
-/
theorem requireDirective_walks {d : Descent} {parent : NodeId} {directive : String}
    {arg : Node} (hName : nameArgument directive arg s = .ok name s)
    (hFound : s.loader.findInMemory? name = some (key, text)) (hFresh : key ∉ s.loader.loaded)
    (hRun : requireDirective d parent directive relative [arg] span s = .ok () s') :
    ∃ root, read text = .ok root ∧ d.unit ⟨key, none, root⟩ { s with loader := { s.loader with
                loaded := key :: s.loader.loaded
                sources := (key, text) :: s.loader.sources } }
          = .ok () s' := by
  rcases bind_ok hRun with ⟨_, s₁, hScope, hRun⟩
  have hSame : s = s₁ := (directiveOutside_changes (R := Eq)).ok s _ s₁ hScope
  cases hSame
  change (nameArgument directive arg >>= _) s = _ at hRun
  rw [bind_of_ok hName] at hRun
  rcases bind_ok hRun with ⟨_, _, hGet, hRun⟩
  cases hGet
  rcases bind_ok hRun with ⟨found, _, hLoad, hRun⟩
  rcases load_ok hLoad with ⟨l, hRequire, rfl⟩
  rcases Load.require_inMemory hFound hFresh hRequire with ⟨root, hRead, rfl, rfl⟩
  exact ⟨root, hRead, hRun⟩

/-
  A compilation walks no unit twice, whatever the units ask for. It ends without running out of
  units, so allowing for more of them changes nothing.  A statement that asks for a new unit and
  succeeds has walked that unit when the next statement begins.
-/
theorem each_unit_once (options : Options)
    {loader l : Loader} {main : Load SourceUnit} {unit : SourceUnit} (hMain : Load.Opens main)
    (hOpen : main loader = .ok unit l) :
    let start : LowerState := { ctx := .initial options, loader := l }
    (∃ names, names.Nodup ∧ Walked ⟨unit, start, lowerUnit (unitLimit l) unit start, names⟩)
    ∧ (∀ fuel, unitLimit l ≤ fuel → lowerUnit fuel unit start = lowerUnit (unitLimit l) unit start)
    ∧ ∀ (d : Descent) (parent : NodeId) (arg : Node)
        (directive name key text : String) (relative : Bool)
        (span : Span) (s s' : LowerState),
      nameArgument directive arg s = .ok name s →
      s.loader.findInMemory? name = some (key, text) →
      key ∉ s.loader.loaded →
      requireDirective d parent directive relative [arg] span s = .ok () s' →
      ∃ root, read text = .ok root ∧ d.unit ⟨key, none, root⟩ { s with loader := { s.loader with
                    loaded := key :: s.loader.loaded
                    sources := (key, text) :: s.loader.sources } }
            = .ok () s' := by
  intro start
  have hLoaded := hMain.loaded hOpen
  have hWalks : ∀ fuel, unitLimit l ≤ fuel → ∃ names, names.Nodup
          ∧ Walked ⟨unit, start, lowerUnit fuel unit start, names⟩ := by
    intro fuel hFuel
    have hRoom : start.loader.Room fuel := fun keys hUnread =>
      (Loader.room_unitLimit l keys hUnread).trans_le hFuel
    rcases lowerUnit_walks fuel unit start hRoom hLoaded with ⟨names, hWalked, hFresh⟩
    refine ⟨unit.name :: names, nodup_cons.mpr ⟨?_, hFresh.nodup⟩, hWalked⟩
    exact fun hMem => hFresh.unread _ hMem hLoaded
  refine ⟨hWalks _ (Nat.le_refl _), ?_, ?_⟩
  · intro fuel hFuel
    rcases hWalks fuel hFuel with ⟨_, -, hMore⟩
    rcases hWalks _ (Nat.le_refl _) with ⟨_, -, hLimit⟩
    rcases hMore.exists_fuel with ⟨first, hFirst⟩
    rcases hLimit.exists_fuel with ⟨second, hSecond⟩
    exact (hFirst (max first second) (Nat.le_max_left _ _)).symm.trans
      (hSecond (max first second) (Nat.le_max_right _ _))
  · intro d parent arg directive name key text relative span s s' hName hFound hFresh hRun
    exact requireDirective_walks hName hFound hFresh hRun

/- Units that ask for each other, for themselves and for more. -/
def circle : Loader :=
  { inMemory := [("main", "(begin (send nil :require (str \"b\"))
          (send nil :require (str \"b.sexp\")))"),
        ("a", "(begin (send nil :require (str \"b\"))
          (send nil :require (str \"a\")))"),
        ("b.sexp", "(begin (send nil :require (str \"a\"))
          (class (const nil :B) nil (send nil :require (str \"b.sexp\")))
          (send nil :require (str \"main\")))")] }

theorem circle_once : ((compileUnit {} circle "main").result matches .ok _) = true
      ∧ (compileUnit {} circle "main").loader.sources.map Prod.fst = ["a", "b.sexp", "main"]
      ∧ ∃ unit l, Load.Opens (Load.openUnit "main") ∧ Load.openUnit "main" circle = .ok unit l
          ∧ (∃ names, names.Nodup
            ∧ Walked ⟨unit, { ctx := .initial {}, loader := l }, lowerUnit (unitLimit l) unit
                  { ctx := .initial {}, loader := l }, names⟩)
          ∧ ∀ fuel, unitLimit l ≤ fuel →
            lowerUnit fuel unit { ctx := .initial {}, loader := l } = lowerUnit (unitLimit l) unit
                  { ctx := .initial {}, loader := l } := by
  refine ⟨by decide +kernel, by decide +kernel, ?_⟩
  have hRead : ((Load.openUnit "main" circle) matches .ok _ _) = true := by
    decide +kernel
  rcases hOpen : Load.openUnit "main" circle with ⟨unit, l⟩ | ⟨e, l⟩
  · have hOnce := each_unit_once {} (.unit "main") hOpen
    exact ⟨unit, l, .unit "main", rfl, hOnce.1, hOnce.2.1⟩
  · rw [hOpen] at hRead
    cases hRead

end Lower

end RubyWat
