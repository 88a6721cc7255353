import RubyWat.Program.StaticData

/-
  Static data under any requests.

  Key definitions: `StaticData.Request`, `StaticData.serve`, `StaticData.placements`,
    `StaticData.Apart`, `StaticData.Labelled`.

  Main statement: whatever static data is asked for, its cursor only moves forward, values never
  overlap, a label stands for the first value placed under it, and the memory image holds the
  values and zeros between them (`placed_values_apart`).  The cursor is exact up to the last
  address (`cursor_exact_before_last`).
-/

-- Requests

namespace RubyWat.StaticData

open List

variable {d : StaticData} {entries : List DataEntry} {bytes : List UInt8}
variable {base k : Nat}

/- What static data can be asked for. -/
inductive Request where
  | declare (label : String) (value : DataValue) (span : Span)
  | append (label : String) (value : DataValue)
  | move (address : Nat) (span : Span)
  | align (n : Nat)

/- Static data after a request.  A refused one changes nothing. -/
def serve (d : StaticData) : Request → StaticData
  | .declare label value span => ((d.declare label value span).toOption.map Prod.snd).getD d
  | .append label value => (d.place label value).2
  | .move address span => (d.setCursor address span).toOption.getD d
  | .align n => d.align n

/- The value that a request places, at the address it answers. -/
def placement? (d : StaticData) : Request → Option DataEntry
  | .declare label value span =>
    (d.declare label value span).toOption.map fun answer => ⟨label, answer.1, value⟩
  | .append label value => some ⟨label, (d.place label value).1, value⟩
  | .move _ _ | .align _ => none

/-
  Whether a request would move the cursor to an address that
  exists, if there were no last one to stop at.
-/
def Fits (d : StaticData) : Request → Prop
  | .declare label value _ =>
    d.labelAddress? label = none → d.cursor + value.toBytes.length ≤ lastAddress
  | .append _ value => d.cursor + value.toBytes.length ≤ lastAddress
  | .move address _ => address ≤ lastAddress
  | .align n => 1 < n → (d.cursor + n - 1) / n * n ≤ lastAddress

instance (d : StaticData) : (r : Request) → Decidable (d.Fits r)
  | .declare _ _ _ => inferInstanceAs (Decidable (_ → _))
  | .append _ _ => inferInstanceAs (Decidable (_ ≤ _))
  | .move _ _ => inferInstanceAs (Decidable (_ ≤ _))
  | .align _ => inferInstanceAs (Decidable (_ → _))

/- Static data after requests in a row. -/
def serveAll (d : StaticData) (rs : List Request) : StaticData :=
  rs.foldl serve d

/- The values that requests in a row place, in their order. -/
def placements : StaticData → List Request → List DataEntry
  | _, [] => []
  | d, r :: rs => (d.placement? r).toList ++ placements (d.serve r) rs

/- Whether no request in a row would go past the last address. -/
def AllFit : StaticData → List Request → Prop
  | _, [] => True
  | d, r :: rs => d.Fits r ∧ AllFit (d.serve r) rs

instance decideAllFit : (d : StaticData) → (rs : List Request) → Decidable (AllFit d rs)
  | _, [] => .isTrue trivial
  | d, r :: rs =>
    have := decideAllFit (d.serve r) rs
    inferInstanceAs (Decidable (_ ∧ _))

-- Steps

/-
  Values lie one behind the other between the first address and
  the cursor, as far as the places where they stop.
-/
structure Laid (stop : DataEntry → Nat) (base : Nat) (d : StaticData) : Prop where
  sorted : d.entries.Pairwise fun a b => stop a ≤ b.address
  inside : ∀ e ∈ d.entries, base ≤ e.address ∧ stop e ≤ d.cursor
  forward : base ≤ d.cursor
  low : d.cursor ≤ lastAddress

theorem le_roundUp (hSome : 0 < n) (k : Nat) : k ≤ (k + n - 1) / n * n := by
  have hRest := Nat.mod_lt (k + n - 1) hSome
  have hWhole := Nat.div_add_mod' (k + n - 1) n
  omega

namespace Laid

variable {stop : DataEntry → Nat} (hLaid : d.Laid stop base)
include hLaid

/- The cursor may move forward. -/
theorem move {d' : StaticData} (hEntries : d'.entries = d.entries)
    (hForward : d.cursor ≤ d'.cursor) (hLow : d'.cursor ≤ lastAddress) : d'.Laid stop base where
  sorted := hEntries ▸ hLaid.sorted
  inside e hMem := by
    have hInside := hLaid.inside e (hEntries ▸ hMem)
    exact ⟨hInside.1, Nat.le_trans hInside.2 hForward⟩
  forward := Nat.le_trans hLaid.forward hForward
  low := hLow

/- The next value lies behind all others. -/
theorem place (hStop : stop ⟨label, d.cursor, value⟩ ≤ (d.place label value).2.cursor) :
    d.cursor ≤ (d.place label value).2.cursor ∧ (d.place label value).2.Laid stop base := by
  have hForward : d.cursor ≤ (d.place label value).2.cursor :=
    Nat.le_min.mpr ⟨Nat.le_add_right _ _, hLaid.low⟩
  refine ⟨hForward, ?_, ?_, Nat.le_trans hLaid.forward hForward, Nat.min_le_right _ _⟩
  · refine pairwise_append.mpr ⟨hLaid.sorted, pairwise_singleton _ _, ?_⟩
    intro a hMem b hLast
    rw [mem_singleton.mp hLast]
    exact (hLaid.inside a hMem).2
  · refine forall_mem_append.mpr ⟨fun e hMem => ?_, forall_mem_singleton.mpr ?_⟩
    · have hInside := hLaid.inside e hMem
      exact ⟨hInside.1, Nat.le_trans hInside.2 hForward⟩
    · exact ⟨hLaid.forward, hStop⟩

/- What one request does: the cursor moves forward, if at all. -/
theorem serve (hStop : ∀ e ∈ d.placement? r, stop e ≤ (d.serve r).cursor)
    (hMoves : ∀ address span, r = .move address span → address ≤ lastAddress) :
    d.cursor ≤ (d.serve r).cursor ∧ (d.serve r).Laid stop base := by
  have hSame : d.cursor ≤ d.cursor ∧ d.Laid stop base := ⟨Nat.le_refl _, hLaid⟩
  cases r with
  | declare label value span =>
    simp only [StaticData.serve, placement?, declare] at hStop ⊢
    rcases hLabel : d.labelAddress? label with _ | address
    · simp only [hLabel] at hStop
      exact hLaid.place (hStop _ rfl)
    · exact hSame
  | append label value => exact hLaid.place (hStop _ rfl)
  | move address span =>
    simp only [StaticData.serve, setCursor]
    split
    · exact hSame
    · rename_i hForward
      have hForward := Nat.le_of_not_lt hForward
      exact ⟨hForward, hLaid.move rfl hForward (hMoves address span rfl)⟩
  | align n =>
    simp only [StaticData.serve, align]
    split
    · rename_i hMany
      have hForward := Nat.le_min.mpr ⟨le_roundUp (Nat.lt_trans Nat.one_pos hMany) _, hLaid.low⟩
      exact ⟨hForward, hLaid.move rfl hForward (Nat.min_le_right _ _)⟩
    · exact hSame

end Laid

/- Values lie one behind the other with all their bytes. -/
abbrev Apart (base : Nat) (d : StaticData) : Prop :=
  d.Laid (fun e => e.address + e.value.toBytes.length) base

/- A value is placed at the cursor. -/
theorem placement?_eq_some (hPlaced : d.placement? r = some e) :
    ∃ label value, e = ⟨label, d.cursor, value⟩ ∧ d.serve r = (d.place label value).2
      ∧ (d.Fits r → d.cursor + value.toBytes.length ≤ lastAddress) := by
  cases r with
  | declare label value span =>
    simp only [serve, placement?, declare] at hPlaced ⊢
    rcases hLabel : d.labelAddress? label with _ | address
    · rw [hLabel] at hPlaced
      cases hPlaced
      exact ⟨label, value, rfl, rfl, fun hFits => hFits hLabel⟩
    · rw [hLabel] at hPlaced
      cases hPlaced
  | append label value =>
    cases hPlaced
    exact ⟨label, value, rfl, rfl, id⟩
  | move | align => cases hPlaced

/- A value that fits ends at the cursor. -/
theorem le_cursor_place (hFits : d.cursor + value.toBytes.length ≤ lastAddress) :
    d.cursor + value.toBytes.length ≤ (d.place label value).2.cursor := by
  change _ ≤ min (d.cursor + min value.toBytes.length lastAddress) lastAddress
  omega

namespace Apart

variable (hApart : d.Apart base)
include hApart

/- What a request does that stays before the last address. -/
theorem serve (hFits : d.Fits r) : d.cursor ≤ (d.serve r).cursor ∧ (d.serve r).Apart base := by
  refine Laid.serve hApart (fun e hPlaced => ?_) ?_
  · rcases placement?_eq_some hPlaced with ⟨label, value, rfl, hServe, hEnd⟩
    rw [hServe]
    exact le_cursor_place (hEnd hFits)
  · rintro address span rfl
    exact hFits

/- What requests in a row do. -/
theorem serveAll (hFit : AllFit d rs) :
    d.cursor ≤ (d.serveAll rs).cursor ∧ (d.serveAll rs).Apart base := by
  induction rs generalizing d with
  | nil => exact ⟨Nat.le_refl _, hApart⟩
  | cons r rs ih =>
    rcases hApart.serve hFit.1 with ⟨hFirst, hNext⟩
    rcases ih hNext hFit.2 with ⟨hRest, hLast⟩
    exact ⟨Nat.le_trans hFirst hRest, hLast⟩

end Apart

/- Requests that fit in a row do so in two rows as well. -/
theorem AllFit.append (hFit : AllFit d (rs ++ rs')) : AllFit d rs ∧ AllFit (d.serveAll rs) rs' := by
  induction rs generalizing d with
  | nil => exact ⟨trivial, hFit⟩
  | cons r rs ih =>
    rcases ih hFit.2 with ⟨hFirst, hRest⟩
    exact ⟨⟨hFit.1, hFirst⟩, hRest⟩

/- A request adds the value that it places, and no other. -/
theorem entries_serve (d : StaticData) (r : Request) :
    (d.serve r).entries = d.entries ++ (d.placement? r).toList := by
  cases r with
  | declare label value span =>
    simp only [serve, placement?, declare]
    split
    · exact (append_nil _).symm
    · rfl
  | append label value => rfl
  | move address span =>
    simp only [serve, placement?, setCursor]
    split <;> exact (append_nil _).symm
  | align n =>
    simp only [serve, placement?, align]
    split <;> exact (append_nil _).symm

theorem entries_serveAll (d : StaticData) (rs : List Request) :
    (d.serveAll rs).entries = d.entries ++ d.placements rs := by
  induction rs generalizing d with
  | nil => exact (append_nil _).symm
  | cons r rs ih =>
    rw [serveAll, foldl_cons, ← serveAll, ih, entries_serve, placements, append_assoc]

-- Bytes Of The Image

theorem length_overwrite (hInside : address + content.length ≤ bytes.length) :
    (overwrite bytes address content).length = bytes.length := by
  simp only [overwrite, length_append, length_take, length_drop]
  omega

/- A byte after others were written. -/
theorem getElem?_overwrite (hInside : address + content.length ≤ bytes.length) :
    (overwrite bytes address content)[k]? = if address ≤ k ∧ k < address + content.length then
          content[k - address]?
        else bytes[k]? := by
  have hTake : (bytes.take address).length = address := by
    rw [length_take]
    omega
  rw [overwrite, append_assoc]
  by_cases hBefore : k < address
  · rw [if_neg (by omega), getElem?_append_left (by omega), getElem?_take_of_lt hBefore]
  rw [getElem?_append_right (by omega), hTake]
  by_cases hAmong : k < address + content.length
  · rw [if_pos ⟨by omega, hAmong⟩, getElem?_append_left (by omega)]
  · rw [if_neg (by omega), getElem?_append_right (by omega), getElem?_drop]
    congr 1
    omega

/- Bytes with values written over them, one after the other. -/
def overwriteAll (bytes : List UInt8) (entries : List DataEntry) : List UInt8 :=
  entries.foldl (fun memory e => overwrite memory e.address e.value.toBytes) bytes

section

variable (hInside : ∀ e ∈ entries, e.address + e.value.toBytes.length ≤ bytes.length)
include hInside

theorem length_overwriteAll : (overwriteAll bytes entries).length = bytes.length := by
  induction entries generalizing bytes with
  | nil => rfl
  | cons e entries ih =>
    rw [forall_mem_cons] at hInside
    have hFirst := length_overwrite hInside.1
    rw [overwriteAll, foldl_cons, ← overwriteAll, ih (hFirst.symm ▸ hInside.2), hFirst]

/- A byte outside of all values stays. -/
theorem getElem?_overwriteAll_of_outside
    (hOutside : ∀ e ∈ entries, ¬ (e.address ≤ k ∧ k < e.address + e.value.toBytes.length)) :
    (overwriteAll bytes entries)[k]? = bytes[k]? := by
  induction entries generalizing bytes with
  | nil => rfl
  | cons e entries ih =>
    rw [forall_mem_cons] at hInside hOutside
    have hFirst := length_overwrite hInside.1
    rw [overwriteAll, foldl_cons, ← overwriteAll, ih (hFirst.symm ▸ hInside.2) hOutside.2,
      getElem?_overwrite hInside.1, if_neg hOutside.1]

/- Values that do not overlap can be read back. -/
theorem getElem?_overwriteAll_of_mem
    (hSorted : entries.Pairwise fun a b => a.address + a.value.toBytes.length ≤ b.address)
    (hMem : e ∈ entries) (hIn : k < e.value.toBytes.length) :
    (overwriteAll bytes entries)[e.address + k]? = e.value.toBytes[k]? := by
  induction entries generalizing bytes with
  | nil => cases hMem
  | cons first entries ih =>
    rw [forall_mem_cons] at hInside
    rw [pairwise_cons] at hSorted
    have hRest : ∀ e ∈ entries, e.address + e.value.toBytes.length
        ≤ (overwrite bytes first.address first.value.toBytes).length :=
      (length_overwrite hInside.1).symm ▸ hInside.2
    rw [overwriteAll, foldl_cons, ← overwriteAll]
    rcases mem_cons.mp hMem with rfl | hMem
    · rw [getElem?_overwriteAll_of_outside hRest, getElem?_overwrite hInside.1, if_pos (by omega),
        Nat.add_sub_cancel_left]
      intro later hLater
      have hBehind := hSorted.1 later hLater
      omega
    · exact ih hRest hSorted.2 hMem

end

namespace Apart

variable (hApart : d.Apart base)
include hApart

/- All values lie before the cursor. -/
theorem inside_eq : d.inside = d.entries :=
  filter_eq_self.mpr fun e hMem => decide_eq_true (hApart.inside e hMem).2

theorem image_eq : d.image = overwriteAll (replicate d.cursor 0) d.entries := by
  rw [image, hApart.inside_eq, overwriteAll]

theorem inside_zeros : ∀ e ∈ d.entries,
      e.address + e.value.toBytes.length ≤ (replicate d.cursor (0 : UInt8)).length := by
  rw [length_replicate]
  exact fun e hMem => (hApart.inside e hMem).2

/- The number of bytes of a value is what is counted of them. -/
theorem size_eq (hMem : e ∈ d.entries) : e.value.size = e.value.toBytes.length := by
  have hInside := (hApart.inside e hMem).2
  have hLow := hApart.low
  exact Nat.min_eq_left (by omega)

end Apart

-- Labels

/- The map from labels leads to the first value under each of them, and from no other label. -/
def Labelled (d : StaticData) : Prop :=
  ∀ label, d.labelAddress? label = (d.entries.find? (·.label == label)).map (·.address)

/- A label that is in the map keeps its address; another one gets the address given. -/
theorem lookup_orInsert (d : StaticData) (label : String) (address : Nat) (other : String) :
    (d.orInsert label address).lookup other
      = (d.labelAddress? other).or (if other = label then some address else none) := by
  simp only [orInsert]
  split
  next hSome =>
    by_cases hEq : other = label
    · rw [hEq, hSome]
      exact hSome
    · rw [if_neg hEq, Option.or_none]
      rfl
  next hNone =>
    rw [lookup_cons]
    by_cases hEq : other = label
    · rw [hEq, hNone]
      simp
    · rw [beq_eq_false_iff_ne.mpr hEq, if_neg hEq, Option.or_none]
      rfl

/- The first value under a label stays the first. -/
theorem Labelled.place (hLabelled : d.Labelled) (label : String) (value : DataValue) :
    (d.place label value).2.Labelled := by
  intro other
  have hFirst : ((d.place label value).2.entries.find? (·.label == other))
      = (d.entries.find? (·.label == other)).or
          ([⟨label, d.cursor, value⟩].find? (·.label == other)) := find?_append
  calc (d.orInsert label d.cursor).lookup other
    _ = (d.labelAddress? other).or (if other = label then some d.cursor else none) :=
      d.lookup_orInsert label d.cursor other
    _ = ((d.place label value).2.entries.find? (·.label == other)).map (·.address) := by
      rw [hFirst, Option.map_or, hLabelled]
      congr 1
      by_cases hEq : other = label
      · simp [hEq]
      · simp [hEq, Ne.symm hEq]

/- What one request and what requests in a row make of the labels. -/
theorem Labelled.serve (hLabelled : d.Labelled) (r : Request) : (d.serve r).Labelled := by
  cases r with
  | declare label value span =>
    simp only [StaticData.serve, declare]
    split
    · exact hLabelled
    · exact hLabelled.place label value
  | append label value => exact hLabelled.place label value
  | move address span =>
    simp only [StaticData.serve, setCursor]
    split <;> exact hLabelled
  | align n =>
    simp only [StaticData.serve, align]
    split <;> exact hLabelled

theorem Labelled.serveAll (hLabelled : d.Labelled) (rs : List Request) :
    (d.serveAll rs).Labelled := by
  induction rs generalizing d with
  | nil => exact hLabelled
  | cons r rs ih => exact ih (hLabelled.serve r)

/- Declaring under a label fails if and only if it has a value. -/
theorem declare_error_iff (hLabelled : d.Labelled) (label : String) (value : DataValue)
    (span : Span) :
    (∃ fault, d.declare label value span = .error fault) ↔ ∃ e ∈ d.entries, e.label = label := by
  have hFound : (∃ e ∈ d.entries, e.label = label) ↔ (d.labelAddress? label).isSome := by
    simp [hLabelled label]
  rw [hFound, declare]
  rcases d.labelAddress? label with _ | address
  · simp
  · simp

/-
  Whatever is asked for, as long as nothing goes past the last address, the cursor never moves
  back, values lie one behind the other between the first address and the cursor, and the values
  are those that were placed, in that order.  A label stands for the address of the first value
  placed under it and is refused from then on.  The image ends at the cursor, holds every value
  at its address and is zero elsewhere.
-/
theorem placed_values_apart (base : Nat) (rs : List Request) (hBase : base ≤ lastAddress)
    (hFit : AllFit { cursor := base } rs) :
    let start : StaticData := { cursor := base }
    let d := start.serveAll rs
    (∀ earlier later, rs = earlier ++ later → (start.serveAll earlier).cursor ≤ d.cursor)
      ∧ d.entries = start.placements rs
      ∧ d.entries.Pairwise (fun a b => a.address + a.value.size ≤ b.address)
      ∧ (∀ e ∈ d.entries, base ≤ e.address ∧ e.address + e.value.size ≤ d.cursor)
      ∧ (∀ label, d.labelAddress? label
          = ((start.placements rs).find? (·.label == label)).map (·.address))
      ∧ (∀ label value span, (∃ fault, d.declare label value span = .error fault)
          ↔ ∃ e ∈ start.placements rs, e.label = label)
      ∧ d.image.length = d.cursor
      ∧ (∀ e ∈ d.entries, ∀ k < e.value.size, d.image[e.address + k]? = e.value.toBytes[k]?)
      ∧ ∀ k < d.cursor, (∀ e ∈ d.entries, ¬ (e.address ≤ k ∧ k < e.address + e.value.size)) →
            d.image[k]? = some 0 := by
  intro start d
  have hStart : start.Apart base := ⟨.nil, by simp [start], Nat.le_refl _, hBase⟩
  have hApart : d.Apart base := (hStart.serveAll hFit).2
  have hEntries : d.entries = start.placements rs := entries_serveAll start rs
  have hLabelled : d.Labelled := Labelled.serveAll (d := start) (fun _ => rfl) rs
  refine ⟨?_, hEntries, ?_, ?_, ?_, ?_, ?_, ?_, ?_⟩
  · rintro earlier later rfl
    rcases hFit.append with ⟨hFirst, hRest⟩
    have hLater := ((hStart.serveAll hFirst).2.serveAll hRest).1
    simpa only [d, serveAll, foldl_append] using hLater
  · exact hApart.sorted.imp_of_mem fun hMem _ hLe => (hApart.size_eq hMem).symm ▸ hLe
  · exact fun e hMem => (hApart.size_eq hMem).symm ▸ hApart.inside e hMem
  · intro label
    rw [hLabelled, hEntries]
  · intro label value span
    rw [declare_error_iff hLabelled, hEntries]
  · rw [hApart.image_eq, length_overwriteAll hApart.inside_zeros, length_replicate]
  · intro e hMem k hIn
    rw [hApart.image_eq]
    exact getElem?_overwriteAll_of_mem hApart.inside_zeros hApart.sorted hMem
      (hApart.size_eq hMem ▸ hIn)
  · intro k hIn hOutside
    rw [hApart.image_eq, getElem?_overwriteAll_of_outside hApart.inside_zeros,
      getElem?_replicate, if_pos hIn]
    exact fun e hMem => hApart.size_eq hMem ▸ hOutside e hMem

/-
  An empty value, a number behind a gap, two requests that are
  refused, and text up to the last address.
-/
def upToLast : List Request :=
  [.append "mark" (.bytes []), .align 8, .declare "count" (.int .i64 (-2)) .generated,
    .declare "mark" (.int .i32 7) .generated, .move 3 .generated,
    .move (lastAddress - 2) .generated, .append "mark" (.bytes [0x48, 0x69])]

theorem upToLast_apart : AllFit { cursor := 5 } upToLast
      ∧ (serveAll { cursor := 5 } upToLast).cursor = lastAddress
      ∧ (serveAll { cursor := 5 } upToLast).image[9]? = some 0xff
      ∧ (serveAll { cursor := 5 } upToLast).image[6]? = some 0 := by
  have hFit : AllFit { cursor := 5 } upToLast := by decide
  have hData : serveAll { cursor := 5 } upToLast
        = ⟨lastAddress, [⟨"mark", 5, .bytes []⟩, ⟨"count", 8, .int .i64 (-2)⟩,
            ⟨"mark", lastAddress - 2, .bytes [0x48, 0x69]⟩], [("count", 8), ("mark", 5)]⟩ := by
    rfl
  rcases placed_values_apart 5 upToLast (by decide) hFit with ⟨_, _, _, _, _, _, _, hHeld, hZero⟩
  rw [hData] at hHeld hZero ⊢
  exact ⟨hFit, rfl, (hHeld ⟨"count", 8, .int .i64 (-2)⟩ (by simp) 1 (by decide)).trans (by decide),
    hZero 6 (by decide) (by decide)⟩

-- The Last Address

/- Where a value stops, as far as there are addresses. -/
def stopBefore (e : DataEntry) : Nat :=
  min (e.address + e.value.size) lastAddress

/- The next multiple of a number is the least one. -/
theorem roundUp_le (hMultiple : n ∣ j) (hLe : k ≤ j) : (k + n - 1) / n * n ≤ j := by
  rcases hMultiple with ⟨q, rfl⟩
  rcases Nat.eq_zero_or_pos n with rfl | hSome
  · simp
  rw [Nat.mul_comm]
  refine Nat.mul_le_mul_left n (Nat.le_of_lt_succ ((Nat.div_lt_iff_lt_mul hSome).mpr ?_))
  rw [Nat.succ_mul, Nat.mul_comm q n]
  omega

theorem Laid.serveAll (hLaid : d.Laid stopBefore base)
    (hMoves : ∀ address span, .move address span ∈ rs → address ≤ lastAddress) :
    (d.serveAll rs).Laid stopBefore base := by
  induction rs generalizing d with
  | nil => exact hLaid
  | cons r rs ih =>
    refine ih (hLaid.serve (fun e hPlaced => ?_) ?_).2 fun address span hMem =>
      hMoves address span (.tail _ hMem)
    · rcases placement?_eq_some hPlaced with ⟨label, value, rfl, hServe, _⟩
      rw [hServe]
      exact Nat.le_refl _
    · rintro address span rfl
      exact hMoves address span (.head _)

/-
  Whatever was asked for, the cursor is exact up to the last address and stops there.  Aligning
  moves it to the least multiple that is not before it, a value is placed at it and moves it by
  the size of the value, and a value only starts inside of an earlier one at the last address.
-/
theorem cursor_exact_before_last (base : Nat) (rs : List Request) (hBase : base ≤ lastAddress)
    (hMoves : ∀ address span, .move address span ∈ rs → address ≤ lastAddress) :
    let d := serveAll { cursor := base } rs
    (∀ n, 1 ≤ n → ∃ k, n ∣ k ∧ d.cursor ≤ k ∧ (∀ j, n ∣ j → d.cursor ≤ j → k ≤ j)
          ∧ (d.align n).cursor = min k lastAddress)
      ∧ (∀ label value, (d.place label value).1 = d.cursor
          ∧ (d.place label value).2.cursor = min (d.cursor + value.size) lastAddress)
      ∧ (∀ label value span answer, d.declare label value span = .ok answer →
          answer = d.place label value)
      ∧ d.entries.Pairwise fun a b => a.address + a.value.size ≤ b.address
          ∨ lastAddress ≤ b.address := by
  intro d
  have hStart : Laid stopBefore base { cursor := base } := ⟨.nil, by simp, Nat.le_refl _, hBase⟩
  have hLaid : d.Laid stopBefore base := hStart.serveAll hMoves
  refine ⟨fun n hSome => ?_, fun _ _ => ⟨rfl, rfl⟩, ?_, ?_⟩
  · refine ⟨(d.cursor + n - 1) / n * n, Nat.dvd_mul_left _ _, le_roundUp hSome _,
      fun j => roundUp_le, ?_⟩
    rw [align]
    split
    · rfl
    · rw [show n = 1 by omega, Nat.add_sub_cancel, Nat.div_one, Nat.mul_one,
        Nat.min_eq_left hLaid.low]
  · intro label value span answer hDeclare
    rw [declare] at hDeclare
    split at hDeclare
    · cases hDeclare
    · cases hDeclare
      rfl
  · refine hLaid.sorted.imp fun hStop => ?_
    rw [stopBefore] at hStop
    omega

/- Values and a gap up to the last address, where all else falls. -/
theorem upToLast_exact :
    let rs := upToLast ++ [.append "more" (.int .i32 1), .append "more" (.int .i32 2)]
    let d := serveAll { cursor := 5 } rs
    (5 ≤ lastAddress ∧ ∀ address span, .move address span ∈ rs → address ≤ lastAddress)
      ∧ d.cursor = lastAddress
      ∧ d.entries.map (·.address) = [5, 8, lastAddress - 2, lastAddress, lastAddress]
      ∧ ∃ k, 4 ∣ k ∧ d.cursor ≤ k ∧ (d.align 4).cursor = min k lastAddress := by
  intro rs d
  have hMoves : ∀ address span, .move address span ∈ rs → address ≤ lastAddress := by
    simp [rs, upToLast, lastAddress]
    omega
  have hBase : 5 ≤ lastAddress := by decide
  rcases (cursor_exact_before_last 5 rs hBase hMoves).1 4 (by decide) with
    ⟨k, hMultiple, hLe, _, hAlign⟩
  exact ⟨⟨hBase, hMoves⟩, rfl, rfl, k, hMultiple, hLe, hAlign⟩

end RubyWat.StaticData
