import RubyWat.Machine.Entry
import RubyWat.Proofs.Placement
import RubyWat.Proofs.Segments

/-
  The memory that a program starts with.

  Key definitions: `StaticData.Placed`, `Machine.Memory.contents`, `Machine.Memory.zeroed`,
    `Machine.Memory.writeAll`.

  A program finds its static data in memory in two ways: the machine copies it there, and the
  text of a module lists it as data segments.

  Main statement: writing the segments of the text into memory that is zero never leaves that
  memory and makes the memory that the machine starts with (`text_memory`).  The statement needs
  labels that end with their line (`forged_segment`).
-/

-- Placement

namespace RubyWat

open Machine Nat StaticData

variable {entries : List DataEntry} {bytes : List UInt8}
variable {size : Nat} {d : StaticData}

namespace StaticData

/-
  Static data whose cursor never reached the last address: values
  were placed and the cursor was moved and aligned, in any order.
-/
inductive Placed : StaticData → Prop where
  | base {address : Nat} (hLow : address < lastAddress) : Placed { cursor := address }
  | place {d : StaticData} (label : String) (value : DataValue) (hPlaced : Placed d)
      (hLow : (d.place label value).2.cursor < lastAddress) : Placed (d.place label value).2
  | setCursor {d d' : StaticData} {address : Nat} {span : Span} (hPlaced : Placed d)
      (hSet : d.setCursor address span = .ok d') (hLow : d'.cursor < lastAddress) : Placed d'
  | align {d : StaticData} (n : Nat) (hPlaced : Placed d)
      (hLow : (d.align n).cursor < lastAddress) : Placed (d.align n)

/- Placed values lie one behind the other before the cursor. -/
theorem Placed.apart (hPlaced : d.Placed) : d.Apart 0 := by
  induction hPlaced with
  | base hLow => exact ⟨.nil, by simp, Nat.zero_le _, hLow.le⟩
  | @place d label value _ hLow ih =>
    change min (d.cursor + min value.toBytes.length lastAddress) lastAddress < lastAddress at hLow
    have hFits : d.cursor + value.toBytes.length ≤ lastAddress := by omega
    exact (Laid.place ih (le_cursor_place hFits)).2
  | setCursor _ hSet hLow ih =>
    rw [StaticData.setCursor] at hSet
    split at hSet
    · contradiction
    · rename_i hForward
      cases hSet
      exact ih.move rfl (Nat.le_of_not_lt hForward) hLow.le
  | @align d n _ hLow ih =>
    have hFits : d.Fits (.align n) := by
      intro hMany
      rw [StaticData.align, if_pos hMany] at hLow
      change min _ lastAddress < lastAddress at hLow
      omega
    exact (ih.serve hFits).2

namespace Apart

/- Values that were placed in order are printed in order. -/
theorem byAddress_eq (hApart : d.Apart 0) : d.byAddress = d.entries := by
  refine List.mergeSort_of_pairwise ?_
  exact hApart.sorted.imp fun hLe => decide_eq_true (by omega)

theorem endAddress_eq (hApart : d.Apart 0) : d.endAddress = d.cursor := by
  have hBefore := fun e hMem => (hApart.inside e hMem).2
  rw [endAddress]
  generalize d.entries = entries at hBefore
  induction entries with
  | nil => rfl
  | cons e entries ih =>
    have hFirst := hBefore e (by simp)
    have hTop : max d.cursor (min (e.address + e.value.size) lastAddress) = d.cursor := by
      have hSize : e.value.size ≤ e.value.toBytes.length := min_le_left _ _
      omega
    rw [List.foldl_cons, hTop]
    exact ih fun other hMem => hBefore other (by simp [hMem])

end Apart

end StaticData

/- The memory of a module holds all of its static data. -/
theorem Context.cursor_le_memory {ctx : Context} (hApart : ctx.program.data.Apart 0) :
    ctx.program.data.cursor ≤ ctx.memoryPages * pageSize := by
  have hPages : pagesFor ctx.program.data.endAddress ≤ ctx.memoryPages := le_max_right _ _
  rw [hApart.endAddress_eq, pagesFor] at hPages
  simp only [pageSize] at hPages ⊢
  omega

-- Bytes Of Memory

namespace Machine

namespace Memory

/- All bytes of memory. -/
def contents (m : Memory) : List UInt8 :=
  m.peek 0 m.size

/- Memory of a size without any data. -/
def zeroed (size : Nat) : Memory :=
  { size, written := {} }

/- Write segments into memory, one after the other. -/
def writeAll (m : Memory) (segments : List (Nat × List UInt8)) : Except Trap Memory :=
  segments.foldlM (fun m segment => m.write segment.1 segment.2) m

/- Put values into memory, one after the other. -/
def pokeAll (m : Memory) (entries : List DataEntry) : Memory :=
  entries.foldl (fun m e => m.poke e.address e.value.toBytes) m

@[simp]
theorem size_poke (m : Memory) (address : Nat) (bytes : List UInt8) :
    (m.poke address bytes).size = m.size := by
  induction bytes generalizing m address with
  | nil => rfl
  | cons b bytes ih => rw [poke, ih]

/- A byte after others were written. -/
theorem byte_poke (m : Memory) (address : Nat) (bytes : List UInt8) (k : Nat) :
    (m.poke address bytes).byte k = if address ≤ k then
          (bytes[k - address]?).getD (m.byte k)
        else m.byte k := by
  induction bytes generalizing m address with
  | nil => simp [poke]
  | cons b bytes ih =>
    have hFirst : ({ m with written := m.written.insert address b } : Memory).byte k
          = if k = address then b else m.byte k := by
      simp only [byte, Std.HashMap.getD_insert, beq_iff_eq, @eq_comm Nat k]
    rw [poke, ih, hFirst]
    rcases Nat.lt_trichotomy k address with hLess | rfl | hMore
    · rw [if_neg (by omega), if_neg (by omega), if_neg (by omega)]
    · rw [if_neg (by omega), if_pos rfl, if_pos (Nat.le_refl k), Nat.sub_self]
      rfl
    · rw [if_pos (by omega), if_neg (by omega), if_pos (by omega),
        show k - address = (k - (address + 1)) + 1 by omega,
        List.getElem?_cons_succ]

theorem peek_eq (m : Memory) (address count : Nat) :
    m.peek address count = (List.range' address count).map m.byte := by
  induction count generalizing address with
  | zero => rfl
  | succ count ih => rw [peek, ih, List.range'_succ, List.map_cons]

theorem getElem?_contents (m : Memory) (k : Nat) :
    m.contents[k]? = if k < m.size then some (m.byte k) else none := by
  rw [contents, peek_eq, List.getElem?_map]
  split
  · rename_i hInside
    rw [List.getElem?_range' hInside]
    simp
  · rename_i hOutside
    rw [List.getElem?_eq_none (by simpa using hOutside)]
    rfl

@[simp]
theorem length_contents (m : Memory) : m.contents.length = m.size := by
  rw [contents, peek_eq, List.length_map, List.length_range']

/- Written bytes take the place of those that were there. -/
theorem contents_poke (m : Memory) (hInside : address + bytes.length ≤ m.size) :
    (m.poke address bytes).contents = overwrite m.contents address bytes := by
  refine List.ext_getElem? fun k => ?_
  rw [getElem?_overwrite (by rwa [length_contents]), getElem?_contents,
    getElem?_contents, size_poke, byte_poke]
  by_cases hAmong : address ≤ k ∧ k < address + bytes.length
  · have hIn : k - address < bytes.length := by omega
    have hSize : k < m.size := by omega
    rw [if_pos hAmong, if_pos hAmong.1, if_pos hSize, List.getElem?_eq_getElem hIn,
      Option.getD_some]
  rw [if_neg hAmong]
  by_cases hBefore : k < address
  · simp only [if_neg (not_le.mpr hBefore)]
  · rw [List.getElem?_eq_none (by omega), Option.getD_none, ite_self]

@[simp]
theorem byte_zeroed (size k : Nat) : (zeroed size).byte k = 0 := by
  simp [byte, zeroed]

theorem contents_zeroed (size : Nat) : (zeroed size).contents = List.replicate size 0 := by
  refine List.ext_getElem? fun k => ?_
  rw [getElem?_contents, List.getElem?_replicate, byte_zeroed]
  rfl

-- Two Ways To Fill Memory

variable (m : Memory) (hInside : ∀ e ∈ entries, e.address + e.value.toBytes.length ≤ m.size)
include m hInside

/- Values that lie in memory are written without a fault. -/
theorem writeAll_eq :
    m.writeAll (entries.map fun e => (e.address, e.value.toBytes)) = .ok (m.pokeAll entries) := by
  induction entries generalizing m with
  | nil => rfl
  | cons e entries ih =>
    have hWrite : m.write e.address e.value.toBytes = .ok (m.poke e.address e.value.toBytes) :=
      if_pos (decide_eq_true (hInside e (by simp)))
    have hRest := ih (m.poke e.address e.value.toBytes) fun other hMem => by
        rw [size_poke]
        exact hInside other (by simp [hMem])
    rw [writeAll, List.map_cons, List.foldlM_cons, hWrite]
    exact hRest

/- The bytes of memory after values were put there. -/
theorem contents_pokeAll : (m.pokeAll entries).contents = overwriteAll m.contents entries := by
  induction entries generalizing m with
  | nil => rfl
  | cons e entries ih =>
    have hFirst := contents_poke m (hInside e (by simp))
    have hRest := ih (m.poke e.address e.value.toBytes) fun other hMem => by
        rw [size_poke]
        exact hInside other (by simp [hMem])
    rw [overwriteAll, List.foldl_cons, ← hFirst]
    exact hRest

end Memory

end Machine

namespace StaticData

/- Writing within the first bytes leaves those after them alone. -/
theorem overwrite_append (hInside : address + content.length ≤ bytes.length) :
    overwrite (bytes ++ after) address content = overwrite bytes address content ++ after := by
  rw [overwrite, overwrite, List.take_append_of_le_length (by omega),
    List.drop_append_of_le_length hInside]
  simp only [List.append_assoc]

theorem overwriteAll_append (after : List UInt8)
    (hInside : ∀ e ∈ entries, e.address + e.value.toBytes.length ≤ bytes.length) :
    overwriteAll (bytes ++ after) entries = overwriteAll bytes entries ++ after := by
  induction entries generalizing bytes with
  | nil => rfl
  | cons e entries ih =>
    have hFirst := hInside e (by simp)
    rw [overwriteAll, List.foldl_cons, overwrite_append hFirst]
    refine ih fun other hMem => ?_
    rw [length_overwrite hFirst]
    exact hInside other (by simp [hMem])

end StaticData

namespace Machine

namespace Memory

/- The machine starts with all values, in the order of placement. -/
theorem ofData_eq (hApart : d.Apart 0) (hSize : d.cursor ≤ size) :
    ofData size d = (zeroed size).pokeAll d.entries := by
  rw [ofData, hApart.inside_eq, max_eq_left hSize]
  rfl

/- The machine starts with the static data and zeros after it. -/
theorem contents_ofData (hApart : d.Apart 0) (hSize : d.cursor ≤ size) :
    (ofData size d).contents = d.image ++ List.replicate (size - d.cursor) 0 := by
  have hZeros : List.replicate size (0 : UInt8) = List.replicate d.cursor 0
          ++ List.replicate (size - d.cursor) 0 := by
    rw [List.replicate_append_replicate, Nat.add_sub_cancel' hSize]
  rw [ofData_eq hApart hSize, contents_pokeAll, contents_zeroed, hZeros,
    overwriteAll_append, hApart.image_eq]
  · intro e hMem
    rw [List.length_replicate]
    exact (hApart.inside e hMem).2
  · intro e hMem
    exact (hApart.inside e hMem).2.trans hSize

end Memory

end Machine

namespace Context

/-
  Writing the data segments in the text of a module into memory that is zero stays inside of it
  and makes the memory that the machine starts with: the static data, and zeros after it.
-/
theorem text_memory {σ : Type} (ctx : Context) (world : σ) (hPlaced : ctx.program.data.Placed)
    (hLines : ctx.KeepsLines) (hCode : Wat.DatalessCode ctx.tree) :
    ∃ memory, (Memory.zeroed (ctx.memoryPages * pageSize)).writeAll (Wat.segments ctx.moduleText)
        = .ok memory
      ∧ (start ctx world).map (·.memory)
        = (initialGlobals ctx.program.globals.toList).map (fun _ => memory)
      ∧ memory.contents = ctx.program.data.image ++ List.replicate
              (ctx.memoryPages * pageSize - ctx.program.data.cursor) 0 := by
  have hApart := hPlaced.apart
  have hSize := cursor_le_memory hApart
  refine ⟨.ofData (ctx.memoryPages * pageSize) ctx.program.data, ?_, ?_,
    Memory.contents_ofData hApart hSize⟩
  · rw [segments_moduleText hLines hCode, hApart.byAddress_eq, Memory.ofData_eq hApart hSize]
    refine Memory.writeAll_eq _ fun e hMem => ?_
    exact (hApart.inside e hMem).2.trans hSize
  · rw [start]
    cases initialGlobals ctx.program.globals.toList with
    | error | ok => rfl

-- Two Modules

/- A module with static data and no code. -/
def ofData (data : StaticData) : Context :=
  { program := { Program.empty 0 with data } }

theorem dataless_ofData (data : StaticData) : Wat.DatalessCode (ofData data).tree := by
  intro n text hInstr
  rcases n with ⟨_ | k⟩ <;> cases hInstr

/- Text across the end of a page, and a number behind it. -/
def acrossPages : StaticData :=
  let text := ({ cursor := 65530 } : StaticData).place "text"
      (.bytes [0x48, 0x22, 0x5c, 0x0a, 0xff, 0x00, 0x41, 0x42])
  ((text.2.align 8).place "count" (.int .i32 (-2))).2

theorem placed_acrossPages : acrossPages.Placed :=
  .place _ _ (.align _ (.place _ _ (.base (by decide)) (by decide)) (by decide)) (by decide)

theorem acrossPages_memory : acrossPages.Placed ∧ (ofData acrossPages).KeepsLines
      ∧ Wat.DatalessCode (ofData acrossPages).tree
      ∧ ∃ memory, (Memory.zeroed (2 * pageSize)).writeAll
            (Wat.segments (ofData acrossPages).moduleText)
          = .ok memory
        ∧ (start (ofData acrossPages) ()).map (·.memory) = .ok memory
        ∧ memory.contents = acrossPages.image ++ List.replicate (2 * pageSize - 65548) 0 := by
  have hApart := placed_acrossPages.apart
  have hLines : (ofData acrossPages).KeepsLines := by
    have hData : (ofData acrossPages).program.data = acrossPages := rfl
    rw [KeepsLines, textLines, headLines, hData, hApart.byAddress_eq]
    decide +kernel
  refine ⟨placed_acrossPages, hLines, dataless_ofData _, ?_⟩
  exact text_memory (ofData acrossPages) () placed_acrossPages hLines (dataless_ofData _)

/- A number under a label whose second line looks like data. -/
def forged : StaticData :=
  (({ cursor := 16 } : StaticData).place "a\n  (data (i32.const 0) \"AAAA\")" (.int .i32 5)).2

/- A label with a line feed adds a segment to the text that the machine does not know of. -/
theorem forged_segment : forged.Placed ∧ Wat.DatalessCode (ofData forged).tree ∧ ∃ memory,
        (Memory.zeroed ((ofData forged).memoryPages * pageSize)).writeAll
            (Wat.segments (ofData forged).moduleText)
          = .ok memory
        ∧ memory.peek 0 4 = [0x41, 0x41, 0x41, 0x41]
        ∧ (start (ofData forged) ()).map (·.memory.peek 0 4) = .ok [0, 0, 0, 0] := by
  have hPlaced : forged.Placed := .place _ _ (.base (by decide)) (by decide)
  have hSegments : Wat.segments (ofData forged).moduleText
        = [(16, [5, 0, 0, 0]), (0, [0x41, 0x41, 0x41, 0x41])] := by
    have hData : (ofData forged).program.data = forged := rfl
    rw [moduleText, headLines, hData, hPlaced.apart.byAddress_eq]
    decide +kernel
  refine ⟨hPlaced, dataless_ofData _,
    ((Memory.zeroed ((ofData forged).memoryPages * pageSize)).poke 16
      [5, 0, 0, 0]).poke 0 [0x41, 0x41, 0x41, 0x41], ?_, ?_, ?_⟩
  · rw [hSegments]
    rfl
  · simp [Memory.peek, Memory.byte_poke]
  · have hApart : (ofData forged).program.data.Apart 0 := hPlaced.apart
    have hMemory := Memory.ofData_eq hPlaced.apart (cursor_le_memory hApart)
    have hStart : (start (ofData forged) ()).map (·.memory.peek 0 4) = .ok ((Memory.ofData
              ((ofData forged).memoryPages * pageSize) forged).peek 0 4) :=
      rfl
    rw [hStart, hMemory, Memory.pokeAll]
    simp [forged, place, Memory.peek, Memory.byte_poke]

end Context

end RubyWat
