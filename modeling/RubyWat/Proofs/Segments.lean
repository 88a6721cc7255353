import Mathlib.Data.List.Basic
import RubyWat.Proofs.RoundTrip
import RubyWat.Wat.Module

/-
  Data segments in the text of a module.

  Key definitions: `Wat.literal?`, `Wat.segment?`, `Wat.segments`, `Context.textLines`.

  A data segment is a line `(data (i32.const n) "...")`.  In its string a backslash and two
  hexadecimal digits are a byte, and every other character stands for its own bytes.

  The text of a module holds one segment for each value in static data, and no other line of it
  is read as a segment (`segments_moduleText`), as long as each name in the text ends with its
  line and raw code declares no data.
-/

-- Reading Segments

namespace RubyWat

open Code Dump Text Option Nat

variable {line : List Char}
variable {p : Program}

namespace Wat

/- The bytes that a string stands for, and the text after its closing quote. -/
def literal? : List Char → Option (List UInt8 × List Char)
  | [] => none
  | '"' :: rest => some ([], rest)
  | '\\' :: high :: low :: rest => do
      let n ← Numeral.digits? 16 [high, low]
      let (bytes, after) ← literal? rest
      return (UInt8.ofNat n :: bytes, after)
  | c :: rest => do
      if c = '\\' then none
      let (bytes, after) ← literal? rest
      return (String.utf8EncodeChar c ++ bytes, after)

/- The address and the bytes of a data segment. -/
def segment? (line : List Char) : Option (Nat × List UInt8) := do
  let rest ← (line.dropWhile (· == ' ')).dropPrefix? "(data (i32.const ".toList
  let address ← Numeral.digits? 10 (rest.takeWhile Char.isDigit)
  let rest ← (rest.dropWhile Char.isDigit).dropPrefix? ") \"".toList
  let (bytes, rest) ← literal? rest
  let _ ← rest.dropPrefix? ")".toList
  return (address, bytes)

/- The data segments of a text, in the order of its lines. -/
def segments (text : String) : List (Nat × List UInt8) :=
  (splitAt (· == '\n') text.toList).filterMap segment?

end Wat

-- Strings

/- A byte as it is written in a data segment. -/
theorem dataText_cons (b : UInt8) (bytes : List UInt8) : (dataText (b :: bytes)).toList
      = (if Printer.isPlain b then
          [Char.ofNat b.toNat]
        else '\\' :: (Numeral.hexByte b).toList)
        ++ (dataText bytes).toList := by
  have hPlain : (decide (0x20 ≤ b.toNat) && decide (b.toNat ≤ 0x7e) && b != 0x22 && b != 0x5c)
        = Printer.isPlain b := by
    rw [Bool.eq_iff_iff]
    simp [Printer.isPlain, and_assoc, ← UInt8.toNat_inj]
  simp only [dataText, hPlain, List.map_cons, String.toList_join, List.flatMap_cons]
  split
  · rw [Char.toString, String.toList_singleton]
  · rw [String.toList_append]
    rfl

namespace Wat

/- An escaped byte at the front of a string. -/
theorem literal?_hexByte (b : UInt8) (hRest : literal? rest = some (bytes, after)) :
    literal? ('\\' :: (Numeral.hexByte b).toList ++ rest) = some (b :: bytes, after) := by
  have hDigits := Printer.digits?_hexByte b
  rw [Numeral.hexByte, String.toList_ofList] at hDigits ⊢
  simp [literal?, hDigits, hRest]

/- A character that stands for itself at the front of a string. -/
theorem literal?_char (hQuote : c ≠ '"') (hSlash : c ≠ '\\')
    (hRest : literal? rest = some (bytes, after)) :
    literal? (c :: rest) = some (String.utf8EncodeChar c ++ bytes, after) := by
  simp [literal?, hSlash, hRest]

/- A written string is read back as the bytes written. -/
theorem literal?_dataText (bytes : List UInt8) (after : List Char) :
    literal? ((dataText bytes).toList ++ '"' :: after) = some (bytes, after) := by
  induction bytes with
  | nil => rfl
  | cons b bytes ih =>
    rw [dataText_cons, List.append_assoc]
    split
    · rename_i hPlain
      rcases Printer.encodeChar_of_isPlain hPlain with ⟨hChar, hQuote, hSlash⟩
      have hRead := literal?_char hQuote hSlash ih
      rwa [hChar] at hRead
    · exact literal?_hexByte b ih

-- Lines

/- Whether a line opens a data segment. -/
def opensData (line : List Char) : Bool :=
  "(data ".toList.isPrefixOf (line.dropWhile (· == ' '))

theorem segment?_of_not_opensData (hOpens : opensData line = false) : segment? line = none := by
  have hPrefix : (line.dropWhile (· == ' ')).dropPrefix? "(data (i32.const ".toList = none := by
    rw [eq_none_iff_forall_ne_some]
    intro rest hRest
    rcases List.dropPrefix?_eq_some_iff.mp hRest with ⟨word, hLine, hWord⟩
    rw [opensData, hLine, eq_of_beq hWord] at hOpens
    simp at hOpens
  rw [segment?, hPrefix, bind_eq_bind, bind_none]

/- The blanks before a line do not count. -/
@[simp]
theorem opensData_indent (depth : Nat) (line : List Char) :
    opensData ((indent depth).toList ++ line) = opensData line := by
  have hBlank : ∀ c ∈ List.replicate (2 * depth) ' ', (c == ' ') = true :=
    fun c hMem => beq_iff_eq.mpr (List.eq_of_mem_replicate hMem)
  rw [indent, String.toList_ofList, opensData, opensData, List.dropWhile_append_of_pos hBlank]

/- A bracket behind a line does not make it a data segment. -/
theorem opensData_close (hOpens : opensData line = false) : opensData (line ++ [')']) = false := by
  rw [Bool.eq_false_iff, opensData, Ne, List.isPrefixOf_iff_prefix] at *
  intro hPrefix
  rw [List.dropWhile_append] at hPrefix
  split at hPrefix
  · simp at hPrefix
  rcases List.prefix_concat_iff.mp hPrefix with hWhole | hPrefix
  · have hLast := congrArg List.getLast? hWhole
    simp at hLast
  · exact hOpens hPrefix

/- What a data line consists of. -/
theorem toList_line (e : DataEntry) : e.line.toList = ' ' :: ' ' :: ("(data (i32.const ".toList
          ++ (toDigits 10 e.address ++ (") \"".toList ++ ((dataText e.value.toBytes).toList
                ++ '"' :: (")".toList ++ (" ;; ".toList ++ e.label.toList))))))
      := by
  have hAddress : (toString e.address).toList = toDigits 10 e.address := toList_repr
  have hOpen :
      "  (data (i32.const ".toList
        = ' ' :: ' ' :: "(data (i32.const ".toList := rfl
  have hClose : "\") ;; ".toList = '"' :: (")".toList ++ " ;; ".toList) := rfl
  unfold DataEntry.line
  simp only [String.toList_append, List.append_assoc, List.cons_append, hAddress, hOpen, hClose]

theorem dropPrefix?_append (word rest : List Char) : (word ++ rest).dropPrefix? word = some rest :=
  List.dropPrefix?_eq_some_iff.mpr ⟨word, rfl, beq_self_eq_true word⟩

/- The line of a value is a segment with its address and bytes. -/
theorem segment?_line (e : DataEntry) :
    segment? e.line.toList = some (e.address, e.value.toBytes) := by
  have hDigits : ∀ c ∈ toDigits 10 e.address, c.isDigit = true :=
    fun c hMem => isDigit_of_mem_toDigits (by decide) (by decide) hMem
  rw [segment?, toList_line, List.dropWhile_cons_of_pos rfl, List.dropWhile_cons_of_pos rfl,
    show ∀ rest, ("(data (i32.const ".toList ++ rest).dropWhile (· == ' ')
      = "(data (i32.const ".toList ++ rest from fun _ => rfl,
    dropPrefix?_append]
  simp only [bind_eq_bind, bind_some]
  rw [List.takeWhile_append_of_pos hDigits, List.dropWhile_append_of_pos hDigits,
    show ∀ rest, (") \"".toList ++ rest).takeWhile Char.isDigit = [] from fun _ => rfl,
    show ∀ rest, (") \"".toList ++ rest).dropWhile Char.isDigit
      = ") \"".toList ++ rest from fun _ => rfl,
    List.append_nil, Printer.digits?_toDigits, dropPrefix?_append]
  simp only [bind_some]
  rw [literal?_dataText, bind_some, dropPrefix?_append, bind_some]
  rfl

-- Code Lines

/- No line of raw code opens a data segment. -/
def DatalessCode (t : Tree) : Prop :=
  ∀ n text, t.instr n = .inline text → ∀ line ∈ rawLines 0 text, opensData line.toList = false

/- An instruction is no data segment. -/
theorem opensData_head (n : NodeId) : opensData ('(' :: (head p t n).toList) = false := by
  have hMachine : ∀ (m : Wasm.MachineType) (rest : List Char),
        opensData ('(' :: (m.mnemonic.toList ++ rest)) = false := by
    intro m rest
    cases m <;> rfl
  unfold head
  cases hInstr : t.instr n <;>
    simp only [String.toList_append, List.append_assoc, hMachine] <;>
    rfl

theorem opensData_rawLines {depth : Nat} {text line : String}
    (hText : ∀ line ∈ rawLines 0 text, opensData line.toList = false)
    (hMem : line ∈ rawLines depth text) : opensData line.toList = false := by
  rcases List.mem_map.mp hMem with ⟨raw, hRaw, rfl⟩
  have hFirst := hText _ (List.mem_map_of_mem hRaw)
  rw [String.toList_append, opensData_indent] at hFirst ⊢
  exact hFirst

theorem mem_appendLast {line : String} (hMem : line ∈ appendLast suffix opened) :
    line ∈ opened ∨ ∃ last ∈ opened, line = last ++ suffix := by
  induction opened with
  | nil => cases hMem
  | cons first rest ih =>
    cases rest with
    | nil => exact .inr ⟨first, .head _, List.mem_singleton.mp hMem⟩
    | cons =>
      rcases List.mem_cons.mp hMem with rfl | hMem
      · exact .inl (.head _)
      · exact (ih hMem).imp (.tail _) fun ⟨last, hLast, hEq⟩ => ⟨last, .tail _ hLast, hEq⟩

/- A bracket is closed behind a line or on a line of its own. -/
theorem mem_closeBracket {line : String} {children : List NodeId}
    (hMem : line ∈ closeBracket t depth children opened) :
    line ∈ opened ∨ (∃ last ∈ opened, line = last ++ ")") ∨ line = indent depth ++ ")" := by
  rw [closeBracket] at hMem
  split at hMem
  · rcases List.mem_append.mp hMem with hMem | hMem
    · exact .inl hMem
    · exact .inr (.inr (List.mem_singleton.mp hMem))
  · exact (mem_appendLast hMem).imp_right .inl

theorem opensData_closeBracket (depth : Nat) (children : List NodeId)
    (hOpened : ∀ line ∈ opened, opensData line.toList = false) :
    ∀ line ∈ closeBracket t depth children opened, opensData line.toList = false := by
  intro line hMem
  rcases mem_closeBracket hMem with hMem | ⟨last, hLast, rfl⟩ | rfl
  · exact hOpened line hMem
  · rw [String.toList_append]
    exact opensData_close (hOpened last hLast)
  · rw [String.toList_append, opensData_indent]
    rfl

/- No line of code opens a data segment. -/
theorem opensData_lines (hCode : DatalessCode t) : ∀ (fuel depth : Nat) (n : NodeId),
      ∀ line ∈ lines p t fuel depth n, opensData line.toList = false := by
  intro fuel
  induction fuel with
  | zero => simp [lines]
  | succ fuel ih =>
    intro depth n
    have hChildren : ∀ depth, ∀ line ∈ (t.children n).flatMap (lines p t fuel depth),
            opensData line.toList = false := by
      intro depth line hMem
      rcases List.mem_flatMap.mp hMem with ⟨c, -, hLine⟩
      exact ih depth c line hLine
    have hOpened : ∀ line ∈ (indent depth ++ "(" ++ head p t n)
            :: (t.children n).flatMap (lines p t fuel (depth + 1)),
          opensData line.toList = false := by
      intro line hMem
      rcases List.mem_cons.mp hMem with rfl | hMem
      · rw [String.toList_append, String.toList_append, List.append_assoc, opensData_indent]
        exact opensData_head n
      · exact hChildren (depth + 1) line hMem
    have hClosed := opensData_closeBracket (t := t) depth (t.children n) hOpened
    unfold lines
    cases hInstr : t.instr n with
    | root | classBody c => exact hChildren depth
    | inline text =>
      intro line hMem
      exact opensData_rawLines (hCode n text hInstr) hMem
    | comment text =>
      intro line hMem
      rw [List.mem_singleton.mp hMem, String.toList_append,
        String.toList_append, List.append_assoc, opensData_indent]
      rfl
    | _ => exact hClosed

end Wat

-- Module Text

namespace Context

/- The lines of a module. -/
def textLines (ctx : Context) : List String :=
  ctx.headLines ++ Wat.lines ctx.program ctx.tree ctx.tree.size 1 Tree.root ++ [")"]

theorem moduleText_eq (ctx : Context) :
    ctx.moduleText = String.join (ctx.textLines.map (· ++ "\n")) := by
  simp [moduleText, textLines, Wat.treeText, ← String.toList_inj]

/-
  No line of a module runs on after a line feed.  A name that
  holds one would put the text behind it on a line of its own.
-/
def KeepsLines (ctx : Context) : Prop :=
  ∀ line ∈ ctx.textLines, '\n' ∉ line.toList

end Context

namespace Wat

theorem splitAt_line (hLine : '\n' ∉ line) (rest : List Char) :
    splitAt (· == '\n') (line ++ '\n' :: rest) = line :: splitAt (· == '\n') rest := by
  induction line with
  | nil => simp [splitAt]
  | cons c line ih =>
    rw [List.mem_cons, not_or] at hLine
    have hFeed : ¬ (c == '\n') = true := by simpa using Ne.symm hLine.1
    rw [List.cons_append, splitAt, if_neg hFeed, ih hLine.2]

/- Lines that end where they are meant to are found again. -/
theorem splitAt_join {lines : List String} (hLines : ∀ line ∈ lines, '\n' ∉ line.toList) :
    splitAt (· == '\n') (String.join (lines.map (· ++ "\n"))).toList
      = lines.map String.toList ++ [[]] := by
  rw [String.toList_join]
  induction lines with
  | nil => rfl
  | cons line lines ih =>
    have hFirst := hLines line (by simp)
    have hRest := ih fun other hMem => hLines other (by simp [hMem])
    have hFeed : "\n".toList = ['\n'] := rfl
    rw [List.map_cons, List.flatMap_cons, String.toList_append, hFeed,
      List.append_assoc, List.singleton_append, splitAt_line hFirst, hRest]
    rfl

theorem segments_join {lines : List String} (hLines : ∀ line ∈ lines, '\n' ∉ line.toList) :
    segments (String.join (lines.map (· ++ "\n")))
      = lines.filterMap fun line => segment? line.toList := by
  have hLast : [([] : List Char)].filterMap segment? = [] := rfl
  rw [segments, splitAt_join hLines, List.filterMap_append, List.filterMap_map, hLast,
    List.append_nil]
  rfl

/- Lines that open no data segment hold none. -/
theorem filterMap_segment? {lines : List String}
    (hLines : ∀ line ∈ lines, opensData line.toList = false) :
    lines.filterMap (fun line => segment? line.toList) = [] := by
  rw [List.filterMap_eq_nil_iff]
  intro line hMem
  exact segment?_of_not_opensData (hLines line hMem)

theorem filterMap_segment?_line (entries : List DataEntry) : (entries.map DataEntry.line).filterMap
        (fun line => segment? line.toList)
      = entries.map fun e => (e.address, e.value.toBytes) := by
  rw [List.filterMap_map, ← List.filterMap_eq_map]
  congr 1
  funext e
  exact segment?_line e

end Wat

namespace Context

variable {ctx : Context}

theorem opensData_importLine {line : String} (hLine : p.importLine? m = some line) :
    Wat.opensData line.toList = false := by
  simp only [Program.importLine?] at hLine
  split at hLine
  · rw [← some.inj hLine]
    simp only [String.toList_append, List.append_assoc]
    rfl
  · contradiction

theorem opensData_globalLine {g : Global} {line : String} (hLine : g.line? = some line) :
    Wat.opensData line.toList = false := by
  rcases map_eq_some_iff.mp hLine with ⟨held, -, rfl⟩
  simp only [String.toList_append, List.append_assoc]
  rfl

/- The lines before the data of a module are no data segments. -/
theorem headLines_eq (ctx : Context) :
    ∃ declared, ctx.headLines = declared ++ ctx.program.data.byAddress.map DataEntry.line
        ∧ ∀ line ∈ declared, Wat.opensData line.toList = false := by
  refine ⟨_, rfl, ?_⟩
  intro line hMem
  simp only [List.mem_append, List.mem_singleton] at hMem
  rcases hMem with ((((rfl | hImport) | rfl) | hMemory) | hExport)
    | hGlobal
  · rfl
  · rcases List.mem_filterMap.mp hImport with ⟨m, -, hLine⟩
    exact opensData_importLine hLine
  · simp only [String.toList_append, List.append_assoc]
    rfl
  · split at hMemory
    · rw [List.mem_singleton.mp hMemory]
      rfl
    · exact absurd hMemory List.not_mem_nil
  · rcases List.mem_map.mp hExport with ⟨e, -, rfl⟩
    simp only [Program.exportLine, String.toList_append, List.append_assoc]
    rfl
  · rcases List.mem_filterMap.mp hGlobal with ⟨g, -, hLine⟩
    exact opensData_globalLine hLine

/- The segments in the text of a module are the values in static data, by address. -/
theorem segments_moduleText (hLines : ctx.KeepsLines) (hCode : Wat.DatalessCode ctx.tree) :
    Wat.segments ctx.moduleText
      = ctx.program.data.byAddress.map fun e => (e.address, e.value.toBytes) := by
  rcases headLines_eq ctx with ⟨declared, hHead, hDeclared⟩
  have hCodeLines := Wat.opensData_lines (p := ctx.program) hCode ctx.tree.size 1 Tree.root
  rw [moduleText_eq, Wat.segments_join hLines, textLines, hHead, List.filterMap_append,
    List.filterMap_append, List.filterMap_append, Wat.filterMap_segment? hDeclared,
    Wat.filterMap_segment? hCodeLines, Wat.filterMap_segment?_line]
  have hEnd : [")"].filterMap (fun line => Wat.segment? line.toList) = [] := rfl
  rw [hEnd, List.nil_append, List.append_nil, List.append_nil]

end Context

end RubyWat
