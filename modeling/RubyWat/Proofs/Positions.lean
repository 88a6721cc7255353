import Mathlib.Data.List.TakeWhile
import Mathlib.Data.Prod.Lex
import Mathlib.Order.Bounds.Basic
import RubyWat.Source.Span

/-
  Lines and columns of offsets.

  Key definitions: `Text.Utf8.Boundary`, `Text.Utf8.lineStart?`.

  Main statement: the line and the column of a span lead back to the character that the span
  starts at.  They grow with the start of the span, and differ for different characters
  (`lineCol_locates`).
-/

-- Bytes Of Texts

namespace RubyWat

open List Nat

namespace Text.Utf8

variable {cs before more : List Char} {limit : Nat}

/- An offset at which a character starts, or the end of the text. -/
def Boundary (cs : List Char) (offset : Nat) : Prop :=
  ∃ before, before <+: cs ∧ size before = offset

/- The offset after the line feed of a number, counted from one.  Number zero is the start. -/
def lineStart? : Nat → List UInt8 → Option Nat
  | 0, _ => some 0
  | _ + 1, [] => none
  | n + 1, b :: bs => (lineStart? (if b = 0x0a then n else n + 1) bs).map (· + 1)

theorem size_append (cs more : List Char) : size (cs ++ more) = size cs + size more := by
  induction cs with
  | nil => simp [size]
  | cons c cs ih => rw [cons_append, size, size, ih, Nat.add_assoc]

theorem size_reverse (cs : List Char) : size cs.reverse = size cs := by
  induction cs with
  | nil => rfl
  | cons c cs ih =>
    rw [reverse_cons, size_append, ih, size, size, size]
    omega

theorem size_le_of_isPrefix (hPrefix : before <+: cs) : size before ≤ size cs := by
  rcases hPrefix with ⟨after, rfl⟩
  rw [size_append]
  omega

theorem length_encode (cs : List Char) : (cs.flatMap String.utf8EncodeChar).length = size cs := by
  induction cs with
  | nil => rfl
  | cons c cs ih =>
    rw [flatMap_cons, length_append, ih, String.length_utf8EncodeChar, size]

/- The bytes before a boundary are those of the characters before it. -/
theorem take_encode (hPrefix : before <+: cs) :
    (cs.flatMap String.utf8EncodeChar).take (size before)
      = before.flatMap String.utf8EncodeChar := by
  rcases hPrefix with ⟨after, rfl⟩
  rw [flatMap_append, ← length_encode, take_left]

/- A character of several bytes has no line feed among them. -/
theorem count_encodeChar (c : Char) :
    (String.utf8EncodeChar c).count 0x0a = if c = '\n' then 1 else 0 := by
  by_cases hFeed : c = '\n'
  · rw [hFeed]
    decide
  have hCode : c.val.toNat ≠ 10 := fun hEq => hFeed (Char.ext (UInt32.toNat_inj.mp hEq))
  have hBytes : ∀ ns : List Nat, (∀ n ∈ ns, n ≠ 10 ∧ n < 256) →
        (0x0a : UInt8) ∉ ns.map UInt8.ofNat := by
    intro ns hAll hMem
    rcases mem_map.mp hMem with ⟨n, hIn, hEq⟩
    have hSame := congrArg UInt8.toNat hEq
    rw [UInt8.toNat_ofNat_of_lt' (hAll n hIn).2] at hSame
    exact (hAll n hIn).1 hSame
  rw [if_neg hFeed, count_eq_zero]
  unfold String.utf8EncodeChar
  generalize c.val.toNat = v at hCode
  dsimp only
  split
  · exact hBytes [_] (by simp only [forall_mem_cons]; simp; omega)
  split
  · exact hBytes [_, _] (by simp; omega)
  split
  · exact hBytes [_, _, _] (by simp; omega)
  · exact hBytes [_, _, _, _] (by simp; omega)

theorem count_encode (cs : List Char) :
    (cs.flatMap String.utf8EncodeChar).count 0x0a = cs.count '\n' := by
  induction cs with
  | nil => rfl
  | cons c cs ih =>
    rw [flatMap_cons, count_append, ih, count_encodeChar, count_cons, Nat.add_comm]
    simp

/- A line starts after the line feed before it. -/
theorem lineStart?_append (bs after : List UInt8) :
    lineStart? (bs.count 0x0a + 1) (bs ++ 0x0a :: after) = some (bs.length + 1) := by
  induction bs with
  | nil => simp [lineStart?]
  | cons b bs ih =>
    rw [cons_append, lineStart?, count_cons]
    by_cases hFeed : b = 0x0a
    · simp [hFeed, ih]
    · simp [hFeed, ih]

-- Characters Before An Offset

theorem prefixWithin_isPrefix (limit : Nat) (cs : List Char) : prefixWithin limit cs <+: cs := by
  induction cs generalizing limit with
  | nil => exact nil_prefix
  | cons c cs ih =>
    rw [prefixWithin]
    split
    · exact cons_prefix_cons.mpr ⟨rfl, ih _⟩
    · exact nil_prefix

theorem size_prefixWithin_le (limit : Nat) (cs : List Char) :
    size (prefixWithin limit cs) ≤ limit := by
  induction cs generalizing limit with
  | nil => exact zero_le _
  | cons c cs ih =>
    rw [prefixWithin]
    split
    · have hRest := ih (limit - c.utf8Size)
      rw [size]
      omega
    · exact zero_le _

/- No longer start of the text fits. -/
theorem prefix_prefixWithin (hPrefix : before <+: cs) (hFits : size before ≤ limit) :
    before <+: prefixWithin limit cs := by
  induction before generalizing cs limit with
  | nil => exact nil_prefix
  | cons c before ih =>
    rcases hPrefix with ⟨after, rfl⟩
    rw [size] at hFits
    rw [cons_append, prefixWithin, if_pos (by omega), cons_prefix_cons]
    exact ⟨rfl, ih (prefix_append before after) (by omega)⟩

/- The characters before an offset end at the last boundary up to it. -/
theorem isGreatest_prefixWithin (limit : Nat) (cs : List Char) :
    IsGreatest {k | Boundary cs k ∧ k ≤ min limit (size cs)} (size (prefixWithin limit cs)) := by
  have hPrefix := prefixWithin_isPrefix limit cs
  constructor
  · exact ⟨⟨_, hPrefix, rfl⟩, le_min (size_prefixWithin_le limit cs) (size_le_of_isPrefix hPrefix)⟩
  · rintro _ ⟨⟨before, hBefore, rfl⟩, hLe⟩
    exact size_le_of_isPrefix (prefix_prefixWithin hBefore (hLe.trans (min_le_left _ _)))

-- Lines

/- The last line of a text starts after as many line feeds as there are. -/
theorem lineStart?_encode (cs : List Char) (after : List UInt8) :
    ∃ start, lineStart? (cs.count '\n') (cs.flatMap String.utf8EncodeChar ++ after) = some start
      ∧ start + size (cs.reverse.takeWhile (· != '\n')) = size cs := by
  have hSplit := takeWhile_append_dropWhile (p := (· != '\n')) (l := cs.reverse)
  have hLine : (cs.reverse.takeWhile (· != '\n')).count '\n' = 0 :=
    count_eq_zero.mpr fun hMem => by simpa using mem_takeWhile_imp hMem
  generalize cs.reverse.takeWhile (· != '\n') = current at hSplit hLine
  cases hRest : cs.reverse.dropWhile (· != '\n') with
  | nil =>
    rw [hRest, append_nil] at hSplit
    refine ⟨0, ?_, ?_⟩
    · rw [← count_reverse, ← hSplit, hLine, lineStart?]
    · rw [hSplit, size_reverse, Nat.zero_add]
  | cons c front =>
    have hFeed : c = '\n' := by
      have hHead := head?_dropWhile_not (· != '\n') cs.reverse
      rw [hRest] at hHead
      simpa using hHead
    have hText : cs = front.reverse ++ '\n' :: current.reverse := by
      rw [← reverse_reverse cs, ← hSplit, hRest, hFeed]
      simp
    have hByte : String.utf8EncodeChar '\n' = [0x0a] := by decide
    refine ⟨size front + 1, ?_, ?_⟩
    · rw [hText, count_append, count_cons_self, count_reverse (l := current), hLine,
        flatMap_append, flatMap_cons, hByte, ← count_encode]
      have hStart := lineStart?_append (front.reverse.flatMap String.utf8EncodeChar)
        (current.reverse.flatMap String.utf8EncodeChar ++ after)
      rw [length_encode, size_reverse] at hStart
      simpa using hStart
    · rw [hText, size_append, size, size_reverse, size_reverse]
      change _ = _ + (1 + _)
      omega

end Text.Utf8

namespace Span

open Text.Utf8

variable {s t : Span}

/- A later start has a later line, or the same line and a later column. -/
theorem lineCol_le (source : String) (hLe : s.start ≤ t.start) :
    toLex (s.lineCol source) ≤ toLex (t.lineCol source) := by
  have hPrefix : s.before source <+: t.before source :=
    prefix_prefixWithin (prefixWithin_isPrefix _ _) ((size_prefixWithin_le _ _).trans hLe)
  rcases hPrefix with ⟨more, hMore⟩
  rw [Prod.Lex.toLex_le_toLex, lineCol, lineCol, ← hMore]
  by_cases hFeed : '\n' ∈ more
  · left
    have hCount := count_pos_iff.mpr hFeed
    rw [count_append]
    omega
  · right
    have hLine : ∀ c ∈ more.reverse, (c != '\n') = true := by
      intro c hMem
      rw [bne_iff_ne]
      rintro rfl
      exact hFeed (mem_reverse.mp hMem)
    rw [count_append, count_eq_zero.mpr hFeed, reverse_append,
      takeWhile_append_of_pos hLine, size_append]
    exact ⟨rfl, by omega⟩

/- The line and the column add up to the last boundary before the start. -/
theorem lineCol_position (s : Span) (source : String) :
    (lineStart? ((s.lineCol source).1 - 1) (encode source)).map (· + ((s.lineCol source).2 - 1))
      = some (size (s.before source)) := by
  rcases prefixWithin_isPrefix s.start source.toList with ⟨after, hText⟩
  rcases lineStart?_encode (s.before source) (after.flatMap String.utf8EncodeChar) with
    ⟨start, hStart, hSum⟩
  rw [← flatMap_append, before, hText] at hStart
  simpa [lineCol, encode, before, hStart] using hSum

/- A start at a boundary is the position itself. -/
theorem size_before (source : String) (hBoundary : Boundary source.toList s.start) :
    size (s.before source) = s.start := by
  rcases hBoundary with ⟨front, hFront, hSize⟩
  refine le_antisymm (size_prefixWithin_le _ _) ?_
  rw [← hSize]
  exact size_le_of_isPrefix (prefix_prefixWithin hFront (le_of_eq hSize))

/-
  The line and the column of a span count the line feeds before its start and the bytes after
  the last of them.  The start is taken back to the last boundary in the text.  Line and column
  grow with the start, and tell the boundaries of the text apart.
-/
theorem lineCol_locates (source : String) (s : Span) :
    (∃ pos, IsGreatest {k | Boundary source.toList k ∧ k ≤ min s.start (encode source).length} pos
        ∧ (s.lineCol source).1 = ((encode source).take pos).count 0x0a + 1
        ∧ 0 < (s.lineCol source).2
        ∧ (lineStart? ((s.lineCol source).1 - 1) (encode source)).map
            (· + ((s.lineCol source).2 - 1)) = some pos)
      ∧ ∀ t : Span, (s.start ≤ t.start → toLex (s.lineCol source) ≤ toLex (t.lineCol source))
          ∧ (Boundary source.toList s.start → Boundary source.toList t.start →
              s.start ≠ t.start → s.lineCol source ≠ t.lineCol source) := by
  refine ⟨⟨size (s.before source), ?_, ?_, ?_, lineCol_position s source⟩, fun t => ⟨?_, ?_⟩⟩
  · rw [encode, length_encode]
    exact isGreatest_prefixWithin _ _
  · rw [encode, before, take_encode (prefixWithin_isPrefix _ _), count_encode]
    rfl
  · exact succ_pos _
  · exact lineCol_le source
  · intro hFirst hSecond hNe hSame
    have hPos := lineCol_position s source
    rw [hSame, lineCol_position t source, size_before source hFirst, size_before source hSecond]
      at hPos
    exact hNe (Option.some.inj hPos).symm

/- The start of the last character of a text, an offset inside of it, and the end. -/
theorem lastCharacter_located : let source := "é\nx😀"
    let s : Span := ⟨4, 8⟩
    s.lineCol source = (2, 2) ∧ Boundary source.toList 4 ∧ Boundary source.toList 8
      ∧ toLex (s.lineCol source) ≤ toLex ((⟨6, 8⟩ : Span).lineCol source)
      ∧ s.lineCol source ≠ (⟨8, 8⟩ : Span).lineCol source := by
  intro source s
  have hStart : Boundary source.toList 4 := ⟨['é', '\n', 'x'], by decide +kernel, by decide⟩
  have hEnd : Boundary source.toList 8 := ⟨source.toList, prefix_refl _, by decide +kernel⟩
  have hLocates := (lineCol_locates source s).2
  refine ⟨by decide +kernel, hStart, hEnd, (hLocates _).1 (by decide), ?_⟩
  exact (hLocates _).2 hStart hEnd (by decide)

end Span

end RubyWat
