import RubyWat.Text.Utf8

/-
  Places in a source text.

  A span is a range of byte offsets.  Code that the compiler
  makes up has the empty span at the start of the text.
-/

-- Spans

namespace RubyWat

/- The bytes from `start` up to, but not including, `stop`. -/
structure Span where
  start : Nat
  stop : Nat
deriving DecidableEq, Inhabited

namespace Span

/- The place of code that no source text contains. -/
def generated : Span :=
  ⟨0, 0⟩

def maxOffset : Nat :=
  0xffffffff

/- A range of bytes, with offsets cut off at the largest one. -/
def ofRange (start stop : Nat) : Span :=
  ⟨min start maxOffset, min stop maxOffset⟩

def length (s : Span) : Nat :=
  s.stop - s.start

def isEmpty (s : Span) : Bool :=
  s.stop ≤ s.start

def isGenerated (s : Span) : Bool :=
  s.start == 0 && s.stop == 0

def merge (s t : Span) : Span :=
  ⟨min s.start t.start, max s.stop t.stop⟩

def text (s : Span) : String :=
  toString s.start ++ ".." ++ toString s.stop

/-
  The characters before the start of a span.  A start inside a character counts as the start of
  that character, one past the end of the text as the end.
-/
def before (s : Span) (source : String) : List Char :=
  Text.Utf8.prefixWithin s.start source.toList

/-
  Line and column of the start of a span, both counted from one.  The line counts the line feeds
  before the start, the column the bytes after the last of them.
-/
def lineCol (s : Span) (source : String) : Nat × Nat :=
  let chars := s.before source
  let current := chars.reverse.takeWhile (· != '\n')
  (chars.count '\n' + 1, Text.Utf8.size current + 1)

end Span

end RubyWat
