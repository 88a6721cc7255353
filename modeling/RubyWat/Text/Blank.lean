/-
  Blank characters, and trimming and splitting at them.

  A blank is a character with the Unicode property White_Space.  Every blank of the ASCII class
  is one of them.
-/

-- Blank Characters

namespace RubyWat.Text

/- The ranges of the Unicode property White_Space. -/
def blankRanges : List (Nat × Nat) :=
  [(0x9, 0xd), (0x20, 0x20), (0x85, 0x85), (0xa0, 0xa0),
   (0x1680, 0x1680), (0x2000, 0x200a), (0x2028, 0x2029),
   (0x202f, 0x202f), (0x205f, 0x205f), (0x3000, 0x3000)]

def isBlank (c : Char) : Bool :=
  blankRanges.any fun r => r.1 ≤ c.toNat && c.toNat ≤ r.2

-- Trimming And Splitting

/- A list without its last elements that satisfy a test. -/
def dropEndWhile {α : Type} (p : α → Bool) (xs : List α) : List α :=
  (xs.reverse.dropWhile p).reverse

def trim (s : String) : String :=
  String.ofList (dropEndWhile isBlank (s.toList.dropWhile isBlank))

/-
  The maximal runs of characters that fail a test, empty runs
  included: `n` characters that satisfy it leave `n + 1` runs.
-/
def splitAt {α : Type} (p : α → Bool) : List α → List (List α)
  | [] => [[]]
  | x :: xs =>
    if p x then [] :: splitAt p xs
    else
      match splitAt p xs with
      | [] => [[x]]
      | run :: runs => (x :: run) :: runs

/- The words of a text: its non-empty runs without blanks. -/
def words (s : String) : List String :=
  ((splitAt isBlank s.toList).filter (!·.isEmpty)).map String.ofList

/- A line without a carriage return at its end. -/
def dropReturn (cs : List Char) : List Char :=
  if cs.getLast? = some '\r' then cs.dropLast else cs

/-
  The lines of a text.  A line ends at a line feed, which may be preceded by a carriage return;
  neither belongs to the line.  What follows the last line feed is a line when it is not empty,
  and keeps a carriage return at its end.
-/
def lines (s : String) : List String :=
  let runs := splitAt (· == '\n') s.toList
  let last := runs.getLast?.getD []
  let ended := runs.dropLast.map dropReturn
  (if last.isEmpty then ended else ended ++ [last]).map String.ofList

end RubyWat.Text
