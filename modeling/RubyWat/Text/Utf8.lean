/-
  Texts as byte sequences in UTF-8.

  A character is one lead byte and the continuation bytes that the lead byte asks for.  Decoding
  one character either gives it or stops at the first byte that cannot continue it; the bytes
  read up to there are the longest start of a character and become one replacement character
  when decoding is lossy.
-/

-- Encoding

namespace RubyWat.Text

namespace Utf8

def encode (s : String) : List UInt8 :=
  s.toList.flatMap String.utf8EncodeChar

-- Decoding

/-
  What a lead byte says: the bits it contributes and the ranges that its continuation bytes must
  lie in.  The first range is narrower where a wider one would admit overlong forms, surrogates
  or numbers past the last character.
-/
def lead? (b : UInt8) : Option (Nat × List (Nat × Nat)) :=
  let n := b.toNat
  if n < 0x80 then some (n, [])
  else if n < 0xc2 then none
  else if n < 0xe0 then some (n - 0xc0, [(0x80, 0xbf)])
  else if n = 0xe0 then some (0, [(0xa0, 0xbf), (0x80, 0xbf)])
  else if n = 0xed then some (0xd, [(0x80, 0x9f), (0x80, 0xbf)])
  else if n < 0xf0 then some (n - 0xe0, [(0x80, 0xbf), (0x80, 0xbf)])
  else if n = 0xf0 then some (0, [(0x90, 0xbf), (0x80, 0xbf), (0x80, 0xbf)])
  else if n < 0xf4 then some (n - 0xf0, [(0x80, 0xbf), (0x80, 0xbf), (0x80, 0xbf)])
  else if n = 0xf4 then some (4, [(0x80, 0x8f), (0x80, 0xbf), (0x80, 0xbf)])
  else none

/-
  Read the continuation bytes that the ranges ask for.  The second component is what is left,
  from the first byte that does not fit on.
-/
def continue? : List (Nat × Nat) → Nat → List UInt8 → Option Nat × List UInt8
  | [], acc, bs => (some acc, bs)
  | _ :: _, _, [] => (none, [])
  | r :: rs, acc, b :: bs =>
    if r.1 ≤ b.toNat ∧ b.toNat ≤ r.2 then continue? rs (acc * 64 + b.toNat % 64) bs
    else (none, b :: bs)

theorem length_continue?_le (rs : List (Nat × Nat)) (acc : Nat) (bs : List UInt8) :
    (continue? rs acc bs).2.length ≤ bs.length := by
  induction rs generalizing acc bs with
  | nil => simp [continue?]
  | cons r rs ih =>
    cases bs with
    | nil => simp [continue?]
    | cons b bs =>
      simp only [continue?]
      split
      · exact Nat.le_succ_of_le (ih _ bs)
      · exact Nat.le_refl _

/-
  One character from a lead byte and what follows it, and the rest of the input.  There is none
  when the bytes read are not a character.
-/
def next (b : UInt8) (bs : List UInt8) : Option Char × List UInt8 :=
  match lead? b with
  | none => (none, bs)
  | some (bits, ranges) =>
    let (code, rest) := continue? ranges bits bs
    (code.map Char.ofNat, rest)

theorem length_next_le (b : UInt8) (bs : List UInt8) : (next b bs).2.length ≤ bs.length := by
  unfold next
  split
  · exact Nat.le_refl _
  · exact length_continue?_le _ _ bs

/- The characters of a byte sequence, with none where bytes do not make up a character. -/
def chars : List UInt8 → List (Option Char)
  | [] => []
  | b :: bs => (next b bs).1 :: chars (next b bs).2
termination_by bs => bs.length
decreasing_by
  exact Nat.lt_succ_of_le (length_next_le b bs)

def replacement : Char :=
  Char.ofNat 0xfffd

/- The text of a byte sequence, with replacement characters. -/
def decodeLossy (bs : List UInt8) : String :=
  String.ofList ((chars bs).map (·.getD replacement))

/- The text of a byte sequence that is valid as a whole. -/
def decode? (bs : List UInt8) : Option String :=
  ((chars bs).mapM id).map String.ofList

/- The longest start of a text that takes at most `limit` bytes. -/
def prefixWithin : Nat → List Char → List Char
  | _, [] => []
  | limit, c :: cs =>
    if c.utf8Size ≤ limit then c :: prefixWithin (limit - c.utf8Size) cs
    else []

def size : List Char → Nat
  | [] => 0
  | c :: cs => c.utf8Size + size cs

end Utf8

end RubyWat.Text
