import RubyWat.Text.Numeral

/-
  Escapes inside quoted texts of a dump.

  A backslash and a letter stand for a byte, a backslash with `x` and up to two hexadecimal
  digits for that byte, and a backslash with `u` and four digits, or any number of digits in
  braces, for a character.  Everything else stands for itself.
-/

-- Single Escapes

namespace RubyWat.Dump

namespace Escape

/- The byte that one letter after a backslash stands for. -/
def letter? : Char → Option UInt8
  | 'n' => some 0x0a
  | 't' => some 0x09
  | 'r' => some 0x0d
  | '0' => some 0x00
  | 'e' => some 0x1b
  | 'a' => some 0x07
  | 'b' => some 0x08
  | 'f' => some 0x0c
  | 'v' => some 0x0b
  | 's' => some 0x20
  | '"' => some 0x22
  | '\\' => some 0x5c
  | '#' => some 0x23
  | '\'' => some 0x27
  | _ => none

/- The byte given by up to two hexadecimal digits. -/
def byte? (cs : List Char) : Option UInt8 :=
  (Text.Numeral.unsigned? 16 (cs.take 2)).map UInt8.ofNat

def char? (n : Nat) : Option Char :=
  if n.isValidChar then some (Char.ofNat n) else none

/- The character given by digits in braces or by four digits, and how many characters give it. -/
def codePoint? : List Char → Option (Char × Nat)
  | '\x7b' :: cs =>
    let digits := cs.takeWhile (· != '\x7d')
    if digits.length < cs.length then
      ((Text.Numeral.unsigned? 16 digits).bind char?).map fun c => (c, digits.length + 2)
    else none
  | cs =>
    if (cs.take 4).length = 4 then
      ((Text.Numeral.unsigned? 16 (cs.take 4)).bind char?).map fun c => (c, 4)
    else none

/- The bytes of a quoted text, if all its escapes are known. -/
def decode? : List Char → Option (List UInt8)
  | [] => some []
  | ['\\'] => none
  | '\\' :: e :: cs =>
    match letter? e with
    | some b => (decode? cs).map (b :: ·)
    | none =>
      if e = 'x' then
        match byte? cs with
        | some b => (decode? (cs.drop 2)).map (b :: ·)
        | none => none
      else if e = 'u' then
        match codePoint? cs with
        | some (c, n) => (decode? (cs.drop n)).map (String.utf8EncodeChar c ++ ·)
        | none => none
      else none
  | c :: cs => (decode? cs).map (String.utf8EncodeChar c ++ ·)
termination_by cs => cs.length
decreasing_by all_goals simp_wf; try omega

end Escape

end RubyWat.Dump
