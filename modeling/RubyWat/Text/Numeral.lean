/-
  Numerals as they are written in source texts and on the command line.

  A numeral is a non-empty run of ASCII digits.  An unsigned numeral may start with a plus sign,
  a signed one with a plus or a minus sign.  Ranges are checked by whoever reads the numeral, so
  the values here are unbounded.
-/

-- Digits

namespace RubyWat.Text

namespace Numeral

/- The value a character has as a digit, letters included. -/
def letterValue? (c : Char) : Option Nat :=
  if '0' ≤ c ∧ c ≤ '9' then some (c.toNat - '0'.toNat)
  else if 'a' ≤ c ∧ c ≤ 'z' then some (c.toNat - 'a'.toNat + 10)
  else if 'A' ≤ c ∧ c ≤ 'Z' then some (c.toNat - 'A'.toNat + 10)
  else none

def digit? (base : Nat) (c : Char) : Option Nat :=
  (letterValue? c).filter (· < base)

/-
  Reading digits from the left: each one multiplies what was
  read so far by the base and adds itself.
-/
def foldDigits? (base : Nat) : Nat → List Char → Option Nat
  | acc, [] => some acc
  | acc, c :: cs =>
    match digit? base c with
    | some d => foldDigits? base (acc * base + d) cs
    | none => none

/- The value of a non-empty run of digits. -/
def digits? (base : Nat) (cs : List Char) : Option Nat :=
  if cs.isEmpty then none
  else foldDigits? base 0 cs

/- A numeral with an optional plus sign. -/
def unsigned? (base : Nat) : List Char → Option Nat
  | '+' :: cs => digits? base cs
  | cs => digits? base cs

/- A decimal numeral with an optional plus or minus sign. -/
def signed? : List Char → Option Int
  | '-' :: cs => (digits? 10 cs).map fun n => -(n : Int)
  | cs => (unsigned? 10 cs).map Int.ofNat

/- A number below a bound. -/
def below? (bound : Nat) (n : Nat) : Option Nat :=
  if n < bound then some n else none

def int64? (n : Int) : Option Int64 :=
  if Int64.minValue.toInt ≤ n ∧ n ≤ Int64.maxValue.toInt then some (Int64.ofInt n)
  else none

/- Lowercase hexadecimal digits without padding. -/
def hex (n : Nat) : String :=
  String.ofList (Nat.toDigits 16 n)

/- Two lowercase hexadecimal digits of a byte. -/
def hexByte (b : UInt8) : String :=
  String.ofList [Nat.digitChar (b.toNat / 16), Nat.digitChar (b.toNat % 16)]

end Numeral

end RubyWat.Text
