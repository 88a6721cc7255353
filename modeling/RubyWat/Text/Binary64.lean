/-
  Decimal numbers as binary floating-point words of 64 bits.

  A finite positive word is `m * 2 ^ q` with `m < 2 ^ 53` and `-1074 ≤ q`.  A decimal goes to
  the nearest such number, and to the one with even `m` when it lies halfway between two.
  Numbers too large for the format become infinite.
-/

-- Decimals

namespace RubyWat.Text

/- The number `digits * 10 ^ exponent`, negated when `negative` is set. -/
structure Decimal where
  negative : Bool
  digits : Nat
  exponent : Int

-- Rounding

namespace Binary64

/- The least significand of 53 bits. -/
def leastSignificand : Nat :=
  0x10000000000000

def infinity : Nat :=
  0x7ff0000000000000

def signBit : Nat :=
  0x8000000000000000

/- The nearest integer to a quotient, ties going to even. -/
def roundDiv (num den : Nat) : Nat :=
  let q := num / den
  let r := num % den
  if 2 * r < den then q
  else if den < 2 * r then q + 1
  else q + q % 2

/- The quotient `num / den` divided by a power of two. -/
def scaled (num den : Nat) (q : Int) : Nat × Nat :=
  if 0 ≤ q then (num, den * Nat.pow 2 q.toNat)
  else (num * Nat.pow 2 (-q).toNat, den)

/- The power of two that leaves 53 bits before the point, or the smallest power there is. -/
def binaryExponent (num den : Nat) : Int :=
  let guess : Int := (num.log2 : Int) - (den.log2 : Int) - 52
  let (n, d) := scaled num den guess
  max (if n / d < leastSignificand then guess - 1 else guess) (-1074)

/-
  The bits of a positive quotient.  A significand of 53 bits carries into the exponent field by
  addition, which is also right when rounding reaches the next power of two.
-/
def ofRatio (num den : Nat) : Nat :=
  let q := binaryExponent num den
  let (n, d) := scaled num den q
  min ((q + 1074).toNat * leastSignificand + roundDiv n d) infinity

/-
  The bits of a decimal.  Exponents far outside the format are
  settled without computing the power.
-/
def ofDecimal (x : Decimal) : UInt64 :=
  let size : Int := (Nat.toDigits 10 x.digits).length
  let magnitude :=
    if x.digits = 0 then 0
    else if 400 < size + x.exponent then infinity
    else if size + x.exponent < -400 then 0
    else if 0 ≤ x.exponent then ofRatio (x.digits * Nat.pow 10 x.exponent.toNat) 1
    else ofRatio x.digits (Nat.pow 10 (-x.exponent).toNat)
  UInt64.ofNat (if x.negative then signBit + magnitude else magnitude)

end Binary64

end RubyWat.Text
