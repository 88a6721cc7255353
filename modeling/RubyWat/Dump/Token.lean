import RubyWat.Text.Binary64
import RubyWat.Text.Numeral
import RubyWat.Text.Utf8

/-
  Tokens of a dump.

  At each position the longest token is taken.  Text that starts no token gives an invalid
  token, at which scanning ends.
-/

-- Tokens

namespace RubyWat.Dump

/- The tokens of a dump.  Quoted bodies are still escaped. -/
inductive Token where
  | openList
  | closeList
  | nil
  | word (text : String)
  | symbol (name : String)
  | quotedSymbol (body : List Char)
  | int (value : Int)
  | float (value : Text.Decimal)
  | str (body : List Char)
  | invalid

/- A token with the bytes it is written in. -/
structure Lexeme where
  token : Token
  start : Nat
  stop : Nat

namespace Token

/- Whether scanning ends at a token. -/
def isInvalid : Token → Bool
  | invalid => true
  | _ => false

end Token

namespace Token

def isGap (c : Char) : Bool :=
  c == ' ' || c == '\t' || c == '\r' || c == '\n'

def isSymbolChar (c : Char) : Bool :=
  !(isGap c || c == '(' || c == ')' || c == '"')

def isDigit (c : Char) : Bool :=
  '0' ≤ c && c ≤ '9'

def isWordStart (c : Char) : Bool :=
  ('a' ≤ c && c ≤ 'z') || c == '_'

def isWordChar (c : Char) : Bool :=
  isWordStart c || isDigit c || c == '-'

/-
  The length of a quoted body after its opening quote, and whether a quote closes it.  A
  backslash takes the character after it along, except a line feed, which breaks the body off.
-/
def body : List Char → Nat × Bool
  | [] => (0, false)
  | '"' :: _ => (0, true)
  | ['\\'] => (0, false)
  | '\\' :: c :: cs =>
    if c = '\n' then (0, false)
    else
      let (n, closed) := body cs
      (n + 2, closed)
  | _ :: cs =>
    let (n, closed) := body cs
    (n + 1, closed)

-- Numbers

def number (digits : List Char) : Nat :=
  (Text.Numeral.digits? 10 digits).getD 0

def exponentSign : List Char → Bool × List Char
  | '-' :: cs => (true, cs)
  | '+' :: cs => (false, cs)
  | cs => (false, cs)

/- The exponent at the start of a text and its length, which is zero when there is no exponent. -/
def exponent : List Char → Int × Nat
  | [] => (0, 0)
  | e :: cs =>
    let (negative, rest) := exponentSign cs
    let digits := rest.takeWhile isDigit
    if (e = 'e' ∨ e = 'E') ∧ !digits.isEmpty then
      let n : Int := number digits
      (if negative then -n else n, 1 + (cs.length - rest.length) + digits.length)
    else (0, 0)

/- The fraction at the start of a text: its digits, its exponent and its length. -/
def fraction? : List Char → Option (List Char × Int × Nat)
  | '.' :: cs =>
    let digits := cs.takeWhile isDigit
    if digits.isEmpty then none
    else
      let (exp, n) := exponent (cs.drop digits.length)
      some (digits, exp, 1 + digits.length + n)
  | _ => none

/-
  A number, given its sign, its integer digits and the text
  after them, and how much of that text belongs to it.
-/
def numeric (negative : Bool) (digits rest : List Char) : Token × Nat :=
  match fraction? rest with
  | some (places, exp, n) => (float ⟨negative, number (digits ++ places), exp - places.length⟩, n)
  | none =>
    let n : Int := number digits
    (int (if negative then -n else n), 0)

-- Scanning

/- A token of a quoted body, if a quote closes it. -/
def quotedToken (make : List Char → Token) (cs : List Char) : Token × Nat :=
  let (n, closed) := body cs
  if closed then (make (cs.take n), n + 1) else (invalid, n)

def colonToken (cs : List Char) : Token × Nat :=
  match cs with
  | '"' :: rest =>
    let (token, n) := quotedToken quotedSymbol rest
    (token, n + 1)
  | _ =>
    let name := cs.takeWhile isSymbolChar
    if name.isEmpty then (invalid, 0)
    else (symbol (String.ofList name), name.length)

/- A token that starts with a letter of a bare word. -/
def wordToken (c : Char) (cs : List Char) : Token × Nat :=
  let rest := cs.takeWhile isWordChar
  let text := String.ofList (c :: rest)
  (if text = "nil" then nil else word text, rest.length)

def minusToken (cs : List Char) : Token × Nat :=
  let digits := cs.takeWhile isDigit
  if digits.isEmpty then (invalid, 0)
  else
    let (token, n) := numeric true digits (cs.drop digits.length)
    (token, digits.length + n)

def digitToken (c : Char) (cs : List Char) : Token × Nat :=
  let digits := cs.takeWhile isDigit
  let (token, n) := numeric false (c :: digits) (cs.drop digits.length)
  (token, digits.length + n)

/-
  The longest token that starts with a character, and how many
  of the characters after it belong to it.
-/
def next (c : Char) (cs : List Char) : Token × Nat :=
  if c = '(' then (openList, 0)
  else if c = ')' then (closeList, 0)
  else if c = ':' then colonToken cs
  else if c = '"' then
    quotedToken str cs
  else if c = '-' then minusToken cs
  else if isDigit c then digitToken c cs
  else if isWordStart c then wordToken c cs
  else (invalid, 0)

/- The lexemes of a text that starts at a byte offset, up to the first invalid one. -/
def scan : Nat → List Char → List Lexeme
  | _, [] => []
  | pos, c :: cs =>
    if isGap c then scan (pos + c.utf8Size) cs
    else
      let n := (next c cs).2
      let stop := pos + Text.Utf8.size (c :: cs.take n)
      let lexeme : Lexeme := ⟨(next c cs).1, pos, stop⟩
      if lexeme.token.isInvalid then [lexeme]
      else lexeme :: scan stop (cs.drop n)
termination_by _ cs => cs.length
decreasing_by all_goals simp_wf; try omega

end Token

end RubyWat.Dump
