import Mathlib.Data.List.TakeWhile
import RubyWat.Dump.Token

/-
  The tokens of a dump as patterns.

  Key definitions: `Dump.Token.Spells`, `Dump.Token.Longest`, `Dump.Token.Lexes`.

  A pattern for each token says which texts spell it.  A text is cut, between gaps, into
  lexemes: from each position on the longest text that spells a token is taken.

  Main statement: scanning cuts a text in this way, and stops at an invalid token only where no
  text spells a token (`lexes_iff`).
-/

-- Patterns

namespace RubyWat

open List

variable {negative : Bool} {e : Char} {exp : Int}
variable {mark places : List Char}
variable {n : Nat}

namespace Dump

namespace Token

/- Bodies of quoted texts, `([^"\\]|\\.)*`.  The dot does not stand for a line feed. -/
inductive Quoted : List Char → Prop where
  | empty : Quoted []
  | plain {c : Char} {cs : List Char} (hQuote : c ≠ '"') (hSlash : c ≠ '\\') (hRest : Quoted cs) :
      Quoted (c :: cs)
  | escaped {c : Char} {cs : List Char} (hBreak : c ≠ '\n') (hRest : Quoted cs) :
      Quoted ('\\' :: c :: cs)

/- Runs of digits, `[0-9]+`. -/
structure Digits (cs : List Char) : Prop where
  nonempty : cs ≠ []
  digits : ∀ c ∈ cs, isDigit c = true

/- The sign of a number, `-?`. -/
def sign : Bool → List Char
  | true => ['-']
  | false => []

/- The exponent of a number, `([eE][-+]?[0-9]+)?`. -/
inductive Exponent : List Char → Int → Prop where
  | none : Exponent [] 0
  | some {e : Char} {mark digits : List Char} (hLetter : e = 'e' ∨ e = 'E')
      (hMark : mark = [] ∨ mark = ['+'] ∨ mark = ['-']) (hDigits : Digits digits) :
      Exponent (e :: (mark ++ digits))
        (if mark = ['-'] then -(number digits : Int) else number digits)

/- The token of a bare word.  The word `nil` is its own token. -/
def ofWord (word : List Char) : Token :=
  if String.ofList word = "nil" then
    nil
  else .word (String.ofList word)

/- The texts that spell a token. -/
inductive Spells : List Char → Token → Prop where
  | openList : Spells ['('] openList
  | closeList : Spells [')'] closeList
  | symbol {name : List Char} (hNonempty : name ≠ []) (hName : ∀ c ∈ name, isSymbolChar c = true) :
      Spells (':' :: name) (symbol (String.ofList name))
  | quotedSymbol {body : List Char} (hBody : Quoted body) :
      Spells (':' :: '"' :: (body ++ ['"'])) (quotedSymbol body)
  | int {negative : Bool} {digits : List Char} (hDigits : Digits digits) :
      Spells (sign negative ++ digits)
        (int (if negative then -(number digits : Int) else number digits))
  | float {negative : Bool} {digits places exponent : List Char} {exp : Int}
      (hDigits : Digits digits) (hPlaces : Digits places) (hExponent : Exponent exponent exp) :
      Spells (sign negative ++ (digits ++ '.' :: (places ++ exponent)))
        (float ⟨negative, number (digits ++ places), exp - places.length⟩)
  | str {body : List Char} (hBody : Quoted body) : Spells ('"' :: (body ++ ['"'])) (str body)
  | word {c : Char} {cs : List Char} (hStart : isWordStart c = true)
      (hRest : ∀ c ∈ cs, isWordChar c = true) : Spells (c :: cs) (ofWord (c :: cs))

/- The lexeme spells a token, and no longer start of the text does. -/
structure Longest (lexeme rest : List Char) (token : Token) : Prop where
  spells : Spells lexeme token
  longest : ∀ {longer rest' token'}, longer ++ rest' = lexeme ++ rest → Spells longer token' →
      longer.length ≤ lexeme.length

/- A text that starts at a byte offset, cut into lexemes. -/
inductive Lexes : Nat → List Char → List Lexeme → Prop where
  | done {pos : Nat} : Lexes pos [] []
  | gap {pos : Nat} {c : Char} {cs : List Char} {ls : List Lexeme} (hGap : isGap c = true)
      (hRest : Lexes (pos + c.utf8Size) cs ls) : Lexes pos (c :: cs) ls
  | token {pos : Nat} {lexeme rest : List Char} {token : Token} {ls : List Lexeme}
      (hLongest : Longest lexeme rest token) (hRest : Lexes (pos + Text.Utf8.size lexeme) rest ls) :
      Lexes pos (lexeme ++ rest) (⟨token, pos, pos + Text.Utf8.size lexeme⟩ :: ls)

-- Scanning Spelled Texts

variable {cs rest : List Char}

theorem not_isDigit_of_letter (hLetter : e = 'e' ∨ e = 'E') : isDigit e = false := by
  rcases hLetter with rfl | rfl <;> decide

/- A digit is none of the characters that start other tokens. -/
theorem isDigit_ne (hDigit : isDigit d = true) (hOther : isDigit c = false) : d ≠ c := by
  rintro rfl
  rw [hDigit] at hOther
  contradiction

/- The body of a quoted text ends at the quote that closes it. -/
theorem body_quoted (hQuoted : Quoted text) (rest : List Char) :
    body (text ++ '"' :: rest) = (text.length, true) := by
  induction hQuoted with
  | empty => simp [body]
  | plain hQuote hSlash _ ih =>
    rw [cons_append, body.eq_def]
    split <;> simp_all
  | escaped hBreak _ ih => simp [body, hBreak, ih]

theorem quotedToken_quoted (make : List Char → Token) (hQuoted : Quoted text) (rest : List Char) :
    quotedToken make (text ++ '"' :: rest) = (make text, text.length + 1) := by
  simp [quotedToken, body_quoted hQuoted]

/- A bare symbol takes all characters of a symbol. -/
theorem next_symbol (hNonempty : name ≠ []) (hName : ∀ c ∈ name, isSymbolChar c = true)
    (rest : List Char) :
    let whole := name ++ rest.takeWhile isSymbolChar
    next ':' (name ++ rest) = (symbol (String.ofList whole), whole.length) := by
  cases name with
  | nil => contradiction
  | cons d name =>
    have hQuote : d ≠ '"' := by
      rintro rfl
      exact absurd (hName '"' (by simp)) (by decide)
    have hTake : (d :: (name ++ rest)).takeWhile isSymbolChar
          = d :: name ++ rest.takeWhile isSymbolChar :=
      takeWhile_append_of_pos hName
    simp [next, colonToken, hQuote, hTake]

/- A bare word takes all characters of a word. -/
theorem next_word (hStart : isWordStart c = true) (hRest : ∀ c ∈ cs, isWordChar c = true)
    (rest : List Char) :
    let whole := cs ++ rest.takeWhile isWordChar
    next c (cs ++ rest) = (ofWord (c :: whole), whole.length) := by
  have hOther : ∀ d, isWordStart d = false → c ≠ d := by
    rintro d hD rfl
    rw [hStart] at hD
    contradiction
  have hDigit : isDigit c = false := by
    simp only [isWordStart, isDigit, Bool.or_eq_true, Bool.and_eq_true, beq_iff_eq,
      decide_eq_true_eq, Char.le_def, UInt32.le_iff_toNat_le] at hStart ⊢
    rcases hStart with ⟨hLow, _⟩ | rfl
    · simp only [Bool.and_eq_false_iff, decide_eq_false_iff_not]
      right
      have hA : ('a' : Char).val.toNat = 97 := rfl
      have hNine : ('9' : Char).val.toNat = 57 := rfl
      omega
    · decide
  simp [next, wordToken, ofWord, hStart, hDigit,
    hOther '(' (by decide), hOther ')' (by decide), hOther ':' (by decide),
    hOther '"' (by decide), hOther '-' (by decide),
    takeWhile_append_of_pos hRest]

/- An exponent takes all digits after its sign. -/
theorem exponent_some (hLetter : e = 'e' ∨ e = 'E')
    (hMark : mark = [] ∨ mark = ['+'] ∨ mark = ['-']) (hDigits : Digits digits) (rest : List Char) :
    let whole := digits ++ rest.takeWhile isDigit
    exponent (e :: (mark ++ (digits ++ rest)))
      = (if mark = ['-'] then -(number whole : Int) else number whole,
          1 + mark.length + whole.length) := by
  have hTake : (digits ++ rest).takeWhile isDigit = digits ++ rest.takeWhile isDigit :=
    takeWhile_append_of_pos hDigits.digits
  have hSign : exponentSign (mark ++ (digits ++ rest))
        = (decide (mark = ['-']), digits ++ rest) := by
    rcases hMark with rfl | rfl | rfl
    · cases digits with
      | nil => exact absurd rfl hDigits.nonempty
      | cons d digits =>
        have hDigit := hDigits.digits d (by simp)
        have hMinus := isDigit_ne (c := '-') hDigit (by decide)
        have hPlus := isDigit_ne (c := '+') hDigit (by decide)
        simp [exponentSign, hMinus, hPlus]
    · rfl
    · rfl
  simp only [exponent, hSign, hTake]
  simp [hLetter, hDigits.nonempty]

/- A written exponent is read as a whole. -/
theorem Exponent.exact (hExponent : Exponent mark exp) :
    mark.takeWhile isDigit = [] ∧ exponent mark = (exp, mark.length) := by
  cases hExponent with
  | none => exact ⟨rfl, rfl⟩
  | some hLetter hMark hDigits =>
    have hExp := exponent_some hLetter hMark hDigits []
    simp only [append_nil, takeWhile_nil] at hExp
    refine ⟨by simp [not_isDigit_of_letter hLetter], ?_⟩
    rw [hExp]
    simp only [length_cons, length_append, Prod.mk.injEq, true_and]
    omega

/- An exponent at the start of a longer text is not cut short. -/
theorem Exponent.reaches (hExponent : Exponent mark exp) (rest : List Char) :
    let more := (mark ++ rest).takeWhile isDigit
    mark.length ≤ more.length + (exponent ((mark ++ rest).drop more.length)).2 := by
  cases hExponent with
  | none => exact Nat.zero_le _
  | some hLetter hMark hDigits =>
    have hExp := exponent_some hLetter hMark hDigits rest
    simp only [cons_append, append_assoc, takeWhile_cons, not_isDigit_of_letter
      hLetter, hExp, length_nil, drop_zero, length_cons, length_append,
      Bool.false_eq_true, if_false]
    omega

/- A fraction takes all its digits and the exponent after them. -/
theorem fraction?_eq (hPlaces : Digits places) (rest : List Char) :
    let more := rest.takeWhile isDigit
    let exp := exponent (rest.drop more.length)
    fraction? ('.' :: (places ++ rest)) = some (places ++ more, exp.1,
          1 + (places ++ more).length + exp.2) := by
  have hTake : (places ++ rest).takeWhile isDigit = places ++ rest.takeWhile isDigit :=
    takeWhile_append_of_pos hPlaces.digits
  simp [fraction?, hTake, hPlaces.nonempty, drop_length_add_append]

/- The integer digits of a number are all the digits there are. -/
theorem next_number (hDigits : Digits digits)
    (hText : sign negative ++ (digits ++ rest) = c :: cs) :
    let more := rest.takeWhile isDigit
    let found := numeric negative (digits ++ more) (rest.drop more.length)
    next c cs = (found.1, (sign negative ++ (digits ++ more)).length - 1 + found.2) := by
  have hTake : (digits ++ rest).takeWhile isDigit = digits ++ rest.takeWhile isDigit :=
    takeWhile_append_of_pos hDigits.digits
  cases negative with
  | true =>
    injection hText with hHead hTail
    subst hHead hTail
    simp [next, minusToken, hTake, hDigits.nonempty, sign, drop_length_add_append]
  | false =>
    cases digits with
    | nil => exact absurd rfl hDigits.nonempty
    | cons d digits =>
      injection hText with hHead hTail
      subst hHead hTail
      have hDigit := hDigits.digits d (by simp)
      simp only [cons_append, takeWhile_cons_of_pos hDigit, cons.injEq, true_and] at hTake
      simp [next, digitToken, hDigit, hTake, sign, drop_length_add_append,
        isDigit_ne hDigit (c := '(') (by decide),
        isDigit_ne hDigit (c := ')') (by decide),
        isDigit_ne hDigit (c := ':') (by decide),
        isDigit_ne hDigit (c := '"') (by decide),
        isDigit_ne hDigit (c := '-') (by decide)]

/- A number is a token. -/
theorem numeric_valid (negative : Bool) (digits rest : List Char) :
    (numeric negative digits rest).1.isInvalid = false := by
  unfold numeric
  split <;> rfl

theorem ofWord_valid (word : List Char) : (ofWord word).isInvalid = false := by
  unfold ofWord
  split <;> rfl

/- A text that spells a token is scanned as that token. -/
theorem Spells.next_exact (hSpells : Spells lexeme token) (hText : lexeme = c :: cs) :
    next c cs = (token, cs.length) := by
  cases hSpells with
  | openList | closeList => cases hText; rfl
  | symbol hNonempty hName =>
    cases hText
    simpa using next_symbol hNonempty hName []
  | quotedSymbol hBody =>
    cases hText
    simp [next, colonToken, quotedToken_quoted Token.quotedSymbol hBody]
  | str hBody =>
    cases hText
    simp [next, quotedToken_quoted Token.str hBody]
  | word hStart hRest =>
    cases hText
    simpa using next_word hStart hRest []
  | @int negative digits hDigits =>
    rw [← append_nil digits] at hText
    have hNext := next_number hDigits hText
    have hLength := congrArg length hText
    simp [numeric, fraction?] at hNext hLength
    rw [hNext, hLength]
    simp
  | @float negative digits places mark exp hDigits hPlaces hExponent =>
    have hNext := next_number hDigits hText
    have hLength := congrArg length hText
    have hDot : isDigit '.' = false := by decide
    have hFraction := fraction?_eq hPlaces mark
    rcases hExponent.exact with ⟨hMore, hExp⟩
    simp only [hMore, length_nil, drop_zero, append_nil, hExp] at hFraction
    simp only [takeWhile_cons, hDot, Bool.false_eq_true, if_false, append_nil,
      length_nil, drop_zero, numeric, hFraction] at hNext
    rw [hNext]
    have hSome := length_pos_iff.mpr hDigits.nonempty
    simp only [length_append, length_cons] at hLength ⊢
    simp only [Prod.mk.injEq, true_and]
    omega

/- Scanning takes at least what spells a token. -/
theorem Spells.next_reaches (hSpells : Spells lexeme token) (hText : lexeme ++ rest = c :: cs) :
    lexeme.length ≤ (next c cs).2 + 1 ∧ (next c cs).1.isInvalid = false := by
  cases hSpells with
  | openList | closeList => cases hText; exact ⟨le_refl _, rfl⟩
  | symbol hNonempty hName =>
    obtain ⟨rfl, rfl⟩ := cons.inj hText
    rw [append_eq, next_symbol hNonempty hName rest]
    exact ⟨by simp, rfl⟩
  | quotedSymbol hBody =>
    cases hText
    simp [next, colonToken, quotedToken_quoted Token.quotedSymbol hBody, isInvalid]
  | str hBody =>
    cases hText
    simp [next, quotedToken_quoted Token.str hBody, isInvalid]
  | word hStart hRest =>
    obtain ⟨rfl, rfl⟩ := cons.inj hText
    rw [append_eq, next_word hStart hRest rest]
    exact ⟨by simp, ofWord_valid _⟩
  | int hDigits =>
    rw [append_assoc] at hText
    rw [next_number hDigits hText]
    refine ⟨?_, numeric_valid _ _ _⟩
    simp only [length_append]
    omega
  | @float negative digits places mark exp hDigits hPlaces hExponent =>
    simp only [append_assoc, cons_append] at hText
    have hDot : isDigit '.' = false := by decide
    have hReach := hExponent.reaches rest
    rw [next_number hDigits hText]
    refine ⟨?_, numeric_valid _ _ _⟩
    simp only [takeWhile_cons, hDot, Bool.false_eq_true, if_false, append_nil,
      length_nil, drop_zero, numeric, fraction?_eq hPlaces (mark ++ rest),
      length_append, length_cons]
    omega

-- Texts Of Scanned Tokens

/- A token that was found behind some of its characters is written there. -/
def Stands (front cs : List Char) (found : Token × Nat) : Prop :=
  ∃ more, more <+: cs ∧ more.length = found.2 ∧ Spells (front ++ more) found.1

theorem digits_takeWhile (hSome : cs.takeWhile isDigit ≠ []) : Digits (cs.takeWhile isDigit) :=
  ⟨hSome, fun _ => mem_takeWhile_imp⟩

/- What stands behind the digits of a text stands behind the text before them. -/
theorem prefix_digits (hMore : more <+: cs.drop (cs.takeWhile p).length) :
    cs.takeWhile p ++ more <+: cs := by
  rcases takeWhile_prefix p (l := cs) with ⟨rest, hWhole⟩
  generalize cs.takeWhile p = digits at hWhole hMore ⊢
  subst hWhole
  rw [drop_left] at hMore
  exact (prefix_append_right_inj _).mpr hMore

/- A closed body is what a quoted text may hold. -/
theorem quoted_of_body (hBody : body cs = (n, true)) :
    ∃ text rest, cs = text ++ '"' :: rest ∧ Quoted text ∧ text.length = n := by
  fun_induction body cs generalizing n with
  | case1 | case3 | case4 => simp at hBody
  | case2 cs =>
    obtain ⟨rfl, -⟩ := Prod.mk.inj hBody
    exact ⟨[], cs, rfl, .empty, rfl⟩
  | case5 c cs hBreak m closed hRest ih =>
    obtain ⟨rfl, rfl⟩ := Prod.mk.inj hBody
    rcases ih hRest with ⟨text, rest, rfl, hQuoted, rfl⟩
    exact ⟨'\\' :: c :: text, rest, rfl, .escaped hBreak hQuoted, rfl⟩
  | case6 c cs hQuote hAlone hSlash m closed hRest ih =>
    obtain ⟨rfl, rfl⟩ := Prod.mk.inj hBody
    rcases ih hRest with ⟨text, rest, hText, hQuoted, rfl⟩
    refine ⟨c :: text, rest, by rw [hText, cons_append], .plain ?_ ?_ hQuoted, rfl⟩
    · rintro rfl
      simp at hQuote
    · rintro rfl
      cases cs with
      | nil => simp at hAlone
      | cons d cs => exact hSlash d cs rfl rfl

/- The sign of an exponent is what stands before the rest. -/
theorem exponentSign_spelled (hSign : exponentSign cs = (negative, rest)) :
    ∃ mark, (mark = [] ∨ mark = ['+'] ∨ mark = ['-'])
        ∧ cs = mark ++ rest ∧ negative = decide (mark = ['-']) := by
  unfold exponentSign at hSign
  split at hSign <;> obtain ⟨rfl, rfl⟩ := Prod.mk.inj hSign
  · exact ⟨['-'], by simp, rfl, rfl⟩
  · exact ⟨['+'], by simp, rfl, rfl⟩
  · exact ⟨[], by simp, rfl, rfl⟩

/- An exponent that is read is written there. -/
theorem exponent_spelled (cs : List Char) :
    ∃ mark, mark <+: cs ∧ mark.length = (exponent cs).2 ∧ Exponent mark (exponent cs).1 := by
  have hNone : ∀ cs : List Char, ∃ mark, mark <+: cs ∧ mark.length = 0 ∧ Exponent mark 0 :=
    fun cs => ⟨[], nil_prefix, rfl, .none⟩
  cases cs with
  | nil => exact hNone []
  | cons e cs =>
    rcases hSign : exponentSign cs with ⟨negative, rest⟩
    rcases exponentSign_spelled hSign with ⟨mark, hMark, rfl, rfl⟩
    simp only [exponent, hSign]
    split
    · rename_i hFound
      have hSome : rest.takeWhile isDigit ≠ [] := by simpa using hFound.2
      refine ⟨e :: (mark ++ rest.takeWhile isDigit), ?_, ?_, ?_⟩
      · exact (prefix_cons_inj e).mpr ((prefix_append_right_inj mark).mpr ( takeWhile_prefix _))
      · simp only [length_cons, length_append]
        omega
      · simpa using Exponent.some hFound.1 hMark (digits_takeWhile hSome)
    · exact hNone _

/- A fraction that is read is written there. -/
theorem fraction?_spelled (hFraction : fraction? cs = some (places, exp, n)) :
    Digits places ∧ ∃ mark, Exponent mark exp
      ∧ '.' :: (places ++ mark) <+: cs ∧ ('.' :: (places ++ mark)).length = n := by
  unfold fraction? at hFraction
  split at hFraction
  · rename_i cs
    dsimp only at hFraction
    split at hFraction
    · contradiction
    rename_i hSome
    simp only [Option.some.injEq, Prod.mk.injEq] at hFraction
    rcases hFraction with ⟨rfl, rfl, rfl⟩
    rcases exponent_spelled (cs.drop (cs.takeWhile isDigit).length) with
      ⟨mark, hPrefix, hLength, hExponent⟩
    refine ⟨digits_takeWhile (by simpa using hSome), mark, hExponent, ?_, ?_⟩
    · exact (prefix_cons_inj '.').mpr (prefix_digits hPrefix)
    · simp only [length_cons, length_append]
      omega
  · contradiction

/- A number that is read is written there. -/
theorem numeric_spelled (negative : Bool) (hDigits : Digits digits) (rest : List Char) :
    Stands (sign negative ++ digits) rest (numeric negative digits rest) := by
  unfold numeric
  split
  · rename_i hFraction
    rcases fraction?_spelled hFraction with ⟨hPlaces, mark, hExponent, hPrefix, hLength⟩
    refine ⟨_, hPrefix, hLength, ?_⟩
    rw [append_assoc]
    exact .float hDigits hPlaces hExponent
  · refine ⟨[], nil_prefix, rfl, ?_⟩
    rw [append_nil]
    exact .int hDigits

/- The digits before the rest of a number are its own. -/
theorem Stands.digits (hRest : Stands (front ++ cs.takeWhile isDigit)
      (cs.drop (cs.takeWhile isDigit).length) (token, n)) :
    Stands front cs (token, (cs.takeWhile isDigit).length + n) := by
  rcases hRest with ⟨more, hPrefix, hLength, hSpells⟩
  refine ⟨_, prefix_digits hPrefix, ?_, append_assoc front _ more ▸ hSpells⟩
  rw [length_append, hLength]

/- A quoted text that is read is written there. -/
theorem quotedToken_spelled (hSpells : ∀ text, Quoted text →
      Spells (front ++ (text ++ ['"'])) (make text))
    (hValid : (quotedToken make cs).1.isInvalid = false) :
    Stands front cs (quotedToken make cs) := by
  rcases hBody : body cs with ⟨n, closed⟩
  simp only [quotedToken, hBody] at hValid ⊢
  cases closed with
  | false => contradiction
  | true =>
    rcases quoted_of_body hBody with ⟨text, rest, rfl, hQuoted, rfl⟩
    rw [if_pos rfl, take_left]
    refine ⟨text ++ ['"'], ?_, by simp, hSpells text hQuoted⟩
    exact ⟨rest, by simp⟩

theorem colonToken_spelled (hValid : (colonToken cs).1.isInvalid = false) :
    Stands [':'] cs (colonToken cs) := by
  unfold colonToken at hValid ⊢
  split
  · rename_i cs
    have hQuoted : Stands [':', '"'] cs (quotedToken quotedSymbol cs) :=
      quotedToken_spelled (fun _ => .quotedSymbol) hValid
    rcases hQuoted with ⟨more, hPrefix, hLength, hSpells⟩
    exact ⟨'"' :: more, (prefix_cons_inj _).mpr hPrefix, by simp [hLength], hSpells⟩
  · dsimp only
    split
    · simp_all [isInvalid]
    · rename_i hSome
      refine ⟨_, takeWhile_prefix _, rfl, ?_⟩
      exact .symbol (by simpa using hSome) fun _ => mem_takeWhile_imp

/- A token that is scanned is written there. -/
theorem next_spelled (hValid : (next c cs).1.isInvalid = false) : Stands [c] cs (next c cs) := by
  have hAlone : ∀ {c token}, Spells [c] token → Stands [c] cs (token, 0) :=
    fun hSpells => ⟨[], nil_prefix, rfl, hSpells⟩
  unfold next at hValid ⊢
  split
  · subst c
    exact hAlone .openList
  split
  · subst c
    exact hAlone .closeList
  split
  · subst c
    exact colonToken_spelled (by simpa using hValid)
  split
  · subst c
    exact quotedToken_spelled (fun _ => .str) (by simpa using hValid)
  split
  · subst c
    rw [minusToken]
    split
    · simp_all [minusToken, isInvalid]
    · rename_i hSome
      exact (numeric_spelled true (digits_takeWhile (by simpa using hSome)) _).digits
  split
  · rename_i hDigit
    have hDigits : Digits (c :: cs.takeWhile isDigit) :=
      ⟨by simp, forall_mem_cons.mpr ⟨hDigit, fun _ => mem_takeWhile_imp⟩⟩
    exact (show Stands ([c] ++ _) _ _ from numeric_spelled false hDigits _).digits
  split
  · rename_i hStart
    exact ⟨_, takeWhile_prefix _, rfl, .word hStart fun _ => mem_takeWhile_imp⟩
  · simp_all [isInvalid]

-- Scanning As Cutting

/- No token is spelled by nothing, and none starts with a gap. -/
theorem Spells.head (hSpells : Spells lexeme token) :
    ∃ c cs, lexeme = c :: cs ∧ isGap c = false := by
  have hGap : ∀ {c}, isDigit c = true ∨ isWordStart c = true → isGap c = false := by
    intro c hClass
    cases hFound : isGap c with
    | false => rfl
    | true =>
      simp only [isGap, Bool.or_eq_true, beq_iff_eq] at hFound
      rcases hFound with ((rfl | rfl) | rfl) | rfl <;> simp_all +decide
  have hNumber : ∀ {negative digits} (rest), Digits digits →
        ∃ c cs, sign negative ++ (digits ++ rest) = c :: cs ∧ isGap c = false := by
    intro negative digits rest hDigits
    cases negative with
    | true => exact ⟨'-', digits ++ rest, rfl, rfl⟩
    | false =>
      cases digits with
      | nil => exact absurd rfl hDigits.nonempty
      | cons d digits => exact ⟨d, digits ++ rest, rfl, hGap (.inl (hDigits.digits d (by simp)))⟩
  cases hSpells with
  | openList => exact ⟨'(', [], rfl, rfl⟩
  | closeList => exact ⟨')', [], rfl, rfl⟩
  | symbol | quotedSymbol => exact ⟨':', _, rfl, rfl⟩
  | int hDigits => simpa using hNumber [] hDigits
  | float hDigits => exact hNumber _ hDigits
  | str => exact ⟨'"', _, rfl, rfl⟩
  | word hStart => exact ⟨_, _, rfl, hGap (.inr hStart)⟩

/- A token that is as long as a part of the text is written in it. -/
theorem Stands.spells (hStands : Stands [c] (cs ++ rest) (token, cs.length)) :
    Spells (c :: cs) token := by
  rcases hStands with ⟨more, ⟨_, hSame⟩, hLength, hSpells⟩
  rwa [(append_inj hSame hLength).1] at hSpells

/- Scanning takes the longest text that spells a token. -/
theorem longest_iff : Longest (c :: cs) rest token ↔ next c (cs ++ rest) = (token, cs.length)
        ∧ token.isInvalid = false := by
  have hText : (c :: cs) ++ rest = c :: (cs ++ rest) := rfl
  constructor
  · intro hLongest
    rcases hLongest.spells.next_reaches hText with ⟨hReach, hValid⟩
    have hSame : (next c (cs ++ rest)).2 = cs.length := by
      rcases next_spelled hValid with ⟨more, ⟨rest', hWhole⟩, hLength, hSpells⟩
      have hShort := hLongest.longest (congrArg (c :: ·) hWhole) hSpells
      simp only [length_cons, length_append, length_nil] at hReach hShort
      omega
    have hStands : Stands [c] (cs ++ rest) ((next c (cs ++ rest)).1, cs.length) :=
      hSame ▸ next_spelled hValid
    have hToken : (next c (cs ++ rest)).1 = token :=
      (Prod.mk.inj ((hStands.spells.next_exact rfl).symm.trans (hLongest.spells.next_exact rfl))).1
    exact ⟨Prod.ext hToken hSame, hToken ▸ hValid⟩
  · rintro ⟨hNext, hValid⟩
    have hStands : Stands [c] (cs ++ rest) (token, cs.length) :=
      hNext ▸ next_spelled (hNext ▸ hValid)
    refine ⟨hStands.spells, ?_⟩
    intro longer rest' token' hSame hSpells
    have hReach := (hSpells.next_reaches (hSame.trans hText)).1
    rwa [hNext] at hReach

/- Scanning cuts a text into lexemes, unless it finds an invalid token. -/
theorem lexes_iff : Lexes pos cs ls ↔ scan pos cs = ls ∧ ∀ l ∈ ls, l.token.isInvalid = false := by
  constructor
  · intro hLexes
    induction hLexes with
    | done => exact ⟨by rw [scan], by simp⟩
    | gap hGap _ ih =>
      rw [scan, if_pos hGap]
      exact ih
    | @token pos lexeme rest token ls hLongest _ ih =>
      rcases hLongest.spells.head with ⟨c, cs, rfl, hGap⟩
      rcases longest_iff.mp hLongest with ⟨hNext, hValid⟩
      rcases ih with ⟨hScan, hRest⟩
      refine ⟨?_, ?_⟩
      · rw [cons_append, scan]
        simp [hGap, hNext, hValid, hScan]
      · intro l hMem
        rcases mem_cons.mp hMem with rfl | hMem
        · exact hValid
        · exact hRest l hMem
  · rintro ⟨rfl, hValid⟩
    fun_induction scan pos cs with
    | case1 => exact .done
    | case2 pos c cs hGap ih => exact .gap hGap (ih hValid)
    | case3 => simp_all
    | case4 pos c cs hGap n stop lexeme hToken ih =>
      have hKnown : (next c cs).1.isInvalid = false := by simpa using hToken
      rcases next_spelled hKnown with ⟨more, hPrefix, hLength, _⟩
      have hReach : n ≤ cs.length := hLength.symm.trans_le hPrefix.length_le
      have hLongest : Longest (c :: cs.take n) (cs.drop n) (next c cs).1 := by
        rw [longest_iff, take_append_drop, length_take, Nat.min_eq_left hReach]
        exact ⟨rfl, hKnown⟩
      have hCut := Lexes.token hLongest (ih fun l hMem => hValid l (.tail _ hMem))
      rwa [cons_append, take_append_drop] at hCut

end Token

end Dump

end RubyWat
