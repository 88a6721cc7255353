import RubyWat.Proofs.Grammar

/-
  Dumps of syntax trees.

  Key definitions: `Dump.Node.isPrintable`, `Dump.Node.print`, `Dump.Node.unplaced`.

  A tree is printed as nested lists.  Symbols are quoted, with a backslash before quotes and
  backslashes; the bytes of strings are hexadecimal escapes unless they are printable.

  Main statement: a printed tree is read back as the same tree, except for its places
  (`read_print`).
-/

-- Texts As Bytes

namespace RubyWat

open Text List

variable {tag : Dump.Tag}
variable {n : Nat}

namespace Text

namespace Utf8

theorem toNat_ofNat_byte (hByte : n < 256) : (UInt8.ofNat n).toNat = n := by
  simp [Nat.mod_eq_of_lt hByte]

/- A continuation byte in its range adds six bits. -/
theorem continue?_byte (hLow : low ≤ n) (hHigh : n ≤ high) (hByte : n < 256)
    (ranges : List (Nat × Nat)) (acc : Nat) (bs : List UInt8) :
    continue? ((low, high) :: ranges) acc (UInt8.ofNat n :: bs)
      = continue? ranges (acc * 64 + n % 64) bs := by
  rw [continue?, toNat_ofNat_byte hByte, if_pos ⟨hLow, hHigh⟩]

/- The lead byte of a character of two bytes. -/
theorem lead?_two (hLow : 0xc2 ≤ n) (hHigh : n < 0xe0) :
    lead? (UInt8.ofNat n) = some (n - 0xc0, [(0x80, 0xbf)]) := by
  rw [lead?, toNat_ofNat_byte (by omega)]
  simp only [show ¬ n < 0x80 by omega, show ¬ n < 0xc2 by omega, hHigh, if_false, if_true]

/- The lead byte of a character of three bytes.  The range of the byte after it depends on it. -/
theorem lead?_three (hLow : 0xe0 ≤ n) (hHigh : n < 0xf0) :
    lead? (UInt8.ofNat n) = some (n - 0xe0, [(if n = 0xe0 then 0xa0 else 0x80,
        if n = 0xed then 0x9f else 0xbf), (0x80, 0xbf)]) := by
  rw [lead?, toNat_ofNat_byte (by omega)]
  simp only [show ¬ n < 0x80 by omega, show ¬ n < 0xc2 by omega,
    show ¬ n < 0xe0 by omega, hHigh, if_false, if_true]
  by_cases hFirst : n = 0xe0
  · simp [hFirst]
  · by_cases hGap : n = 0xed <;> simp [hFirst, hGap]

/- The lead byte of a character of four bytes, with the range of the byte after it. -/
theorem lead?_four (hLow : 0xf0 ≤ n) (hHigh : n ≤ 0xf4) :
    lead? (UInt8.ofNat n) = some (n - 0xf0, [(if n = 0xf0 then 0x90 else 0x80,
        if n = 0xf4 then 0x8f else 0xbf), (0x80, 0xbf), (0x80, 0xbf)]) := by
  rw [lead?, toNat_ofNat_byte (by omega)]
  simp only [show ¬ n < 0x80 by omega, show ¬ n < 0xc2 by omega, show ¬ n < 0xe0 by omega,
    show ¬ n = 0xe0 by omega, show ¬ n = 0xed by omega, show ¬ n < 0xf0 by omega, if_false]
  by_cases hFirst : n = 0xf0
  · simp [hFirst]
  · by_cases hLast : n = 0xf4
    · simp [hLast]
    · simp [hFirst, hLast, show n < 0xf4 by omega]

/- The bytes of a character are read as that character. -/
theorem chars_encodeChar (c : Char) (bs : List UInt8) :
    chars (String.utf8EncodeChar c ++ bs) = some c :: chars bs := by
  have hSame : Char.ofNat c.val.toNat = c := Char.ofNat_toNat c
  have hValid : c.val.toNat.isValidChar := c.valid
  unfold String.utf8EncodeChar
  generalize c.val.toNat = v at hSame hValid
  have hRead : ∀ {n : Nat} {tail : List UInt8} {bits : Nat} {ranges : List (Nat × Nat)},
        lead? (UInt8.ofNat n) = some (bits, ranges) →
        continue? ranges bits (tail ++ bs) = (some v, bs) →
        chars (UInt8.ofNat n :: tail ++ bs) = some c :: chars bs := by
    intro n tail bits ranges hLead hContinue
    rw [cons_append, chars]
    simp [next, hLead, hContinue, hSame]
  dsimp only
  unfold Nat.isValidChar at hValid
  split
  · have hLead : lead? (UInt8.ofNat v) = some (v, []) := by
      rw [lead?, toNat_ofNat_byte (by omega), if_pos (by omega)]
    exact hRead hLead rfl
  split
  · refine hRead (lead?_two (by omega) (by omega)) ?_
    simp only [cons_append, nil_append]
    rw [continue?_byte (by omega) (by omega) (by omega), continue?]
    congr 2
    omega
  split
  · refine hRead (lead?_three (by omega) (by omega)) ?_
    simp only [cons_append, nil_append]
    rw [continue?_byte (by split <;> omega) (by split <;> omega) (by omega),
      continue?_byte (by omega) (by omega) (by omega), continue?]
    congr 2
    omega
  · refine hRead (lead?_four (by omega) (by omega)) ?_
    simp only [cons_append, nil_append]
    rw [continue?_byte (by split <;> omega) (by split <;> omega) (by omega),
      continue?_byte (by omega) (by omega) (by omega),
      continue?_byte (by omega) (by omega) (by omega), continue?]
    congr 2
    omega

/- The bytes of a text are read as that text. -/
theorem decodeLossy_encode (text : String) : decodeLossy (encode text) = text := by
  have hChars : ∀ cs : List Char, chars (cs.flatMap String.utf8EncodeChar) = cs.map some := by
    intro cs
    induction cs with
    | nil => simp [chars]
    | cons c cs ih => rw [flatMap_cons, chars_encodeChar, ih, map_cons]
  simp only [decodeLossy, encode, hChars, map_map]
  have hGetD : (fun c : Option Char => c.getD replacement) ∘ some = id := rfl
  rw [hGetD, map_id, String.ofList_toList]

end Utf8

end Text

-- Printing

namespace Dump

namespace Printer

/- A character of a symbol. -/
def symbolChar (c : Char) : List Char :=
  if c = '"' ∨ c = '\\' then ['\\', c] else [c]

/- Whether a byte stands for itself in a string. -/
def isPlain (b : UInt8) : Bool :=
  decide (0x20 ≤ b.toNat ∧ b.toNat ≤ 0x7e ∧ b.toNat ≠ '"'.toNat ∧ b.toNat ≠ '\\'.toNat)

/- A byte of a string. -/
def byte (b : UInt8) : List Char :=
  if isPlain b then [Char.ofNat b.toNat]
  else '\\' :: 'x' :: (Numeral.hexByte b).toList

/- An integer in decimal digits. -/
def int (n : Int) : List Char :=
  Token.sign (decide (n < 0)) ++ Nat.toDigits 10 n.natAbs

end Printer

mutual

/- A tree as nested lists. -/
def Node.chars : Node → List Char
  | ⟨tag, items, _⟩ => '(' :: (tag.text.toList ++ (Node.itemChars items ++ [')']))

/- The items of a list, each after a space.  Floats are left out. -/
def Node.itemChars : List (Item Node) → List Char
  | [] => []
  | .node n :: items => ' ' :: (n.chars ++ Node.itemChars items)
  | .nil :: items => ' ' :: (['n', 'i', 'l'] ++ Node.itemChars items)
  | .symbol name :: items =>
    ' ' :: ((':' :: '"' ::
      (name.toList.flatMap Printer.symbolChar ++ ['"']))
      ++ Node.itemChars items)
  | .int value :: items => ' ' :: (Printer.int value.toInt ++ Node.itemChars items)
  | .float _ :: items => Node.itemChars items
  | .str bytes :: items =>
    ' ' :: (('"' :: (bytes.flatMap Printer.byte ++ ['"']))
      ++ Node.itemChars items)

end

/- The text of a tree. -/
def Node.print (n : Node) : String :=
  String.ofList n.chars

/- Whether the text of a tag is a word that is read as this tag. -/
def Tag.isSpelled (tag : Tag) : Bool :=
  match tag.text.toList with
  | [] => false
  | c :: cs => Token.isWordStart c && cs.all Token.isWordChar && decide (Tag.ofWord tag.text = tag)

/- Whether a tag has a meaning, or is a word that is not just another spelling of such a tag. -/
def Tag.isCanonical (tag : Tag) : Bool :=
  tag.isKnown || tag.isSpelled

mutual

/- Whether a tree has canonical tags and no floats. -/
def Node.isPrintable : Node → Bool
  | ⟨tag, items, _⟩ => tag.isCanonical && Node.arePrintable items

def Node.arePrintable : List (Item Node) → Bool
  | [] => true
  | .node n :: items => n.isPrintable && Node.arePrintable items
  | .float _ :: _ => false
  | _ :: items => Node.arePrintable items

end

mutual

/- A tree without its places. -/
def Node.unplaced : Node → Node
  | ⟨tag, items, _⟩ => ⟨tag, Node.unplacedItems items, .generated⟩

def Node.unplacedItems : List (Item Node) → List (Item Node)
  | [] => []
  | .node n :: items => .node n.unplaced :: Node.unplacedItems items
  | item :: items => item :: Node.unplacedItems items

end

/- Every tag that has a meaning is read as it is shown. -/
theorem Tag.isSpelled_of_isCanonical (hCanonical : tag.isCanonical = true) :
    tag.isSpelled = true := by
  have hAll : known.all isSpelled = true := by decide +kernel
  rcases Bool.or_eq_true_iff.mp hCanonical with hKnown | hSpelled
  · refine all_eq_true.mp hAll tag ?_
    cases tag with
    | other word => contradiction
    | _ => simp [known]
  · exact hSpelled

-- Quoted Texts

namespace Printer

theorem quoted_symbol (cs : List Char) : Token.Quoted (cs.flatMap symbolChar) := by
  induction cs with
  | nil => exact .empty
  | cons c cs ih =>
    rw [flatMap_cons, symbolChar]
    split
    · rename_i hEscaped
      refine .escaped ?_ ih
      rcases hEscaped with rfl | rfl <;> decide
    · rename_i hPlain
      rw [not_or] at hPlain
      exact .plain hPlain.1 hPlain.2 ih

theorem decode?_symbol (cs : List Char) :
    Escape.decode? (cs.flatMap symbolChar) = some (cs.flatMap String.utf8EncodeChar) := by
  induction cs with
  | nil => simp [Escape.decode?]
  | cons c cs ih =>
    rw [flatMap_cons, symbolChar]
    split
    · rename_i hEscaped
      have hQuote : String.utf8EncodeChar '"' = [0x22] := by decide
      have hSlash : String.utf8EncodeChar '\\' = [0x5c] := by decide
      rcases hEscaped with rfl | rfl <;> simp [Escape.decode?, Escape.letter?, ih, hQuote, hSlash]
    · rename_i hPlain
      rw [not_or] at hPlain
      simp [Escape.decode?, hPlain.2, ih]

/- A hexadecimal digit is read as its value. -/
theorem digit?_digitChar (hDigit : n < 16) : Numeral.digit? 16 (Nat.digitChar n) = some n := by
  have hAll : ∀ n : Fin 16, Numeral.digit? 16 (Nat.digitChar n) = some n.val := by
    decide
  exact hAll ⟨n, hDigit⟩

theorem digits?_hexByte (b : UInt8) :
    Numeral.digits? 16 (Numeral.hexByte b).toList = some b.toNat := by
  have hByte := b.toNat_lt
  have hHigh := digit?_digitChar (show b.toNat / 16 < 16 by omega)
  have hLow := digit?_digitChar (show b.toNat % 16 < 16 by omega)
  have hValue : b.toNat / 16 * 16 + b.toNat % 16 = b.toNat := by omega
  simp [Numeral.hexByte, Numeral.digits?, Numeral.foldDigits?, hHigh, hLow, hValue]

theorem byte?_hexByte (b : UInt8) (rest : List Char) :
    Escape.byte? ((Numeral.hexByte b).toList ++ rest) = some b := by
  have hDigits := digits?_hexByte b
  rw [Numeral.hexByte, String.toList_ofList] at hDigits ⊢
  have hPlus : Nat.digitChar (b.toNat / 16) ≠ '+' := by
    intro hSame
    have hNone : Numeral.digit? 16 '+' = none := by decide
    simp [Numeral.digits?, Numeral.foldDigits?, hSame, hNone] at hDigits
  simp [Escape.byte?, Numeral.unsigned?, hPlus, hDigits]

/- A plain byte is a character of its own. -/
theorem encodeChar_of_isPlain (hPlain : isPlain b = true) :
    String.utf8EncodeChar (Char.ofNat b.toNat) = [b]
      ∧ Char.ofNat b.toNat ≠ '"' ∧ Char.ofNat b.toNat ≠ '\\' := by
  rcases of_decide_eq_true hPlain with ⟨-, hHigh, hQuote, hSlash⟩
  have hValue : (Char.ofNat b.toNat).toNat = b.toNat := by
    have hChar : b.toNat.isValidChar := .inl (by omega)
    rw [Char.ofNat, dif_pos hChar]
    rfl
  refine ⟨?_, ?_, ?_⟩
  · have hVal : (Char.ofNat b.toNat).val.toNat = b.toNat := hValue
    simp [String.utf8EncodeChar, hVal, show b.toNat ≤ 127 by omega]
  · intro hSame
    exact hQuote (hValue.symm.trans (congrArg Char.toNat hSame))
  · intro hSame
    exact hSlash (hValue.symm.trans (congrArg Char.toNat hSame))

theorem quoted_bytes (bytes : List UInt8) : Token.Quoted (bytes.flatMap byte) := by
  induction bytes with
  | nil => exact .empty
  | cons b bytes ih =>
    rw [flatMap_cons, byte]
    split
    · rename_i hPlain
      rcases encodeChar_of_isPlain hPlain with ⟨-, hQuote, hSlash⟩
      exact .plain hQuote hSlash ih
    have hDigit : ∀ n : Fin 16, Nat.digitChar n ≠ '"' ∧ Nat.digitChar n ≠ '\\' := by
      decide
    have hByte := b.toNat_lt
    have hHigh := hDigit ⟨b.toNat / 16, by omega⟩
    have hLow := hDigit ⟨b.toNat % 16, by omega⟩
    rw [Numeral.hexByte, String.toList_ofList]
    exact .escaped (by decide) (.plain hHigh.1 hHigh.2 (.plain hLow.1 hLow.2 ih))

theorem decode?_bytes (bytes : List UInt8) : Escape.decode? (bytes.flatMap byte) = some bytes := by
  induction bytes with
  | nil => simp [Escape.decode?]
  | cons b bytes ih =>
    rw [flatMap_cons, byte]
    split
    · rename_i hPlain
      rcases encodeChar_of_isPlain hPlain with ⟨hChar, -, hSlash⟩
      simp [Escape.decode?, hSlash, hChar, ih]
    have hHex := byte?_hexByte b (bytes.flatMap byte)
    have hDrop : ((Numeral.hexByte b).toList ++ bytes.flatMap byte).drop 2
          = bytes.flatMap byte := by
      simp [Numeral.hexByte]
    simp [Escape.decode?, Escape.letter?, hHex, hDrop, ih]

-- Scanning What Is Printed

/- A text that ends a word or a number before it. -/
def Delimited (rest : List Char) : Prop :=
  ∃ c cs, rest = c :: cs ∧ (c = ' ' ∨ c = ')')

theorem takeWhile_delimited (hRest : Delimited rest) (hSpace : p ' ' = false)
    (hClose : p ')' = false) : rest.takeWhile p = [] := by
  rcases hRest with ⟨c, cs, rfl, rfl | rfl⟩
  · simp [hSpace]
  · simp [hClose]

/- The longest text of a token is scanned as that token. -/
theorem scan_longest (hLongest : Token.Longest lexeme rest token) (pos : Nat) :
    ∃ l stop, l.token = token ∧ Token.scan pos (lexeme ++ rest) = l :: Token.scan stop rest := by
  rcases hLongest.spells.head with ⟨c, cs, rfl, hGap⟩
  rcases Token.longest_iff.mp hLongest with ⟨hNext, hValid⟩
  refine ⟨_, _, ?_, by
    rw [cons_append, Token.scan]
    simp only [hGap, hNext, hValid, Bool.false_eq_true, if_false, drop_left]
    rfl⟩
  rfl

theorem scan_space (pos : Nat) (rest : List Char) :
    Token.scan pos (' ' :: rest) = Token.scan (pos + 1) rest := by
  rw [Token.scan, if_pos (by decide)]
  rfl

theorem digit?_of_isDigit (hDigit : c.isDigit = true) :
    Numeral.digit? 10 c = some (c.toNat - '0'.toNat) := by
  simp only [Char.isDigit, Bool.and_eq_true, decide_eq_true_eq] at hDigit
  have hRange : '0' ≤ c ∧ c ≤ '9' := hDigit
  have hHigh : c.toNat ≤ 57 := UInt32.le_iff_toNat_le.mp hDigit.2
  have hZero : '0'.toNat = 48 := rfl
  rw [Numeral.digit?, Numeral.letterValue?, if_pos hRange]
  simp only [Option.filter_some, decide_eq_true_eq]
  rw [if_pos (by omega)]

/- Decimal digits are read as the number that they show. -/
theorem digits?_toDigits (n : Nat) : Numeral.digits? 10 (Nat.toDigits 10 n) = some n := by
  have hFold : ∀ (cs : List Char) (acc : Nat), (∀ c ∈ cs, c.isDigit = true) →
        Numeral.foldDigits? 10 acc cs = some (Nat.ofDigitChars 10 cs acc) := by
    intro cs
    induction cs with
    | nil => intros; rfl
    | cons c cs ih =>
      intro acc hDigits
      rw [Numeral.foldDigits?, digit?_of_isDigit (hDigits c (by simp)),
        Nat.ofDigitChars_cons, Nat.mul_comm 10]
      exact ih _ fun d hMem => hDigits d (.tail _ hMem)
  have hDigits := hFold (Nat.toDigits 10 n) 0 fun c hMem =>
      Nat.isDigit_of_mem_toDigits (by decide) (by decide) hMem
  simp [Numeral.digits?, Nat.toDigits_ne_nil, hDigits, Nat.ofDigitChars_ten_toDigits]

theorem number_toDigits (n : Nat) : Token.number (Nat.toDigits 10 n) = n := by
  rw [Token.number, digits?_toDigits, Option.getD_some]

/- A printed integer is the longest text of its token. -/
theorem longest_int (hRest : Delimited rest) (n : Int) : Token.Longest (int n) rest (.int n) := by
  have hDigits : Token.Digits (Nat.toDigits 10 n.natAbs) :=
    ⟨Nat.toDigits_ne_nil, fun c hMem => Nat.isDigit_of_mem_toDigits (by decide) (by decide) hMem⟩
  have hMore := takeWhile_delimited hRest (p := Token.isDigit) rfl rfl
  have hFraction : Token.fraction? rest = none := by
    rcases hRest with ⟨c, cs, rfl, rfl | rfl⟩ <;> rfl
  have hValue : (if decide (n < 0) = true then -(n.natAbs : Int) else n.natAbs) = n := by
    by_cases hNeg : n < 0
    · rw [if_pos (decide_eq_true hNeg)]
      omega
    · rw [if_neg (by simpa using hNeg)]
      omega
  rcases (Token.Spells.int hDigits).head with ⟨c, cs, hText, -⟩
  have hWhole : Token.sign (decide (n < 0)) ++ (Nat.toDigits 10 n.natAbs ++ rest)
        = c :: (cs ++ rest) := by
    rw [← append_assoc, hText, cons_append]
  unfold int
  rw [hText, Token.longest_iff, Token.next_number hDigits hWhole]
  simp only [hMore, Token.numeric, hFraction, number_toDigits,
    append_nil, length_nil, drop_zero, hText, hValue]
  exact ⟨rfl, rfl⟩

/- A printed word is the longest text of its token. -/
theorem longest_word (hStart : Token.isWordStart c = true)
    (hChars : ∀ c ∈ cs, Token.isWordChar c = true) (hRest : Delimited rest) :
    Token.Longest (c :: cs) rest (Token.ofWord (c :: cs)) := by
  have hMore := takeWhile_delimited hRest (p := Token.isWordChar) rfl rfl
  rw [Token.longest_iff, Token.next_word hStart hChars]
  rw [hMore, append_nil]
  exact ⟨rfl, Token.ofWord_valid _⟩

theorem longest_quotedSymbol (hBody : Token.Quoted body) (rest : List Char) :
    Token.Longest (':' :: '"' :: (body ++ ['"'])) rest (.quotedSymbol body) := by
  rw [Token.longest_iff]
  simp [Token.next, Token.colonToken,
    Token.quotedToken_quoted Token.quotedSymbol hBody, Token.isInvalid]

theorem longest_str (hBody : Token.Quoted body) (rest : List Char) :
    Token.Longest ('"' :: (body ++ ['"'])) rest (.str body) := by
  rw [Token.longest_iff]
  simp [Token.next, Token.quotedToken_quoted Token.str hBody, Token.isInvalid]

-- Reading What Is Printed

open Grammar (Tags Atom Items Forms)

theorem unplacedItems_append (items more : List (Item Node)) :
    Node.unplacedItems (items ++ more) = Node.unplacedItems items ++ Node.unplacedItems more := by
  induction items with
  | nil => rfl
  | cons item items ih => cases item <;> simp [Node.unplacedItems, ih]

/-
  A text, followed by another one, shows items: its lexemes are
  these items, at places of their own.
-/
def Shows (text rest : List Char) (items : List (Item Node)) : Prop :=
  ∀ pos, ∃ ls found stop,
    Token.scan pos (text ++ rest) = ls ++ Token.scan stop rest ∧ Items ls found
      ∧ Node.unplacedItems found = Node.unplacedItems items

theorem shows_nothing (rest : List Char) : Shows [] rest [] :=
  fun pos => ⟨[], [], pos, rfl, .done, rfl⟩

theorem Shows.append (hText : Shows text (more ++ rest) items) (hMore : Shows more rest others) :
    Shows (text ++ more) rest (items ++ others) := by
  intro pos
  rcases hText pos with ⟨ls, found, mid, hScan, hItems, hSame⟩
  rcases hMore mid with ⟨ms, found', stop, hScan', hItems', hSame'⟩
  refine ⟨ls ++ ms, found ++ found', stop, ?_, hItems.append hItems', ?_⟩
  · rw [append_assoc, hScan, hScan', append_assoc]
  · rw [unplacedItems_append, unplacedItems_append, hSame, hSame']

theorem Shows.space (hText : Shows text rest items) : Shows (' ' :: text) rest items := by
  intro pos
  rw [cons_append, scan_space]
  exact hText (pos + 1)

theorem shows_atom (hLongest : Token.Longest lexeme rest token)
    (hAtom : Atom token item) : Shows lexeme rest [item] := by
  intro pos
  rcases scan_longest hLongest pos with ⟨l, stop, rfl, hScan⟩
  exact ⟨[l], [item], stop, hScan, .atom hAtom .done, rfl⟩

/- The tag of a list as a lexeme. -/
theorem longest_tag (hCanonical : tag.isCanonical = true) (hRest : Delimited rest) :
    ∃ token, Token.Longest tag.text.toList rest token ∧ Tags token tag := by
  have hSpelled := Tag.isSpelled_of_isCanonical hCanonical
  unfold Tag.isSpelled at hSpelled
  split at hSpelled
  · contradiction
  rename_i c cs hText
  simp only [Bool.and_eq_true, all_eq_true, decide_eq_true_eq] at hSpelled
  rcases hSpelled with ⟨⟨hStart, hChars⟩, hTag⟩
  refine ⟨Token.ofWord tag.text.toList, ?_, ?_⟩
  · rw [hText]
    exact longest_word hStart hChars hRest
  · unfold Token.ofWord
    rw [String.ofList_toList]
    split
    · rename_i hNil
      have hSame : tag = .nilLit :=
        calc
          tag = Tag.ofWord tag.text := hTag.symm
          _ = Tag.ofWord "nil" := by rw [hNil]
          _ = .nilLit := by decide
      rw [hSame]
      exact .nil
    · have hWord : Tags (.word tag.text) (Tag.ofWord tag.text) := .word
      rwa [hTag] at hWord

/- A list shows a node with the items that it shows. -/
theorem shows_list (span : Span) (hCanonical : tag.isCanonical = true)
    (hDelimited : Delimited (text ++ ')' :: rest)) (hItems : Shows text (')' :: rest) items) :
    Shows ('(' :: (tag.text.toList ++ (text ++ [')']))) rest [.node ⟨tag, items, span⟩] := by
  intro pos
  rcases longest_tag hCanonical hDelimited with ⟨token, hTag, hWord⟩
  have hOpen : ∀ more, Token.Longest ['('] more .openList := fun more =>
    Token.longest_iff.mpr ⟨rfl, rfl⟩
  have hClose : Token.Longest [')'] rest .closeList := Token.longest_iff.mpr ⟨rfl, rfl⟩
  let body := tag.text.toList ++ (text ++ ')' :: rest)
  rcases scan_longest (hOpen body) pos with ⟨first, atTag, hFirst, hScan⟩
  rcases scan_longest hTag atTag with ⟨word, atItems, rfl, hScanTag⟩
  rcases hItems atItems with ⟨ls, found, atLast, hScanItems, hFound, hSame⟩
  rcases scan_longest hClose atLast with ⟨last, stop, hLast, hScanLast⟩
  refine ⟨_, _, stop, ?_, Items.single hFirst hWord hFound hLast, ?_⟩
  · simp only [singleton_append, body] at hScan hScanLast
    simp only [cons_append, append_assoc, nil_append, hScan, hScanTag, hScanItems, hScanLast]
  · simp [Node.unplacedItems, Node.unplaced, hSame]

/- What stands after the tag or after an item ends it. -/
theorem delimited_items (hPrintable : Node.arePrintable items = true) (rest : List Char) :
    Delimited (Node.itemChars items ++ ')' :: rest) := by
  cases items with
  | nil => exact ⟨')', rest, rfl, .inr rfl⟩
  | cons item items =>
    cases item with
    | float => contradiction
    | _ => exact ⟨' ', _, rfl, .inl rfl⟩

mutual

/- A printed tree shows itself. -/
theorem shows_node (n : Node) (hPrintable : n.isPrintable = true) (rest : List Char) :
    Shows n.chars rest [.node n] := by
  rcases n with ⟨tag, items, span⟩
  rw [Node.isPrintable, Bool.and_eq_true] at hPrintable
  rw [Node.chars]
  exact shows_list span hPrintable.1 (delimited_items hPrintable.2 rest)
    (shows_items items hPrintable.2 rest)

/- Printed items show themselves. -/
theorem shows_items (items : List (Item Node)) (hPrintable : Node.arePrintable items = true)
    (rest : List Char) : Shows (Node.itemChars items) (')' :: rest) items := by
  rcases items with _ | ⟨item, items⟩
  · exact shows_nothing _
  have hRest : Node.arePrintable items = true := by
    cases item <;> simp_all [Node.arePrintable]
  have hItems := shows_items items hRest rest
  have hDelimited := delimited_items hRest rest
  rcases item with n | _ | name | value | bits | bytes
  · rw [Node.arePrintable, Bool.and_eq_true] at hPrintable
    exact ((shows_node n hPrintable.1 _).append hItems).space
  · have hNil : Token.Longest ['n', 'i', 'l'] (Node.itemChars items ++ ')' :: rest) .nil :=
      longest_word rfl (all_eq_true.mp rfl) hDelimited
    exact ((shows_atom hNil .nil).append hItems).space
  · have hAtom : Atom (.quotedSymbol (name.toList.flatMap symbolChar))
          (.symbol (Utf8.decodeLossy (Utf8.encode name))) :=
      .quotedSymbol (decode?_symbol name.toList)
    rw [Utf8.decodeLossy_encode] at hAtom
    exact ((shows_atom (longest_quotedSymbol (quoted_symbol _) _) hAtom).append hItems).space
  · exact ((shows_atom (longest_int hDelimited _) .int).append hItems).space
  · contradiction
  · exact ((shows_atom (longest_str (quoted_bytes _) _)
      (.str (decode?_bytes bytes))).append hItems).space

end

end Printer

/- A tree with canonical tags and without floats is read from its text, except for places. -/
theorem read_print {n : Node} (hPrintable : n.isPrintable = true) :
    ∃ tree, read n.print = .ok tree ∧ tree.unplaced = n.unplaced := by
  rcases Printer.shows_node n hPrintable [] 0 with ⟨ls, found, stop, hScan, hItems, hSame⟩
  have hNone : Token.scan stop [] = [] := by rw [Token.scan]
  rw [hNone, append_nil, append_nil] at hScan
  rcases found with _ | ⟨item, _ | ⟨other, found⟩⟩
  · simp [Node.unplacedItems] at hSame
  · cases item with
    | node tree =>
      simp only [Node.unplacedItems, cons.injEq, Item.node.injEq, and_true] at hSame
      have hForms : Grammar.Forms ls [tree] := hItems
      refine ⟨tree, read_ok_iff.mpr ⟨[tree], ?_, rfl⟩, hSame⟩
      rw [Node.print, String.toList_ofList, hScan]
      exact Reader.foldlM_forms hForms []
    | _ => simp [Node.unplacedItems] at hSame
  · cases item <;> cases other <;> simp [Node.unplacedItems] at hSame

/-
  A tree with a tag of no meaning, a symbol that quotes a backslash, a string of bytes that are
  no text and the smallest number.
-/
def oddTree : Node :=
  ⟨.other "odd-one", [.symbol "a\\\"\n\u00e9", .nil,
      .node ⟨.str, [.str [0x5c, 0x78, 0xff, 0x22, 0x41]], ⟨3, 4⟩⟩,
      .int Int64.minValue],
    ⟨1, 2⟩⟩

theorem oddTree_read_print : oddTree.isPrintable = true ∧ oddTree.print
        = "(odd-one :\"a\\\\\\\"\n\u00e9\" nil (str \"\\x5cx\\xff\\x22A\") "
          ++ "-9223372036854775808)"
      ∧ ∃ tree, read oddTree.print = .ok tree ∧ tree.unplaced = oddTree.unplaced :=
  ⟨by decide +kernel, by decide +kernel, read_print (by decide +kernel)⟩

end Dump

end RubyWat
