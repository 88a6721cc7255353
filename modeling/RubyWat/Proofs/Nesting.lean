import RubyWat.Proofs.Grammar
import RubyWat.Proofs.Positions

/-
  Spans of the nodes of a dump.

  Key definitions: `Dump.brackets`, `Dump.Node.spansFrom`, `Dump.Node.Bracketed`.

  Main statement: the nodes that are read from lists have, in order, the spans from the brackets
  that open the lists to those that close them.  The span of a node is around those of its child
  nodes, which come one after the other (`spans_nest`).
-/

-- Matching Brackets

namespace RubyWat.Dump

open Grammar List Token
open Text.Utf8 (encode size)
open String (utf8EncodeChar)

variable {token : Token} {l : Lexeme} {ls more : List Lexeme} {items : List (Item Node)}
variable {bytes : List UInt8} {lo mid hi depth : Nat}

/- Whether a token is an opening bracket or a closing one. -/
def Token.bracket? : Token → Option Bool
  | .openList => some true
  | .closeList => some false
  | _ => none

/- Where the list ends that lexemes are in, inside of a number of other lists at first. -/
def closing? : Nat → List Lexeme → Option Nat
  | _, [] => none
  | depth, l :: ls =>
    match l.token.bracket?, depth with
    | some true, depth => closing? (depth + 1) ls
    | some false, 0 => some l.stop
    | some false, depth + 1 => closing? depth ls
    | none, depth => closing? depth ls

/- The spans from opening brackets to the matching ones, in the order of the opening brackets. -/
def brackets : List Lexeme → List (Option Span)
  | [] => []
  | l :: ls =>
    match l.token.bracket? with
    | some true => (closing? 0 ls).map (⟨l.start, ·⟩) :: brackets ls
    | _ => brackets ls

/- Atoms and tags are no brackets. -/
theorem Grammar.Atom.plain (hAtom : Atom token item) :
    token.bracket? = none ∧ token.isInvalid = false := by
  cases hAtom <;> exact ⟨rfl, rfl⟩

theorem Grammar.Tags.plain (hTag : Tags token tag) :
    token.bracket? = none ∧ token.isInvalid = false := by
  cases hTag <;> exact ⟨rfl, rfl⟩

/- All brackets in a sequence of items match. -/
theorem closing?_items (hItems : Items ls items) (depth : Nat) (more : List Lexeme) :
    closing? depth (ls ++ more) = closing? depth more := by
  induction hItems generalizing depth more with
  | done => rfl
  | atom hAtom _ ih => simp [closing?, hAtom.plain, ih]
  | list hOpen hTag _ hClose _ ihInner ih =>
    simp [closing?, hOpen, hTag.plain, hClose, bracket?.eq_1, bracket?.eq_2, ihInner, ih]

-- Spans In Order

mutual

/- The spans of a node and of all nodes below it, parents first. -/
def Node.spansFrom : Node → List Span
  | ⟨_, items, span⟩ => span :: Node.spansIn items

/- The spans of the nodes in a list. -/
def Node.spansIn : List (Item Node) → List Span
  | [] => []
  | .node n :: items => n.spansFrom ++ Node.spansIn items
  | _ :: items => Node.spansIn items

end

theorem Grammar.Atom.spansIn (hAtom : Atom token item) (items : List (Item Node)) :
    Node.spansIn (item :: items) = Node.spansIn items := by
  cases hAtom <;> rfl

/- The brackets in a sequence of items are those that its nodes are read from. -/
theorem brackets_items (hItems : Items ls items) (hFits : ∀ l ∈ ls, l.stop ≤ Span.maxOffset)
    (hOrder : ∀ l ∈ ls, l.start ≤ l.stop) (more : List Lexeme) :
    brackets (ls ++ more) = (Node.spansIn items).map some ++ brackets more := by
  induction hItems generalizing more with
  | done => rfl
  | atom hAtom _ ih =>
    rw [forall_mem_cons] at hFits hOrder
    simp [brackets, hAtom.plain, hAtom.spansIn, ih hFits.2 hOrder.2]
  | @list first word last inner ls tag children items hOpen hTag hInner hClose _ ihInner ih =>
    simp only [forall_mem_cons, forall_mem_append] at hFits hOrder
    have hFirst : first.start ≤ Span.maxOffset := hOrder.1.trans hFits.1
    have hInner' := ihInner hFits.2.2.1 hOrder.2.2.1
    have hRest := ih hFits.2.2.2.2 hOrder.2.2.2.2
    simp [brackets, closing?, hOpen, hTag.plain, hClose, bracket?.eq_1, bracket?.eq_2, hRest,
      hFirst, closing?_items hInner, hInner', Node.spansIn, Node.spansFrom, Span.ofRange,
      hFits.2.2.2.1]

-- Places Of Lexemes

/- A bracket has its character in the text. -/
structure Lexeme.Shown (bytes : List UInt8) (l : Lexeme) : Prop where
  opens : l.token = .openList → bytes[l.start]? = some 0x28
  closes : l.token = .closeList → bytes[l.stop - 1]? = some 0x29

/- Lexemes that lie one after the other between two offsets of a text. -/
def Laid (bytes : List UInt8) : Nat → List Lexeme → Nat → Prop
  | lo, [], hi => lo ≤ hi
  | lo, l :: ls, hi => lo ≤ l.start ∧ l.start < l.stop ∧ l.Shown bytes ∧ Laid bytes l.stop ls hi

namespace Laid

theorem le (hLaid : Laid bytes lo ls hi) : lo ≤ hi := by
  induction ls generalizing lo with
  | nil => exact hLaid
  | cons l ls ih =>
    have hRest := ih hLaid.2.2.2
    have hStart := hLaid.1
    have hStop := hLaid.2.1
    omega

theorem from_le (hLe : lo ≤ mid) (hLaid : Laid bytes mid ls hi) : Laid bytes lo ls hi := by
  cases ls with
  | nil => exact hLe.trans hLaid
  | cons l ls => exact ⟨hLe.trans hLaid.1, hLaid.2⟩

theorem split (hLaid : Laid bytes lo (ls ++ more) hi) :
    ∃ mid, Laid bytes lo ls mid ∧ Laid bytes mid more hi := by
  induction ls generalizing lo with
  | nil => exact ⟨lo, Nat.le_refl lo, hLaid⟩
  | cons l ls ih =>
    rcases ih hLaid.2.2.2 with ⟨mid, hFirst, hSecond⟩
    exact ⟨mid, ⟨hLaid.1, hLaid.2.1, hLaid.2.2.1, hFirst⟩, hSecond⟩

theorem bounds (hLaid : Laid bytes lo ls hi) : ∀ l ∈ ls, l.start ≤ l.stop ∧ l.stop ≤ hi := by
  induction ls generalizing lo with
  | nil => exact forall_mem_nil _
  | cons l ls ih =>
    exact forall_mem_cons.mpr
      ⟨⟨Nat.le_of_lt hLaid.2.1, le hLaid.2.2.2⟩, ih hLaid.2.2.2⟩

end Laid

/- A bracket is spelled by its character. -/
theorem Token.Spells.bracket (hSpells : Spells lexeme token) :
    (token = .openList → lexeme = ['(']) ∧ (token = .closeList → lexeme = [')']) := by
  cases hSpells with
  | word =>
    unfold ofWord
    split <;> simp
  | _ => simp

/- Scanning lays lexemes out. -/
theorem Token.Lexes.laid (hLexes : Lexes pos cs ls) (front : List UInt8)
    (hFront : front.length = pos) :
    Laid (front ++ cs.flatMap utf8EncodeChar) pos ls (pos + size cs) := by
  induction hLexes generalizing front with
  | done => exact Nat.le_refl _
  | @gap pos c cs ls _ _ ih =>
    have hRest := ih (front ++ utf8EncodeChar c)
      (by rw [length_append, hFront, String.length_utf8EncodeChar])
    rw [append_assoc, ← flatMap_cons, Nat.add_assoc] at hRest
    exact hRest.from_le (Nat.le_add_right _ _)
  | @token pos lexeme rest token ls hLongest _ ih =>
    have hRest := ih (front ++ lexeme.flatMap utf8EncodeChar)
      (by rw [length_append, hFront, Text.Utf8.length_encode])
    rw [append_assoc, ← flatMap_append, Nat.add_assoc, ← Text.Utf8.size_append] at hRest
    have hSpells := hLongest.spells
    rcases hSpells.head with ⟨c, tail, hHead, -⟩
    have hPos := c.utf8Size_pos
    have hSize : 0 < size lexeme := by
      rw [hHead, size]
      omega
    refine ⟨Nat.le_refl _, Nat.lt_add_of_pos_right hSize, ⟨?_, ?_⟩, hRest⟩
    · intro hOpen
      rw [hSpells.bracket.1 hOpen, ← hFront]
      simp [show utf8EncodeChar '(' = [0x28] by decide]
    · intro hClose
      rw [hSpells.bracket.2 hClose, ← hFront]
      simp [show utf8EncodeChar ')' = [0x29] by decide, size,
        show Char.utf8Size ')' = 1 by decide]

-- Nested Spans

/- A node of a tree, which may be its top. -/
inductive Node.Holds : Node → Node → Prop where
  | self (node : Node) : Holds node node
  | part {node part inner : Node} (hPart : part ∈ node.nodes) (hInner : Holds part inner) :
      Holds node inner

/-
  A node whose span starts with an opening bracket, ends with a closing one, and holds the spans
  of its child nodes between them, one after the other.
-/
structure Node.Bracketed (bytes : List UInt8) (n : Node) : Prop where
  opens : bytes[n.span.start]? = some 0x28
  closes : bytes[n.span.stop - 1]? = some 0x29
  nonempty : n.span.start < n.span.stop
  inside : ∀ c ∈ n.nodes, n.span.start < c.span.start ∧ c.span.stop < n.span.stop
  ordered : n.nodes.Pairwise fun a b => a.span.stop ≤ b.span.start

/- The nodes in a sequence of items lie where its lexemes do. -/
theorem Grammar.Items.nested (hItems : Items ls items) (hLaid : Laid bytes lo ls hi)
    (hFits : hi ≤ Span.maxOffset) :
    (∀ c ∈ items.filterMap Item.node?, lo ≤ c.span.start ∧ c.span.stop ≤ hi
        ∧ ∀ n, c.Holds n → n.Bracketed bytes)
      ∧ (items.filterMap Item.node?).Pairwise fun a b => a.span.stop ≤ b.span.start := by
  induction hItems generalizing lo hi with
  | done => exact ⟨forall_mem_nil _, .nil⟩
  | atom hAtom _ ih =>
    rw [filterMap_cons_none hAtom.node?_eq_none]
    refine ih (hLaid.2.2.2.from_le ?_) hFits
    have hStart := hLaid.1
    have hStop := hLaid.2.1
    omega
  | @list first word last inner ls tag children items hOpen hTag _ hClose _ ihInner ih =>
    rcases hLaid with ⟨hLo, hFirst, hShown, hWord, hWordStop, -, hInner⟩
    rcases hInner.split with ⟨mid, hInner, hLast, hLastStop, hShownLast, hRest⟩
    have hLe := hInner.le
    have hEnd := hRest.le
    rcases ihInner hInner (by omega) with ⟨hChildren, hOrdered⟩
    rcases ih hRest hFits with ⟨hMore, hMoreOrdered⟩
    have hSpan : Span.ofRange first.start last.stop = ⟨first.start, last.stop⟩ := by
      rw [Span.ofRange, Nat.min_eq_left (by omega), Nat.min_eq_left (by omega)]
    rw [hSpan, filterMap_cons_some (rfl : Item.node? (.node _) = some _)]
    have hBracketed : Node.Bracketed bytes ⟨tag, children, ⟨first.start, last.stop⟩⟩ := by
      refine ⟨hShown.opens hOpen, hShownLast.closes hClose, ?_, fun c hC => ?_, hOrdered⟩
      · simp only
        omega
      · have hBounds := hChildren c hC
        simp only
        omega
    refine ⟨forall_mem_cons.mpr ⟨⟨hLo, hEnd, fun n hHolds => ?_⟩, fun c hC => ?_⟩, ?_⟩
    · cases hHolds with
      | self => exact hBracketed
      | part hPart hInner => exact (hChildren _ hPart).2.2 n hInner
    · have hBounds := hMore c hC
      exact ⟨by omega, hBounds.2⟩
    · exact pairwise_cons.mpr ⟨fun c hC => (hMore c hC).1, hMoreOrdered⟩

/- What items are read from has no invalid token. -/
theorem Grammar.Items.valid (hItems : Items ls items) : ∀ l ∈ ls, l.token.isInvalid = false := by
  induction hItems with
  | done => exact forall_mem_nil _
  | atom hAtom _ ih => exact forall_mem_cons.mpr ⟨hAtom.plain.2, ih⟩
  | list hOpen hTag _ hClose _ ihInner ih =>
    simp only [forall_mem_cons, forall_mem_append, hOpen, hClose]
    exact ⟨rfl, hTag.plain.2, ihInner, rfl, ih⟩

/-
  The forms of a dump of less than 4 GiB have the spans of the lists that they are read from, as
  the brackets match in the text, and these are nested as the nodes are.  Several forms follow
  one another, and the node around them spans from the first to the last.
-/
theorem spans_nest {text : String} {tree : Node} (hRead : read text = .ok tree)
    (hSize : (encode text).length < UInt32.size) :
    ∃ forms, Reader.wrap forms = tree
      ∧ (Node.spansIn (forms.map .node)).map some = brackets (Token.scan 0 text.toList)
      ∧ (∀ form ∈ forms, ∀ n, form.Holds n → n.Bracketed (encode text))
      ∧ forms.Pairwise (fun a b => a.span.stop ≤ b.span.start)
      ∧ ∀ first between last, forms = first :: (between ++ [last]) →
          tree.items = forms.map .node ∧ tree.span = ⟨first.span.start, last.span.stop⟩ := by
  rcases read_ok_iff.mp hRead with ⟨forms, hRun, hWrap⟩
  have hItems : Items _ _ := Reader.foldlM_ok_iff.mp hRun
  have hLaid := (Token.lexes_iff.mpr ⟨rfl, hItems.valid⟩).laid [] rfl
  rw [nil_append, Nat.zero_add, ← Text.Utf8.length_encode] at hLaid
  have hFits : (encode text).length ≤ Span.maxOffset := Nat.le_of_lt_succ hSize
  have hNodes : ∀ nodes : List Node, (nodes.map Item.node).filterMap Item.node? = nodes := by
    intro nodes
    rw [filterMap_map]
    exact filterMap_some
  rcases hItems.nested hLaid hFits with ⟨hForms, hOrdered⟩
  rw [hNodes] at hForms hOrdered
  have hBrackets := brackets_items hItems (fun l hL => (hLaid.bounds l hL).2.trans hFits)
    (fun l hL => (hLaid.bounds l hL).1) []
  rw [append_nil, brackets, append_nil] at hBrackets
  refine ⟨forms.reverse, hWrap, hBrackets.symm, fun form hForm => (hForms form hForm).2.2, hOrdered,
    fun first between last hEq => ?_⟩
  rw [hEq] at hForms hOrdered hWrap ⊢
  rw [Reader.wrap_several] at hWrap
  have hFirst := ((hForms first mem_cons_self).2.2 _ (.self first)).nonempty
  have hLast := ((hForms last (by simp)).2.2 _ (.self last)).nonempty
  have hApart := (pairwise_cons.mp hOrdered).1 last (by simp)
  subst hWrap
  refine ⟨rfl, ?_⟩
  simp only [Span.merge, Span.mk.injEq]
  omega

/- Two forms, in the first of which a closing bracket is quoted. -/
theorem quotedBracket_nests : let text := "(send (str \")\") (nil)) (self)"
    ∃ tree forms, read text = .ok tree ∧ (encode text).length < UInt32.size
      ∧ Reader.wrap forms = tree
      ∧ (Node.spansIn (forms.map .node)).map some
          = [some ⟨0, 22⟩, some ⟨6, 15⟩, some ⟨16, 21⟩, some ⟨23, 29⟩] := by
  intro text
  have hSome : (read text).toOption.isSome = true := by decide +kernel
  have hSize : (encode text).length < UInt32.size := by decide +kernel
  cases hRead : read text with
  | error => simp [hRead, Except.toOption] at hSome
  | ok tree =>
    rcases spans_nest hRead hSize with ⟨forms, hWrap, hSpans, -⟩
    exact ⟨tree, forms, rfl, hSize, hWrap, hSpans.trans (by decide +kernel)⟩

end RubyWat.Dump
