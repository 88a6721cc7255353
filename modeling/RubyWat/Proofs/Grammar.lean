import RubyWat.Dump.Reader
import RubyWat.Proofs.Lexing

/-
  The grammar of dumps.

  A dump is a sequence of lists.  A list is a bracket, a tag, items and the closing bracket; an
  item is a list or an atom.

  Main statement: a text that can be cut into lexemes is read exactly if its lexemes are a
  sequence of lists, and then it is read as the tree that the grammar gives them
  (`read_iff_assigns`).
-/

-- Productions

namespace RubyWat

open Text List

variable {inner ls : List Dump.Lexeme} {text : String}

namespace Dump

namespace Grammar

/- The tokens that can stand as the tag of a list. -/
inductive Tags : Token → Tag → Prop where
  | word {text : String} : Tags (.word text) (Tag.ofWord text)
  | nil : Tags .nil .nilLit

/- The tokens that are items by themselves, with what they stand for. -/
inductive Atom : Token → Item Node → Prop where
  | nil : Atom .nil .nil
  | symbol {name : String} : Atom (.symbol name) (.symbol name)
  | quotedSymbol {body : List Char} {bytes : List UInt8}
      (hEscapes : Escape.decode? body = some bytes) :
      Atom (.quotedSymbol body) (.symbol (Utf8.decodeLossy bytes))
  | str {body : List Char} {bytes : List UInt8} (hEscapes : Escape.decode? body = some bytes) :
      Atom (.str body) (.str bytes)
  | float {value : Decimal} : Atom (.float value) (.float (Binary64.ofDecimal value))
  | int {value : Int64} : Atom (.int value.toInt) (.int value)

/-
  Sequences of items.  A list is the brackets around its tag and
  its own items, and spans from the one bracket to the other.
-/
inductive Items : List Lexeme → List (Item Node) → Prop where
  | done : Items [] []
  | atom {l : Lexeme} {ls : List Lexeme} {item : Item Node} {items : List (Item Node)}
      (hAtom : Atom l.token item) (hRest : Items ls items) : Items (l :: ls) (item :: items)
  | list {first word last : Lexeme} {inner ls : List Lexeme} {tag : Tag}
      {children items : List (Item Node)} (hOpen : first.token = .openList)
      (hTag : Tags word.token tag) (hInner : Items inner children)
      (hClose : last.token = .closeList) (hRest : Items ls items) :
      Items (first :: word :: (inner ++ last :: ls))
        (.node ⟨tag, children, .ofRange first.start last.stop⟩ :: items)

/- Sequences of lists. -/
def Forms (ls : List Lexeme) (forms : List Node) : Prop :=
  Items ls (forms.map .node)

/-
  The tree of a dump: its form if there is one, and otherwise a sequence of all its forms, which
  spans from the first to the last.
-/
inductive Assigns (ls : List Lexeme) : Node → Prop where
  | single {form : Node} (hForms : Forms ls [form]) : Assigns ls form
  | none (hForms : Forms ls []) : Assigns ls ⟨.begin, [], .generated⟩
  | several {first last : Node} {between : List Node}
      (hForms : Forms ls (first :: (between ++ [last]))) :
      Assigns ls ⟨.begin, (first :: (between ++ [last])).map .node, first.span.merge last.span⟩

-- Items In Order

/- No atom is a node. -/
theorem Atom.node?_eq_none (hAtom : Atom token item) : item.node? = none := by
  cases hAtom <;> rfl

theorem Items.append (hItems : Items ls items)
    (hMore : Items ms more) : Items (ls ++ ms) (items ++ more) := by
  induction hItems with
  | done => exact hMore
  | atom hAtom _ ih => exact .atom hAtom ih
  | list hOpen hTag hInner hClose _ _ ih => simpa using Items.list hOpen hTag hInner hClose ih

theorem Items.eq_nil (hItems : Items ls []) : ls = [] := by
  cases hItems
  rfl

/- One list as an item. -/
theorem Items.single (hOpen : first.token = .openList)
    (hTag : Tags word.token tag) (hInner : Items inner children)
    (hClose : last.token = .closeList) :
    Items (first :: word :: (inner ++ [last]))
      [.node ⟨tag, children, .ofRange first.start last.stop⟩] :=
  .list hOpen hTag hInner hClose .done

end Grammar

-- Atoms And Tags Of The Reader

namespace Reader

open Grammar (Tags Atom Items Forms Assigns)

/- An integer is in range if it is the value of a word. -/
theorem int64?_eq_some_iff : Numeral.int64? n = some value ↔ n = value.toInt := by
  have hMin : Int64.minValue.toInt = -2 ^ 63 := rfl
  have hMax : Int64.maxValue.toInt = 2 ^ 63 - 1 := rfl
  have hLow := value.le_toInt
  have hHigh := value.toInt_lt
  unfold Numeral.int64?
  constructor
  · intro hFits
    split at hFits
    · rename_i hRange
      cases hFits
      exact (Int64.toInt_ofInt_of_le (by omega) (by omega)).symm
    · contradiction
  · rintro rfl
    rw [if_pos ⟨by omega, by omega⟩, Int64.ofInt_toInt]

theorem atom?_ok_iff : atom? token = .ok item ↔ Atom token item := by
  constructor
  · intro hAtom
    unfold atom? at hAtom
    split at hAtom
    · cases hAtom; exact .nil
    · cases hAtom; exact .symbol
    · split at hAtom
      · cases hAtom; exact .quotedSymbol ‹_›
      · contradiction
    · split at hAtom
      · rename_i hFits
        cases hAtom
        rw [int64?_eq_some_iff.mp hFits]
        exact .int
      · contradiction
    · cases hAtom; exact .float
    · split at hAtom
      · cases hAtom; exact .str ‹_›
      · contradiction
    all_goals contradiction
  · intro hAtom
    cases hAtom with
    | nil | symbol | float => rfl
    | quotedSymbol hEscapes | str hEscapes => simp [atom?, hEscapes]
    | int => simp [atom?, int64?_eq_some_iff.mpr rfl]

-- Reading What The Grammar Allows

theorem step_eq_ok_iff : step s l = .ok s' ↔ tokenStep s l = .ok s' := by
  unfold step Except.mapError
  split <;> simp_all

theorem tokenStep_open (hOpen : l.token = .openList) :
    tokenStep s l = .ok (openFrame s l.start) := by
  simp [tokenStep, hOpen]

theorem tokenStep_close (hClose : l.token = .closeList) : tokenStep s l = closeFrame s l.stop := by
  simp [tokenStep, hClose]

theorem tokenStep_tag (hTag : Tags l.token tag) (hExpects : s.expectsTag = true) :
    tokenStep s l = .ok (s.setTag tag) := by
  unfold tokenStep
  generalize l.token = token at hTag
  cases hTag with
  | word => simp [hExpects]
  | nil =>
    have hNil : Tag.ofWord "nil" = .nilLit := by decide
    simp [hExpects, hNil]

theorem tokenStep_atom (hAtom : Atom l.token item) (hExpects : s.expectsTag = false) :
    tokenStep s l = addAtom s item := by
  have hFound := atom?_ok_iff.mpr hAtom
  unfold tokenStep atomStep
  generalize l.token = token at hAtom hFound
  cases hAtom <;> simp [hExpects, hFound, Except.bind]

/- What a step that succeeds has done. -/
theorem tokenStep_cases (hStep : tokenStep s l = .ok s') :
    (l.token = .openList ∧ s' = openFrame s l.start)
      ∨ (l.token = .closeList ∧ closeFrame s l.stop = .ok s')
      ∨ (∃ tag, Tags l.token tag ∧ s.expectsTag = true ∧ s' = s.setTag tag)
      ∨ (∃ item, Atom l.token item ∧ addAtom s item = .ok s') := by
  have hAtom : atomStep s l.token = .ok s' →
        ∃ item, Atom l.token item ∧ addAtom s item = .ok s' := by
    intro hFound
    unfold atomStep at hFound
    cases hItem : atom? l.token with
    | error fault =>
      rw [hItem] at hFound
      contradiction
    | ok item =>
      rw [hItem] at hFound
      exact ⟨item, atom?_ok_iff.mp hItem, hFound⟩
  unfold tokenStep at hStep
  split at hStep
  · rename_i hOpen
    cases hStep
    exact .inl ⟨hOpen, rfl⟩
  · rename_i hClose
    exact .inr (.inl ⟨hClose, hStep⟩)
  · rename_i text hWord
    split at hStep
    · rename_i hExpects
      cases hStep
      exact .inr (.inr (.inl ⟨_, hWord ▸ .word, hExpects, rfl⟩))
    · exact .inr (.inr (.inr (hAtom (hWord ▸ hStep))))
  · rename_i hNil
    split at hStep
    · rename_i hExpects
      cases hStep
      exact .inr (.inr (.inl ⟨.nilLit, hNil ▸ .nil, hExpects, rfl⟩))
    · exact .inr (.inr (.inr (hAtom (hNil ▸ hStep))))
  · exact .inr (.inr (.inr (hAtom hStep)))

theorem foldlM_cons_of_step (hStep : tokenStep s l = .ok s') :
    (l :: ls).foldlM step s = ls.foldlM step s' := by
  rw [foldlM_cons, step_eq_ok_iff.mpr hStep]
  rfl

/-
  What is known of the items in a list is enough to read the
  list: it goes where a finished form belongs.
-/
theorem foldlM_list (hOpen : first.token = .openList) (hTag : Tags word.token tag) (hInner :
      ∀ more, (inner ++ more).foldlM step ⟨⟨first.start, some tag, []⟩ :: s.frames, s.forms⟩
          = more.foldlM step ⟨⟨first.start, some tag, children.reverse⟩ :: s.frames, s.forms⟩)
    (hClose : last.token = .closeList) :
    (first :: word :: (inner ++ last :: ls)).foldlM step s
      = ls.foldlM step (s.addForm ⟨tag, children, .ofRange first.start last.stop⟩) := by
  have hLast : tokenStep ⟨⟨first.start, some tag, children.reverse⟩ :: s.frames, s.forms⟩ last
        = .ok (s.addForm ⟨tag, children, .ofRange first.start last.stop⟩) := by
    rw [tokenStep_close hClose]
    simp [closeFrame]
  rw [foldlM_cons_of_step (tokenStep_open hOpen), foldlM_cons_of_step (tokenStep_tag hTag rfl)]
  exact (hInner (last :: ls)).trans (foldlM_cons_of_step hLast)

/- Items go to the innermost list, if it has its tag. -/
theorem foldlM_items (hItems : Items ls items) (start : Nat) (tag : Tag) (before : List (Item Node))
    (frames : List Frame) (forms : List Node) (more : List Lexeme) :
    (ls ++ more).foldlM step ⟨⟨start, some tag, before⟩ :: frames, forms⟩
      = more.foldlM step ⟨⟨start, some tag, items.reverse ++ before⟩ :: frames, forms⟩ := by
  induction hItems generalizing start tag before frames more with
  | done => rfl
  | @atom l ls item items hAtom _ ih =>
    have hStep : tokenStep ⟨⟨start, some tag, before⟩ :: frames, forms⟩ l
          = .ok ⟨⟨start, some tag, item :: before⟩ :: frames, forms⟩ :=
      tokenStep_atom hAtom rfl
    rw [cons_append, foldlM_cons_of_step hStep, ih]
    simp
  | list hOpen hTag _ hClose _ ihInner ih =>
    simp only [cons_append, append_assoc]
    rw [foldlM_list hOpen hTag (fun more => by simpa using ihInner _ _ [] _ more) hClose]
    simp only [State.addForm]
    rw [ih]
    simp

/- Lists outside of any list are finished forms. -/
theorem foldlM_forms (hForms : Forms ls nodes) (forms : List Node) :
    ls.foldlM step ⟨[], forms⟩ = .ok ⟨[], nodes.reverse ++ forms⟩ := by
  induction nodes generalizing ls forms with
  | nil =>
    rw [Items.eq_nil hForms]
    rfl
  | cons n nodes ih =>
    cases hForms with
    | atom hAtom => exact absurd hAtom.node?_eq_none (by simp [Item.node?])
    | list hOpen hTag hInner hClose hRest =>
      rw [foldlM_list hOpen hTag (fun more => by simpa using foldlM_items hInner _ _ [] _ _ more)
        hClose]
      simp only [State.addForm]
      rw [ih hRest]
      simp

-- The Grammar Of What Is Read

/- The lexeme of the tag that a list has or does not have yet. -/
inductive Tagged : Option Tag → List Lexeme → Prop where
  | missing : Tagged none []
  | found {word : Lexeme} {tag : Tag} (hTag : Tags word.token tag) : Tagged (some tag) [word]

/-
  The lexemes that a state has used up: the finished forms, and for each open list, outermost
  first, its bracket, its tag and its items.  A list without a tag may have items already.
-/
inductive Consumed (forms : List Node) : List Frame → List Lexeme → Prop where
  | top {ls : List Lexeme} (hForms : Forms ls forms.reverse) : Consumed forms [] ls
  | frame {tag : Option Tag} {items : List (Item Node)} {frames : List Frame} {first : Lexeme}
      {ls word inner : List Lexeme} (hRest : Consumed forms frames ls)
      (hOpen : first.token = .openList) (hTag : Tagged tag word)
      (hInner : Items inner items.reverse) :
      Consumed forms (⟨first.start, tag, items⟩ :: frames) (ls ++ first :: (word ++ inner))

/- A finished list is used up like an item or a form. -/
theorem Consumed.addForm (hUsed : Consumed forms frames used) (hForm : Items ls [.node n]) :
    let s := State.addForm ⟨frames, forms⟩ n
    Consumed s.forms s.frames (used ++ ls) := by
  cases hUsed with
  | top hForms =>
    refine .top ?_
    have hAll := Items.append hForms hForm
    simpa [State.addForm, Forms] using hAll
  | @frame tag items _ _ _ _ inner hRest hOpen hTag hInner =>
    have hAll : Items (inner ++ ls) (Item.node n :: items).reverse := by
      simpa using hInner.append hForm
    simpa [State.addForm] using Consumed.frame hRest hOpen hTag hAll

/- What a step uses up is the lexeme that it handles. -/
theorem Consumed.step (hUsed : Consumed s.forms s.frames used) (hStep : tokenStep s l = .ok s') :
    Consumed s'.forms s'.frames (used ++ [l]) := by
  rcases s with ⟨frames, forms⟩
  rcases tokenStep_cases hStep with ⟨hOpen, rfl⟩ | ⟨hClose, hStep⟩ | ⟨tag, hWord, hExpects, rfl⟩
      | ⟨item, hAtom, hStep⟩
  · exact .frame hUsed hOpen .missing .done
  · cases hUsed with
    | top => contradiction
    | frame hRest hOpen hTag hInner =>
      cases hTag with
      | missing => contradiction
      | found hTag =>
        cases hStep
        have hForm := Items.single hOpen hTag hInner hClose
        simpa using hRest.addForm hForm
  · cases hUsed with
    | top => contradiction
    | @frame old items _ _ _ _ _ hRest hOpen hTag hInner =>
      -- A list that expects its tag has neither a tag nor items.
      simp only [State.expectsTag, Bool.and_eq_true,
        Option.isNone_iff_eq_none, List.isEmpty_iff] at hExpects
      rcases hExpects with ⟨rfl, rfl⟩
      cases hTag
      rw [Items.eq_nil hInner]
      simpa [State.setTag] using Consumed.frame hRest hOpen (.found hWord) .done
  · cases hUsed with
    | top => contradiction
    | @frame tag items _ _ _ _ inner hRest hOpen hTag hInner =>
      have hAll : Items (inner ++ [l]) (item :: items).reverse := by
        simpa using hInner.append (.atom hAtom .done)
      cases hTag with
      | missing => contradiction
      | found hTag =>
        cases hStep
        simpa using Consumed.frame hRest hOpen (.found hTag) hAll

/- What a run uses up is the lexemes that it handles. -/
theorem Consumed.foldlM (hUsed : Consumed s.forms s.frames used)
    (hRun : ls.foldlM Reader.step s = .ok s') : Consumed s'.forms s'.frames (used ++ ls) := by
  induction ls generalizing s used with
  | nil =>
    cases hRun
    simpa using hUsed
  | cons l ls ih =>
    rw [foldlM_cons] at hRun
    cases hStep : Reader.step s l with
    | error => rw [hStep] at hRun; contradiction
    | ok next =>
      rw [hStep] at hRun
      have hNext := hUsed.step (step_eq_ok_iff.mp hStep)
      simpa using ih hNext hRun

/- The forms of a run that leaves no list open. -/
theorem foldlM_ok_iff : ls.foldlM step {} = .ok ⟨[], forms⟩ ↔ Forms ls forms.reverse := by
  constructor
  · intro hRun
    have hStart : Consumed [] [] [] := .top Items.done
    have hUsed := hStart.foldlM hRun
    cases hUsed with
    | top hForms => exact hForms
  · intro hForms
    simpa using foldlM_forms hForms []

/- Several forms span from the first to the last. -/
theorem wrap_several (first last : Node) (between : List Node) :
    wrap (first :: (between ++ [last])) = ⟨.begin, (first :: (between ++ [last])).map .node,
          first.span.merge last.span⟩ := by
  cases between with
  | nil => rfl
  | cons n between =>
    rw [cons_append, wrap, ← cons_append, getLast?_concat]
    · rfl
    · simp

/- Forms are wrapped as the grammar says. -/
theorem assigns_iff : Assigns ls tree ↔ ∃ forms, Forms ls forms ∧ wrap forms = tree := by
  constructor
  · intro hAssigns
    cases hAssigns with
    | single hForms | none hForms => exact ⟨_, hForms, rfl⟩
    | several hForms => exact ⟨_, hForms, wrap_several _ _ _⟩
  · rintro ⟨forms, hForms, rfl⟩
    rcases forms with _ | ⟨first, rest⟩
    · exact .none hForms
    rcases eq_nil_or_concat rest with rfl | ⟨between, last, rfl⟩
    · exact .single hForms
    · rw [concat_eq_append] at hForms ⊢
      rw [wrap_several]
      exact .several hForms

end Reader

-- Whole Dumps

/- Reading is scanning, then handling the lexemes. -/
theorem read_ok_iff : read text = .ok tree ↔ ∃ forms,
          (Token.scan 0 text.toList).foldlM Reader.step {} = .ok ⟨[], forms⟩
            ∧ Reader.wrap forms.reverse = tree := by
  unfold read
  cases hRun : (Token.scan 0 text.toList).foldlM Reader.step {} with
  | error error =>
    refine ⟨?_, ?_⟩
    · intro hRead
      contradiction
    · rintro ⟨forms, hRun, -⟩
      contradiction
  | ok s =>
    rcases s with ⟨_ | ⟨frame, frames⟩, forms⟩
    · change Except.ok _ = Except.ok tree ↔ _
      simp
    refine ⟨?_, ?_⟩
    · intro hRead
      contradiction
    · rintro ⟨forms, hRun, -⟩
      simp at hRun

/-
  A text that can be cut into lexemes is read exactly if they
  are a sequence of lists, and as the tree of this sequence.
-/
theorem read_iff_assigns {text : String} {ls : List Lexeme}
    (hLexes : Token.Lexes 0 text.toList ls) :
    ((∃ tree, read text = .ok tree) ↔ ∃ forms, Grammar.Forms ls forms)
      ∧ ∀ tree, read text = .ok tree ↔ Grammar.Assigns ls tree := by
  have hRead : ∀ tree, read text = .ok tree
        ↔ ∃ forms, Grammar.Forms ls forms ∧ Reader.wrap forms = tree := by
    intro tree
    rw [read_ok_iff, (Token.lexes_iff.mp hLexes).1]
    constructor
    · rintro ⟨forms, hRun, hWrap⟩
      exact ⟨forms.reverse, Reader.foldlM_ok_iff.mp hRun, hWrap⟩
    · rintro ⟨forms, hForms, hWrap⟩
      refine ⟨forms.reverse, Reader.foldlM_ok_iff.mpr ?_, ?_⟩ <;> rwa [reverse_reverse]
  constructor
  · constructor
    · rintro ⟨tree, hTree⟩
      rcases (hRead tree).mp hTree with ⟨forms, hForms, -⟩
      exact ⟨forms, hForms⟩
    · rintro ⟨forms, hForms⟩
      exact ⟨_, (hRead _).mpr ⟨forms, hForms, rfl⟩⟩
  · intro tree
    rw [hRead, Reader.assigns_iff]

/- Whether scanning a text finds no invalid token. -/
def scansWell (text : String) : Bool :=
  (Token.scan 0 text.toList).all (!·.token.isInvalid)

theorem lexes_of_scansWell (hWell : scansWell text = true) :
    Token.Lexes 0 text.toList (Token.scan 0 text.toList) := by
  refine Token.lexes_iff.mpr ⟨rfl, ?_⟩
  simpa [scansWell] using hWell

/-
  Two forms, one of them tagged `nil`, are read; a list whose
  tag comes after an item is not, though its tokens are valid.
-/
theorem lateTag_not_read : let good := "(send nil :\"a\\\"b\" (int -2)) (nil)"
    let late := "(send ((int 1) foo))"
    Token.Lexes 0 good.toList (Token.scan 0 good.toList)
      ∧ (∃ forms, Grammar.Forms (Token.scan 0 good.toList) forms)
      ∧ Token.Lexes 0 late.toList (Token.scan 0 late.toList)
      ∧ ¬ ∃ forms, Grammar.Forms (Token.scan 0 late.toList) forms := by
  intro good late
  have hGood : Token.Lexes 0 good.toList (Token.scan 0 good.toList) :=
    lexes_of_scansWell (by decide +kernel)
  have hLate : Token.Lexes 0 late.toList (Token.scan 0 late.toList) :=
    lexes_of_scansWell (by decide +kernel)
  have hRead : (read good).toOption.isSome = true := by decide +kernel
  have hRefused : (read late).toOption.isSome = false := by decide +kernel
  refine ⟨hGood, (read_iff_assigns hGood).1.mp ?_, hLate, ?_⟩
  · cases hTree : read good with
    | ok tree => exact ⟨tree, rfl⟩
    | error => simp [hTree, Except.toOption] at hRead
  · rw [← (read_iff_assigns hLate).1]
    rintro ⟨tree, hTree⟩
    simp [hTree, Except.toOption] at hRefused

end Dump

end RubyWat
