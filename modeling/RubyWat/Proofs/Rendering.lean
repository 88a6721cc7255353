import RubyWat.Proofs.Forest
import RubyWat.Proofs.Segments

/-
  Code trees as text.

  Key definitions: `Wat.Folds`, `Wat.Opens`, `Wat.unbroken`.

  Main statement: apart from line breaks and indentation, the text of a tree is its instructions
  folded into brackets, and each line opens one instruction, indented by the instructions around
  it (`text_folds`).
-/

-- Folded Form

namespace RubyWat

open Code List

variable {t : Tree} {n c top : NodeId} {above : List NodeId}

namespace Wat

variable {p : Program}

/- Whether a node is written in brackets of its own. -/
def opensBracket (t : Tree) (n : NodeId) : Bool :=
  (t.instr n).form == .instruction

/- The brackets of nodes in a row, without blanks and breaks. -/
inductive Folds (p : Program) (t : Tree) : List NodeId → List Char → Prop where
  | nil : Folds p t [] []
  | structural {n : NodeId} {ns : List NodeId} {inner rest : List Char}
      (hForm : (t.instr n).form = .structural) (hInner : Folds p t (t.children n) inner)
      (hRest : Folds p t ns rest) : Folds p t (n :: ns) (inner ++ rest)
  | instruction {n : NodeId} {ns : List NodeId} {inner rest : List Char}
      (hForm : (t.instr n).form = .instruction) (hInner : Folds p t (t.children n) inner)
      (hRest : Folds p t ns rest) :
      Folds p t (n :: ns) ('(' :: (head p t n).toList ++ inner ++ ')' :: rest)

namespace Folds

variable {ns : List NodeId}

theorem cons (hFirst : Folds p t [n] text) (hRest : Folds p t ns rest) :
    Folds p t (n :: ns) (text ++ rest) := by
  cases hFirst with
  | structural hForm hInner hNil =>
    cases hNil
    rw [append_nil]
    exact .structural hForm hInner hRest
  | instruction hForm hInner hNil =>
    cases hNil
    rw [append_assoc]
    exact .instruction hForm hInner hRest

theorem flatMap (hEach : ∀ n ∈ ns, Folds p t [n] (text n)) : Folds p t ns (ns.flatMap text) := by
  induction ns with
  | nil => exact .nil
  | cons n ns ih =>
    rw [forall_mem_cons] at hEach
    exact hEach.1.cons (ih hEach.2)

end Folds

-- Lines

/- A line without its indentation. -/
def bare (line : List Char) : List Char :=
  line.dropWhile (· == ' ')

/- A text without line breaks and the indentation behind them. -/
def unbroken (text : String) : List Char :=
  (Text.splitAt (· == '\n') text.toList).flatMap bare

/-
  A line that opens a node: two blanks for each level of the start and for each instruction
  around the node, its bracket and its head, and brackets that close here.
-/
def Opens (p : Program) (t : Tree) (top : NodeId) (depth : Nat)
    (line : List Char) (n : NodeId) : Prop :=
  ∃ above closed, t.Way top above n ∧ line
    = replicate (2 * (depth + above.countP (opensBracket t))) ' '
      ++ '(' :: (head p t n).toList ++ replicate closed ')'

theorem bare_append (line : List Char) : bare (line ++ [')']) = bare line ++ [')'] := by
  induction line with
  | nil => rfl
  | cons c line ih =>
    rw [bare, cons_append, dropWhile_cons, bare, dropWhile_cons]
    split
    · exact ih
    · rfl

theorem bare_open (depth : Nat) (text : List Char) :
    bare (replicate depth ' ' ++ '(' :: text) = '(' :: text := by
  induction depth with
  | zero => rfl
  | succ depth ih => exact ih

/- A bracket that closes goes behind the last line. -/
theorem flatMap_appendLast (line : String) (lines : List String) :
    (appendLast ")" (line :: lines)).flatMap (fun line => bare line.toList)
      = (line :: lines).flatMap (fun line => bare line.toList) ++ [')'] := by
  induction lines generalizing line with
  | nil => simp [appendLast, bare_append]
  | cons next lines ih =>
    have hLast : appendLast ")" (line :: next :: lines)
        = line :: appendLast ")" (next :: lines) := rfl
    rw [hLast, flatMap_cons, ih]
    exact (append_assoc _ _ _).symm

theorem opens_appendLast {depth : Nat} {lines : List String} {ns : List NodeId}
    (hOpen : Forall₂ (Opens p t top depth) (lines.map String.toList) ns) :
    Forall₂ (Opens p t top depth) ((appendLast ")" lines).map String.toList) ns := by
  induction lines generalizing ns with
  | nil => exact hOpen
  | cons line lines ih =>
    rcases hOpen with _ | ⟨hLine, hRest⟩
    cases lines with
    | nil =>
      cases hRest
      rcases hLine with ⟨above, closed, hWay, hLine⟩
      refine .cons ⟨above, closed + 1, hWay, ?_⟩ .nil
      rw [String.toList_append, hLine, replicate_succ', ← append_assoc]
      rfl
    | cons next lines => exact .cons hLine (ih hRest)

-- Names

/- The names that the head of an instruction holds. -/
def names (p : Program) : Instr → List String
  | .function m => [p.functionHeader m]
  | .call m => [p.methodName m]
  | .localGet name | .localSet name | .localTee name => [name]
  | .globalGet name | .globalSet name => [name]
  | _ => []

/- Whether a text has no line break. -/
def OneLine (s : String) : Prop :=
  '\n' ∉ s.toList

instance (s : String) : Decidable (OneLine s) :=
  inferInstanceAs (Decidable (¬ _))

theorem OneLine.append (hFirst : OneLine a) (hSecond : OneLine b) : OneLine (a ++ b) := by
  rw [OneLine, String.toList_append, mem_append, not_or]
  exact ⟨hFirst, hSecond⟩

theorem oneLine_nat (n : Nat) : OneLine (toString n) := by
  intro hMem
  rw [Nat.toString_eq_repr, Nat.toList_repr] at hMem
  exact absurd (Nat.isDigit_of_mem_toDigits (by decide) (by decide) hMem) (by decide)

theorem oneLine_int (i : Int) : OneLine (toString i) := by
  cases i with
  | ofNat n => exact oneLine_nat n
  | negSucc n => exact .append (by decide) (oneLine_nat (n + 1))

theorem oneLine_mnemonic (ty : Wasm.MachineType) : OneLine ty.mnemonic := by
  cases ty <;> decide

theorem oneLine_labelName (n : NodeId) : OneLine (labelName t n) := by
  refine .append ?_ (oneLine_nat _)
  split <;> decide

theorem oneLine_resultSuffix (ty : ValueType) : OneLine (resultSuffix ty) := by
  rw [resultSuffix]
  split
  · exact .append (.append (by decide) (oneLine_mnemonic _)) (by decide)
  · decide

theorem oneLine_offsetSuffix (offset : Offset) : OneLine (offsetSuffix p offset) := by
  rw [offsetSuffix]
  split
  · decide
  · exact .append (by decide) (oneLine_nat _)

/- The head of an instruction is one line if its names are. -/
theorem oneLine_head (hNames : ∀ name ∈ names p (t.instr n), OneLine name) :
    OneLine (head p t n) := by
  rw [head]
  cases hInstr : t.instr n with
  | function m | call m => exact .append (by decide) (hNames _ (by simp [names, hInstr]))
  | localGet name | localSet name | localTee name | globalGet name | globalSet name =>
    exact .append (by decide) (hNames _ (by simp [names, hInstr]))
  | const value => exact .append (.append (oneLine_mnemonic _) (by decide)) (oneLine_int _)
  | layout l => exact .append (by decide) (oneLine_nat _)
  | load offset | store stored offset =>
    exact .append (.append (oneLine_mnemonic _) (by decide)) (oneLine_offsetSuffix _)
  | binary op | unary op | compare op operand =>
    exact .append (.append (oneLine_mnemonic _) (by decide)) (by cases op <;> decide)
  | extend signed => exact .append (by decide) (by split <;> decide)
  | cond => exact .append (by decide) (oneLine_resultSuffix _)
  | block | loop =>
    exact .append (.append (by decide) (oneLine_labelName _)) (oneLine_resultSuffix _)
  | br target | brIf target => exact .append (by decide) (oneLine_labelName _)
  | _ =>
    dsimp only
    decide

/- Code without raw text, in which no name has a line break. -/
structure Plain (p : Program) (t : Tree) (top : NodeId) : Prop where
  code : ∀ n, t.Reaches top n → (t.instr n).isText = false
  named : ∀ n, t.Reaches top n → ∀ name ∈ names p (t.instr n), OneLine name

-- Trees As Lines

theorem lines_structural (hForm : (t.instr n).form = .structural) :
    lines p t (fuel + 1) depth n = (t.children n).flatMap (lines p t fuel depth) := by
  rw [lines]
  cases hInstr : t.instr n with
  | root | classBody _ => rfl
  | _ => simp [hInstr, Instr.form] at hForm

section

variable (hCode : (t.instr n).isText = false) (hForm : (t.instr n).form ≠ .structural)
include hCode hForm

theorem lines_instruction (hChildren : ∀ c ∈ t.children n, (t.instr c).isText = false) :
    lines p t (fuel + 1) depth n = appendLast ")" ((indent depth ++ "(" ++ head p t n)
          :: (t.children n).flatMap (lines p t fuel (depth + 1))) := by
  have hLast : ((t.children n).getLast?.any fun c => (t.instr c).isText) = false := by
    rw [Option.any_eq_false]
    exact fun c hLast => by simp [hChildren c (mem_of_getLast? hLast)]
  rw [lines]
  cases hInstr : t.instr n with
  | root | classBody _ => simp [hInstr, Instr.form] at hForm
  | inline _ | comment _ => simp [hInstr, Instr.isText] at hCode
  | _ =>
    rw [closeBracket, hLast]
    rfl

theorem form_of_code : (t.instr n).form = .instruction := by
  cases hInstr : t.instr n <;> simp_all [Instr.isText, Instr.form]

end

theorem forall₂_flatMap {R : List Char → NodeId → Prop} {ns : List NodeId}
    {lines : NodeId → List String} {nodes : NodeId → List NodeId}
    (hEach : ∀ n ∈ ns, Forall₂ R ((lines n).map String.toList) (nodes n)) :
    Forall₂ R ((ns.flatMap lines).map String.toList) (ns.flatMap nodes) := by
  induction ns with
  | nil => exact .nil
  | cons n ns ih =>
    rw [forall_mem_cons] at hEach
    rw [flatMap_cons, map_append, flatMap_cons]
    exact rel_append hEach.1 (ih hEach.2)

/-
  The lines of a node at the end of a way down, by induction on the nodes that are left: what
  they fold to, and what each of them opens.
-/
theorem lines_fold (hForest : t.Forest) (hTop : top.index < t.size) (hPlain : Plain p t top)
    (depth fuel : Nat) (hWay : t.Way top above n) (hFuel : t.size ≤ fuel + above.length) :
    Folds p t [n] ((lines p t fuel (depth + above.countP (opensBracket t)) n).flatMap
        fun line => bare line.toList)
      ∧ Forall₂ (Opens p t top depth)
          ((lines p t fuel (depth + above.countP (opensBracket t)) n).map String.toList)
          ((t.downward fuel n).filter (opensBracket t)) := by
  induction fuel generalizing n above with
  | zero =>
    have hShort := hWay.length_lt (hForest.loopless hTop)
    omega
  | succ fuel ih =>
    have hCode := hPlain.code n hWay.reaches.1
    have hBelow := fun c (hChild : c ∈ t.children n) =>
      ih (hWay.down hChild) (by rw [length_cons]; omega)
    rw [Tree.downward]
    by_cases hForm : (t.instr n).form = .structural
    · have hNot : opensBracket t n = false := by simp [opensBracket, hForm]
      simp only [countP_cons_of_neg (p := opensBracket t) (a := n) (by simp [hNot])] at hBelow
      rw [lines_structural hForm, flatMap_assoc, filter_cons_of_neg (by simp [hNot]),
        filter_flatMap]
      refine ⟨?_, forall₂_flatMap fun c hChild => (hBelow c hChild).2⟩
      have hFolds := Folds.structural hForm (.flatMap fun c hChild => (hBelow c hChild).1) .nil
      rwa [append_nil] at hFolds
    · have hIs : opensBracket t n = true := by simp [opensBracket, form_of_code hCode hForm]
      simp only [countP_cons_of_pos (p := opensBracket t) (a := n) hIs, ← Nat.add_assoc] at hBelow
      rw [lines_instruction hCode hForm fun c hChild =>
          hPlain.code c (.child hWay.reaches.1 hChild),
        filter_cons_of_pos hIs, filter_flatMap, flatMap_appendLast, flatMap_cons,
        flatMap_assoc]
      have hOpen : (indent (depth + above.countP (opensBracket t)) ++ "(" ++ head p t n).toList
          = replicate (2 * (depth + above.countP (opensBracket t))) ' '
            ++ '(' :: (head p t n).toList := by
        simp [indent]
      constructor
      · rw [hOpen, bare_open]
        exact .instruction (form_of_code hCode hForm)
          (.flatMap fun c hChild => (hBelow c hChild).1) .nil
      · refine opens_appendLast (.cons ⟨above, 0, hWay, ?_⟩
          (forall₂_flatMap fun c hChild => (hBelow c hChild).2))
        rw [hOpen, replicate_zero, append_nil]

/- Lines that open nodes have no line breaks. -/
theorem oneLine_of_opens {depth : Nat} {lines : List (List Char)} {ns : List NodeId}
    (hPlain : Plain p t top) (hOpens : Forall₂ (Opens p t top depth) lines ns) :
    ∀ line ∈ lines, '\n' ∉ line := by
  induction hOpens with
  | nil => exact forall_mem_nil _
  | cons hLine _ ih =>
    refine forall_mem_cons.mpr ⟨?_, ih⟩
    rcases hLine with ⟨above, closed, hWay, rfl⟩
    have hHead := oneLine_head (hPlain.named _ hWay.reaches.1)
    simp only [mem_append, mem_cons, mem_replicate, not_or]
    exact ⟨⟨by simp, by decide, hHead⟩, by simp⟩

/-
  The text of code in which no name has a line break.  Without its breaks and indentation it is
  the folded form of the code, and its lines open the instructions of the code, parents first
  and children in order.
-/
theorem text_folds (p : Program) (depth : Nat) (hBuilt : t.Built) (hTop : top.index < t.size)
    (hPlain : Plain p t top) :
    Folds p t [top] (unbroken (treeText p t depth top)) ∧ Forall₂ (Opens p t top depth)
          (Text.splitAt (· == '\n') (treeText p t depth top).toList).dropLast
          ((t.preorder top).filter (opensBracket t))
      ∧ ∀ n, t.Reaches top n → n ∈ t.preorder top := by
  have hForest := hBuilt.forest
  rcases lines_fold hForest hTop hPlain depth t.size .here (Nat.le_add_right _ _) with
    ⟨hFolds, hOpens⟩
  rw [countP_nil, Nat.add_zero] at hFolds hOpens
  have hLines := oneLine_of_opens hPlain hOpens
  rw [forall_mem_map] at hLines
  have hSplit := splitAt_join hLines
  refine ⟨?_, ?_, fun n => (hForest.loopless hTop).mem_preorder.mpr⟩
  · rw [unbroken, treeText, hSplit, flatMap_append, flatMap_map]
    exact (append_nil _).symm ▸ hFolds
  · rw [treeText, hSplit, dropLast_concat]
    exact hOpens

/- A loop inside of a conditional, below the root. -/
def nestedCode : List Edit :=
  [.add ⟨0⟩ (.classBody ⟨0⟩) .none, .add ⟨1⟩ .cond .i32, .add ⟨2⟩ (.localGet "x") .i32,
    .add ⟨2⟩ .thenArm .none, .add ⟨4⟩ .loop .i32, .add ⟨5⟩ (.const (-3)) .i32]

/- Its text at the first level. -/
def nestedText : String :=
  "  (if (result i32)\n    (local.get $x)\n    (then\n      (loop $loop0 (result i32)\n"
    ++ "        (i32.const -3))))\n"

theorem nestedCode_folds : let t := nestedCode.foldl Edit.apply .empty
    t.Built ∧ Plain (.empty 0) t ⟨0⟩ ∧ treeText (.empty 0) t 1 ⟨0⟩ = nestedText
      ∧ Folds (.empty 0) t [⟨0⟩]
          "(if (result i32)(local.get $x)(then(loop $loop0 (result i32)(i32.const -3))))".toList
      := by
  intro t
  have hBuilt : t.Built := by
    simp only [t, nestedCode, foldl_cons, foldl_nil]
    refine .edit (.edit (.edit (.edit (.edit (.edit .empty _ ?_) _ ?_)
      _ ?_) _ ?_) _ ?_) _ ?_ <;> exact Nat.le_of_ble_eq_true rfl
  have hAll : ∀ n ∈ t.preorder ⟨0⟩, (t.instr n).isText = false
      ∧ ∀ name ∈ names (.empty 0) (t.instr n), OneLine name := by
    decide +kernel
  have hLoopless : t.Loopless ⟨0⟩ := hBuilt.forest.loopless (by decide)
  have hPlain : Plain (.empty 0) t ⟨0⟩ :=
    ⟨fun n hReach => (hAll n (hLoopless.mem_preorder.mpr hReach)).1,
      fun n hReach => (hAll n (hLoopless.mem_preorder.mpr hReach)).2⟩
  have hText : treeText (.empty 0) t 1 ⟨0⟩ = nestedText := by decide +kernel
  refine ⟨hBuilt, hPlain, hText, ?_⟩
  have hFolds := (text_folds (.empty 0) 1 hBuilt (by decide) hPlain).1
  rwa [hText] at hFolds

end Wat

end RubyWat
