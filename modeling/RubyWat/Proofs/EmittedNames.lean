import RubyWat.Proofs.ClosedModule
import RubyWat.Proofs.Segments

/-
  Names in the text of a module.

  Key definitions: `Context.printedMethods`, `Context.exportNames`, `Context.Readable`.

  Main statement: in a program that compiles no two globals have one name, no two exports have
  one name unless one of them has that of the memory, and no two functions have one name if
  their names can be read back (`emitted_names_apart`).  Names that hold no character that ends
  them are those that stand in the text (`exportNames_read`, `functions_read`).
-/

-- Names Of Functions

namespace RubyWat

open List Compilation

/- A character that does not separate a class from a method. -/
def isPlainChar (ch : Char) : Bool :=
  ch != ':' && ch != '#'

/- A name without a character that separates. -/
def isPlainName (name : String) : Bool :=
  name.toList.all isPlainChar

theorem isPlainName_mangle (hPlain : isPlainName name = true) :
    isPlainName (mangle name) = true := by
  unfold mangle
  split
  · decide
  · decide
  rw [isPlainName, String.toList_ofList, all_map]
  refine all_eq_true.mpr fun ch hMem => ?_
  have hCh := all_eq_true.mp hPlain ch hMem
  simp only [Function.comp_apply]
  split
  · rfl
  · exact hCh

/- The last separator of a name ends the class and the scope. -/
theorem methodName_parts {a b x y : String} {s t : MethodScope} (hX : isPlainName x = true)
    (hY : isPlainName y = true) (hEq : a ++ s.separator ++ x = b ++ t.separator ++ y) :
    a = b ∧ s = t ∧ x = y := by
  have hAll : ∀ {z : String}, isPlainName z = true →
        ∀ ch ∈ z.toList.reverse, isPlainChar ch = true :=
    fun hZ ch hMem => all_eq_true.mp hZ ch (mem_reverse.mp hMem)
  have hBack := congrArg (fun w => w.toList.reverse) hEq
  simp only [String.toList_append, reverse_append] at hBack
  have hName := congrArg (takeWhile isPlainChar) hBack
  have hRest := congrArg (dropWhile isPlainChar) hBack
  rw [takeWhile_append_of_pos (hAll hX), takeWhile_append_of_pos (hAll hY)] at hName
  rw [dropWhile_append_of_pos (hAll hX), dropWhile_append_of_pos (hAll hY)] at hRest
  cases s <;> cases t <;> simp_all [MethodScope.separator, isPlainChar, String.toList_inj]

-- Printed Names

namespace Context

/- The methods whose functions a module imports or has. -/
def printedMethods (ctx : Context) : List MethodId :=
  (ctx.program.methodIds.filter fun m =>
      (ctx.program.importLine? m).isSome)
    ++ ctx.tree.functions

def globalNames (ctx : Context) : List String :=
  (ctx.program.globals.toList.filter (·.line?.isSome)).map (·.name)

/- The names that a module exports something under. -/
def exportNames (ctx : Context) : List String :=
  (if ctx.options.exportMemory then ["memory"] else []) ++ ctx.program.exports.map (·.name)

/-
  Methods whose names do not look like paths of classes, and of
  which one class has no two that are printed alike.
-/
def Readable (ctx : Context) : Prop :=
  (∀ m ∈ ctx.printedMethods, isPlainName (ctx.program.method m).name = true)
    ∧ ∀ a ∈ ctx.printedMethods, ∀ b ∈ ctx.printedMethods,
      (ctx.program.method a).owner = (ctx.program.method b).owner →
      (ctx.program.method a).scope = (ctx.program.method b).scope →
      mangle (ctx.program.method a).name = mangle (ctx.program.method b).name →
      (ctx.program.method a).name = (ctx.program.method b).name

instance (ctx : Context) : Decidable ctx.Readable :=
  inferInstanceAs (Decidable (_ ∧ _))

variable {ctx : Context}

theorem imported_of_importLine? (hLine : (ctx.program.importLine? m).isSome = true) :
    (ctx.program.method m).flags.imported = true := by
  unfold Program.importLine? at hLine
  dsimp only at hLine
  split at hLine
  · assumption
  · cases hLine

/- Printed methods belong to classes. -/
theorem owned_of_printed (hRooted : Rooted ctx) (hClosed : ctx.Closed)
    (hMem : m ∈ ctx.printedMethods) : ctx.program.Owned m := by
  refine (hRooted.inOrder m).owned ?_
  rcases mem_append.mp hMem with hImport | hFunction
  · exact .inr (imported_of_importLine? (mem_filter.mp hImport).2)
  · exact .inl ((hRooted.inOrder m).complete (by simp) ((hClosed.once.2 m).mp hFunction))

/- A method is printed once. -/
theorem printedMethods_nodup (hClosed : ctx.Closed) : ctx.printedMethods.Nodup := by
  refine nodup_append.mpr ⟨?_, hClosed.once.1, ?_⟩
  · refine Nodup.filter _ (nodup_range.map ?_)
    exact fun _ _ hEq => congrArg MethodId.index hEq
  · rintro m hImport _ hFunction rfl
    exact hClosed.apart m ⟨(hClosed.once.2 m).mp hFunction,
      imported_of_importLine? (mem_filter.mp hImport).2⟩

/- Readable names are those of different functions. -/
theorem functionNames_nodup (hRooted : Rooted ctx) (hClosed : ctx.Closed)
    (hReadable : ctx.Readable) : (ctx.printedMethods.map ctx.program.methodName).Nodup := by
  refine Nodup.map_on ?_ (printedMethods_nodup hClosed)
  intro a hA b hB hEq
  rcases methodName_parts (isPlainName_mangle (hReadable.1 a hA))
    (isPlainName_mangle (hReadable.1 b hB)) hEq with
    ⟨hPath, hScope, hName⟩
  have hOwnedA := owned_of_printed hRooted hClosed hA
  have hOwnedB := owned_of_printed hRooted hClosed hB
  have hIndexed := hRooted.regular.indexed
  have hOwner := hIndexed.class_eq hOwnedA.2 hOwnedB.2 hPath
  refine hIndexed.method_eq hOwnedA.1 hOwnedB.1 ?_
  rw [Method.key, hOwner, hScope, hReadable.2 a hA b hB hOwner hScope hName, Method.key]

end Context

-- Names In The Text

namespace Wat

/- The name that a line declares behind some words, up to a character that ends it. -/
def declared? (words : String) (ends : Char → Bool) (line : String) : Option String :=
  (line.toList.dropPrefix? words.toList).map fun rest =>
    String.ofList (rest.takeWhile fun ch => !ends ch)

/- What a line exports. -/
def exported? : String → Option String :=
  declared? "  (export \"" (· == '"')

/- The global that a line declares. -/
def global? : String → Option String :=
  declared? "  (global $" (· == ' ')

theorem declared?_of_line {ends : Char → Bool}
    (hLine : ∃ rest, line.toList = words.toList ++ (name.toList ++ rest) ∧ rest.head?.all ends)
    (hName : ∀ ch ∈ name.toList, ends ch = false) : declared? words ends line = some name := by
  rcases hLine with ⟨rest, hLine, hRest⟩
  have hEnd : rest.takeWhile (fun ch => !ends ch) = [] := by
    cases rest with
    | nil => rfl
    | cons ch rest => exact takeWhile_cons_of_neg (by simpa using hRest)
  rw [declared?, hLine, dropPrefix?_append, Option.map_some,
    takeWhile_append_of_pos (by simpa using hName), hEnd, append_nil, String.ofList_toList]

end Wat

namespace Context

open Wat

variable {ctx : Context}

/- Exports and globals stand in lines of their own. -/
theorem filterMap_headLines (read : String → Option String) (hModule : read "(module" = none)
    (hImport : ∀ m line, ctx.program.importLine? m = some line → read line = none)
    (hMemory : ∀ pages, read ("  (memory $0 " ++ pages ++ ")") = none)
    (hData : ∀ e : DataEntry, read e.line = none) :
    ctx.headLines.filterMap read
      = (if ctx.options.exportMemory then ["  (export \"memory\" (memory $0))"] else []).filterMap
            read
          ++ (ctx.program.exports.map ctx.program.exportLine).filterMap read
          ++ (ctx.program.globals.toList.filterMap Global.line?).filterMap read := by
  have hImports :
      (ctx.program.methodIds.filterMap ctx.program.importLine?).filterMap read = [] := by
    refine filterMap_eq_nil_iff.mpr fun line hMem => ?_
    rcases mem_filterMap.mp hMem with ⟨m, _, hLine⟩
    exact hImport m line hLine
  have hEntries : (ctx.program.data.byAddress.map DataEntry.line).filterMap read = [] := by
    rw [filterMap_map]
    exact filterMap_eq_nil_iff.mpr fun e _ => hData e
  simp only [headLines, filterMap_append, filterMap_cons, filterMap_nil, hModule, hImports,
    hMemory, hEntries, nil_append, append_nil]

theorem importLine_names (hLine : ctx.program.importLine? m = some line) :
    exported? line = none ∧ global? line = none := by
  simp only [Program.importLine?] at hLine
  split at hLine
  · rw [← Option.some.inj hLine]
    simp only [exported?, global?, declared?, String.toList_append, append_assoc]
    exact ⟨rfl, rfl⟩
  · cases hLine

/- What a module exports is read from its text, as long as no name ends a string. -/
theorem exportNames_read
    (hQuote : ∀ name ∈ ctx.exportNames, ∀ ch ∈ name.toList, (ch == '"') = false) :
    ctx.headLines.filterMap exported? = ctx.exportNames := by
  have hExports : (ctx.program.exports.map ctx.program.exportLine).filterMap
      exported? = ctx.program.exports.map (·.name) := by
    rw [filterMap_map, ← filterMap_eq_map]
    refine filterMap_congr fun e hMem => declared?_of_line ?_
      (hQuote e.name (mem_append_right _ (mem_map_of_mem hMem)))
    simp only [Program.exportLine, String.toList_append, append_assoc]
    exact ⟨_, rfl, rfl⟩
  have hGlobals : (ctx.program.globals.toList.filterMap Global.line?).filterMap
      exported? = [] := by
    refine filterMap_eq_nil_iff.mpr fun line hMem => ?_
    rcases mem_filterMap.mp hMem with ⟨g, _, hLine⟩
    rcases Option.map_eq_some_iff.mp hLine with ⟨held, _, rfl⟩
    simp only [exported?, declared?, String.toList_append, append_assoc]
    rfl
  rw [filterMap_headLines _ rfl (fun _ _ hLine => (importLine_names hLine).1) (fun _ => ?_)
    fun e => ?_, hExports, hGlobals, append_nil, exportNames]
  · congr 1
    split
    · rfl
    · rfl
  · simp only [exported?, declared?, String.toList_append, append_assoc]
    rfl
  · rw [exported?, declared?, toList_line]
    rfl

theorem global?_line {g : Global} (hLine : g.line? = some line)
    (hName : ∀ ch ∈ g.name.toList, (ch == ' ') = false) : global? line = some g.name := by
  rcases Option.map_eq_some_iff.mp hLine with ⟨held, _, rfl⟩
  refine declared?_of_line ?_ hName
  simp only [String.toList_append, append_assoc]
  exact ⟨_, rfl, rfl⟩

/- So is which globals it has, as long as no name has a blank. -/
theorem globalNames_read
    (hBlank : ∀ name ∈ ctx.globalNames, ∀ ch ∈ name.toList, (ch == ' ') = false) :
    ctx.headLines.filterMap global? = ctx.globalNames := by
  have hMemory : (if ctx.options.exportMemory then ["  (export \"memory\" (memory $0))"]
      else []).filterMap global? = [] := by
    split
    · rfl
    · rfl
  have hExports : (ctx.program.exports.map ctx.program.exportLine).filterMap
      global? = [] := by
    rw [filterMap_map]
    refine filterMap_eq_nil_iff.mpr fun e _ => ?_
    simp only [Function.comp_apply, Program.exportLine, global?, declared?,
      String.toList_append, append_assoc]
    rfl
  have hGlobals : ∀ gs : List Global,
      (∀ name ∈ (gs.filter (·.line?.isSome)).map (·.name),
        ∀ ch ∈ name.toList, (ch == ' ') = false) →
      (gs.filterMap Global.line?).filterMap global?
        = (gs.filter (·.line?.isSome)).map (·.name) := by
    intro gs hNames
    induction gs with
    | nil => rfl
    | cons g gs ih =>
      cases hLine : g.line? with
      | none =>
        rw [filterMap_cons_none hLine, filter_cons_of_neg (by simp [hLine])] at *
        exact ih hNames
      | some line =>
        rw [filterMap_cons_some hLine, filter_cons_of_pos (by simp [hLine]), map_cons] at *
        rw [forall_mem_cons] at hNames
        rw [filterMap_cons_some (global?_line hLine hNames.1), ih hNames.2]
  rw [filterMap_headLines _ rfl (fun _ _ hLine => (importLine_names hLine).2) (fun _ => ?_)
    fun e => ?_, hMemory, hExports, hGlobals _ hBlank]
  · rfl
  · simp only [global?, declared?, String.toList_append, append_assoc]
    rfl
  · rw [global?, declared?, toList_line]
    rfl

end Context

-- Names Of Functions In The Text

namespace Wat

open Code

/- What a name in front of other words or a bracket ends at. -/
def endsName (ch : Char) : Bool :=
  ch == ' ' || ch == ')'

/- The method whose function a line opens. -/
def function? : String → Option String :=
  declared? "  (func $" endsName

/- A line of code inside of a function. -/
def IsDeep (line : String) : Prop :=
  ∃ rest, line.toList = ' ' :: ' ' :: ' ' :: rest

theorem IsDeep.append (hDeep : IsDeep line) (text : String) : IsDeep (line ++ text) := by
  rcases hDeep with ⟨rest, hLine⟩
  exact ⟨rest ++ text.toList, by rw [String.toList_append, hLine]; rfl⟩

theorem isDeep_indent (hDepth : 2 ≤ depth) : IsDeep (indent depth) := by
  rcases Nat.exists_eq_add_of_le hDepth with ⟨k, rfl⟩
  refine ⟨replicate (2 * k + 1) ' ', ?_⟩
  rw [indent, String.toList_ofList, show 2 * (2 + k) = 2 * k + 1 + 3 by omega]
  rfl

theorem isDeep_lines (fuel : Nat) (hDepth : 2 ≤ depth) :
    ∀ line ∈ lines p t fuel depth n, IsDeep line := by
  induction fuel generalizing depth n with
  | zero => simp [lines]
  | succ fuel ih =>
    have hBelow : ∀ deeper, 2 ≤ deeper → ∀ line ∈ (t.children n).flatMap (lines p t fuel deeper),
        IsDeep line := by
      intro deeper hDeeper line hMem
      rcases mem_flatMap.mp hMem with ⟨c, _, hLine⟩
      exact ih hDeeper line hLine
    have hOpened : ∀ line ∈ (indent depth ++ "(" ++ head p t n)
        :: (t.children n).flatMap (lines p t fuel (depth + 1)), IsDeep line :=
      forall_mem_cons.mpr ⟨((isDeep_indent hDepth).append _).append _, hBelow _ (by omega)⟩
    intro line hMem
    unfold lines at hMem
    split at hMem
    · exact hBelow depth hDepth line hMem
    · exact hBelow depth hDepth line hMem
    · rcases mem_map.mp hMem with ⟨text, _, rfl⟩
      exact (isDeep_indent hDepth).append _
    · rw [mem_singleton.mp hMem]
      exact ((isDeep_indent hDepth).append _).append _
    · rcases mem_closeBracket hMem with hMem | ⟨last, hLast, rfl⟩ | rfl
      · exact hOpened line hMem
      · exact (hOpened last hLast).append _
      · exact (isDeep_indent hDepth).append _

/- What follows the name of a function is set off by a blank or closes the bracket. -/
theorem head?_header (m : Method) (hEnd : closing.head?.all endsName) :
    (m.signature.toList ++ (m.localDeclarations.toList ++ closing)).head?.all endsName := by
  have hDeclarations : ∀ (slots : List Slot) (keyword : String) (rest : List Char),
      rest.head?.all endsName →
        ((String.join (slots.map (·.declaration keyword))).toList ++ rest).head?.all endsName := by
    intro slots keyword rest hRest
    cases slots with
    | nil => simpa using hRest
    | cons slot slots => simp [Slot.declaration, endsName]
  rw [Method.signature, Method.localDeclarations, String.toList_append, append_assoc]
  refine hDeclarations _ _ _ ?_
  split
  · exact hDeclarations m.locals "local" closing hEnd
  · simp [endsName]

theorem declared?_of_isDeep (hDeep : IsDeep line) : function? line = none := by
  rcases hDeep with ⟨rest, hLine⟩
  rw [function?, declared?, hLine]
  rfl

/- A function is opened by the line that declares it. -/
theorem filterMap_closeBracket (hFirst : ∀ tail ∈ ["", ")"],
      function? (first ++ tail) = some name)
    (hRest : ∀ line ∈ rest, IsDeep line) (children : List NodeId) :
    (closeBracket t 1 children (first :: rest)).filterMap function? = [name] := by
  have hNone : ∀ {more : List String}, (∀ line ∈ more, IsDeep line) →
      more.filterMap function? = [] :=
    fun hMore => filterMap_eq_nil_iff.mpr fun line hMem => declared?_of_isDeep (hMore line hMem)
  have hOpen : function? first = some name := by
    simpa using hFirst "" (.head _)
  rw [closeBracket]
  split
  · rw [filterMap_append, filterMap_cons_some hOpen, hNone hRest]
    rfl
  · cases rest with
    | nil => exact filterMap_cons_some (hFirst ")" (.tail _ (.head _)))
    | cons next rest =>
      rw [appendLast, filterMap_cons_some hOpen, hNone]
      · intro line hMem
        rcases mem_appendLast hMem with hMem | ⟨last, hLast, rfl⟩
        · exact hRest line hMem
        · exact (hRest last hLast).append _
      · simp

end Wat

namespace Code

/- No function is inside of another one. -/
theorem Defined.none_below (hDefined : Defined t m f) (hChild : c ∈ t.children f.id)
    (hMem : n ∈ t.downward fuel c) : (t.instr n).defined? = none := by
  rw [hDefined.held.children] at hChild
  rcases mem_map.mp hChild with ⟨g, hG, rfl⟩
  have hHeld := hDefined.held.child hG
  rcases hHeld.within_of_reaches (.of_mem_downward hMem) with ⟨g', hWithin, rfl⟩
  have hNeat : Neat g' := by
    clear hMem
    induction hWithin with
    | self => exact hDefined.coded.neat.neat g hG
    | child _ hChild ih => exact ih.child hChild
  have hInner := hNeat.isOuter_eq_false (hWithin.held hHeld) g'.id_mem_ids
  rw [Option.eq_none_iff_forall_ne_some]
  intro k hSome
  rw [Instr.defined?_eq_some_iff.mp hSome] at hInner
  cases hInner

end Code

/- The functions in the text are those in the tree, in the same order. -/
theorem Code.Arranged.functions_read (hArranged : Arranged t n) (fuel : Nat)
    (hNames : ∀ k ∈ t.downward fuel n, ∀ m, t.instr k = .function m →
      ∀ ch ∈ (p.methodName m).toList, Wat.endsName ch = false) :
    (Wat.lines p t fuel 1 n).filterMap Wat.function?
      = ((t.downward fuel n).filterMap fun k => (t.instr k).defined?).map p.methodName := by
  induction fuel generalizing n with
  | zero => rfl
  | succ fuel ih =>
    have hBelow : ∀ c ∈ t.children n, ∀ k ∈ t.downward fuel c, k ∈ t.downward (fuel + 1) n :=
      fun c hChild k hMem => .tail _ (mem_flatMap.mpr ⟨c, hChild, hMem⟩)
    cases hArranged with
    | group _ hGroup hChildren =>
      have hLines : Wat.lines p t (fuel + 1) 1 n
          = (t.children n).flatMap (Wat.lines p t fuel 1) := by
        rw [Wat.lines]
        cases hInstr : t.instr n with
        | root | classBody => rfl
        | _ =>
          rw [hInstr] at hGroup
          cases hGroup
      have hNone : (t.instr n).defined? = none := by
        rw [Option.eq_none_iff_forall_ne_some]
        intro m hSome
        rw [Instr.defined?_eq_some_iff.mp hSome] at hGroup
        cases hGroup
      rw [hLines, Tree.downward, filterMap_cons, hNone, filterMap_flatMap, filterMap_flatMap,
        map_flatMap]
      refine flatMap_congr fun c hChild => ih (hChildren c hChild) fun k hMem => ?_
      exact hNames k (hBelow c hChild k hMem)
    | @function m f hDefined =>
      have hInstr : t.instr f.id = .function m := by rw [hDefined.held.instr, hDefined.instr]
      have hInside : ((t.children f.id).flatMap (t.downward fuel)).filterMap
          (fun k => (t.instr k).defined?) = [] := by
        refine filterMap_eq_nil_iff.mpr fun k hMem => ?_
        rcases mem_flatMap.mp hMem with ⟨c, hChild, hMem⟩
        exact hDefined.none_below hChild hMem
      rw [Tree.downward, filterMap_cons, hInstr, hInside]
      unfold Wat.lines
      rw [hInstr]
      refine Wat.filterMap_closeBracket (fun tail hTail => ?_) (fun line hMem => ?_) _
      · refine Wat.declared?_of_line ?_ (hNames f.id (.head _) m hInstr)
        refine ⟨(p.method m).signature.toList
          ++ ((p.method m).localDeclarations.toList ++ tail.toList), ?_, ?_⟩
        · simp only [Wat.head, hInstr, Program.functionHeader, String.toList_append, append_assoc]
          rfl
        · refine Wat.head?_header _ ?_
          rcases mem_cons.mp hTail with rfl | hTail
          · rfl
          · rw [mem_singleton.mp hTail]
            rfl
      · rcases mem_flatMap.mp hMem with ⟨c, _, hLine⟩
        exact Wat.isDeep_lines fuel (by decide) line hLine

/- The functions that a module has are read from its text. -/
theorem Context.functions_read {ctx : Context} (hArranged : Code.Arranged ctx.tree Code.Tree.root)
    (hNames : ∀ m ∈ ctx.tree.functions, ∀ ch ∈ (ctx.program.methodName m).toList,
      Wat.endsName ch = false) :
    (Wat.lines ctx.program ctx.tree ctx.tree.size 1 Code.Tree.root).filterMap Wat.function?
      = ctx.tree.functions.map ctx.program.methodName := by
  refine hArranged.functions_read _ fun k hMem m hInstr => hNames m ?_
  exact mem_filterMap.mpr ⟨k, hMem, Code.Instr.defined?_eq_some_iff.mpr hInstr⟩

-- Finished Programs

variable {options : Options} {loader : Loader}
variable {main : Load SourceUnit} {ctx : Context}

/- The names in the text of a module do not clash. -/
theorem emitted_names_apart (hRun : (run options loader main).result = .ok ctx)
    (hReadable : ctx.Readable)
    (hMemory : ctx.options.exportMemory = true → ∀ e ∈ ctx.program.exports, e.name ≠ "memory") :
    (ctx.printedMethods.map ctx.program.methodName).Nodup
      ∧ ctx.globalNames.Nodup ∧ ctx.exportNames.Nodup := by
  have hRooted := (run_evolves hRun).rooted
  have hArranged := run_arranged hRun
  rcases run_ok hRun with ⟨_, _, _, _, _, _, _, hCheck⟩
  have hIndexed := hRooted.regular.indexed
  refine ⟨Context.functionNames_nodup hRooted (hRooted.closed hArranged hCheck) hReadable, ?_, ?_⟩
  · exact hIndexed.globals_nodup.sublist (filter_sublist.map _)
  · rw [Context.exportNames]
    split
    · rename_i hExports
      refine nodup_cons.mpr ⟨fun hMem => ?_, hIndexed.exports⟩
      rcases mem_map.mp hMem with ⟨e, hE, hName⟩
      exact hMemory hExports e hE hName
    · exact hIndexed.exports

/- Seven functions, an export and the memory. -/
theorem reopened_names_apart :
    ∃ ctx, (run {} {} (pure reopened)).result = .ok ctx ∧ ctx.printedMethods.length = 7
      ∧ ctx.exportNames.length = 2
      ∧ (ctx.printedMethods.map ctx.program.methodName).Nodup
      ∧ ctx.globalNames.Nodup ∧ ctx.exportNames.Nodup := by
  have hKnown : (run {} {} (pure reopened)).satisfies fun ctx =>
        decide (ctx.printedMethods.length = 7 ∧ ctx.exportNames.length = 2 ∧ ctx.Readable
          ∧ ∀ e ∈ ctx.program.exports, e.name ≠ "memory") := by
    decide +kernel
  rcases exists_of_satisfies hKnown with ⟨ctx, hRun, hMethods, hExports, hReadable, hMemory⟩
  exact ⟨ctx, hRun, hMethods, hExports, emitted_names_apart hRun hReadable fun _ => hMemory⟩

/- A method that is exported under the name of the memory. -/
def memoryExport : SourceUnit :=
  let node tag items : Dump.Node := ⟨tag, items, .generated⟩
  let name := node .sym [.symbol "memory"]
  let body := node .begin
      [.node (node .send [.nil, .symbol "export", .node name]),
        .node (node .int [.int 1])]
  ⟨"main", none, node .methodDef [.symbol "f", .node (node .params []), .node body]⟩

theorem memoryExport_twice : ∃ ctx, (run {} {} (pure memoryExport)).result = .ok ctx
      ∧ ctx.exportNames = ["memory", "memory"] := by
  have hKnown : (run {} {} (pure memoryExport)).satisfies fun ctx =>
        decide (ctx.exportNames = ["memory", "memory"]) := by
    decide +kernel
  exact exists_of_satisfies hKnown

end RubyWat
