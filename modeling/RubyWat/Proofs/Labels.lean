import RubyWat.Proofs.Names
import RubyWat.Proofs.Placement

/-
  Whose labels static data has.

  Text in the code and class variables lie under labels that the
  compiler makes up, next to the labels of the program.

  Main statement: a label that is never made up stands for the
  first value that the program wrote under it, and is refused from
  then on, whatever else is placed in between (`own_labels_apart`).
-/

namespace RubyWat.Context

open List StaticData

variable {ctx : Context} {label : String}

/- What puts values into static data. -/
inductive DataWrite where
  | text (bytes : List UInt8)
  | cell (c : ClassId) (name : String) (value : Int64) (ty : ValueType) (span : Span)
  | own (r : Request)

/- The state after a write.  A refused one changes nothing. -/
def write (ctx : Context) : DataWrite → Context
  | .text bytes =>
    match Build.stringAddress bytes ctx with
    | .ok _ ctx' | .error _ ctx' => ctx'
  | .cell c name value ty span =>
    match ctx.program.declareCvar c name value ty span with
    | .ok (_, program) => { ctx with program }
    | .error _ => ctx
  | .own r => { ctx with program.data := ctx.program.data.serve r }

/- The value that the program places itself by a write. -/
def placedBy? (ctx : Context) : DataWrite → Option DataEntry
  | .own r => ctx.program.data.placement? r
  | .text _ | .cell _ _ _ _ _ => none

def ownEntries : Context → List DataWrite → List DataEntry
  | _, [] => []
  | ctx, w :: ws => (ctx.placedBy? w).toList ++ ownEntries (ctx.write w) ws

def IsMadeUp (label : String) : Prop :=
  (∃ n : Nat, label = "str" ++ toString n) ∨ ∃ path name, label = path ++ "::@@" ++ name

/- A write adds nothing under a label but what the program places. -/
theorem filter_write (hOwn : ¬ IsMadeUp label) (w : DataWrite) :
    (ctx.write w).program.data.entries.filter (·.label == label)
      = (ctx.program.data.entries ++ (ctx.placedBy? w).toList).filter (·.label == label) := by
  have hPlace : ∀ (d : StaticData) madeUp value, IsMadeUp madeUp →
      (d.place madeUp value).2.entries.filter (·.label == label)
        = d.entries.filter (·.label == label) := by
    intro d madeUp value hMadeUp
    have hNe : madeUp ≠ label := fun hEq => hOwn (hEq ▸ hMadeUp)
    simp [place, hNe]
  cases w with
  | text bytes =>
    rw [placedBy?, Option.toList_none, append_nil]
    exact hPlace ctx.program.data _ _ (.inl ⟨_, rfl⟩)
  | cell c name value ty span =>
    simp only [write, placedBy?, Option.toList_none, append_nil]
    split
    · rename_i hDeclare
      rcases Program.declareCvar_ok hDeclare with rfl | ⟨data, address, hPlaced, rfl⟩
      · rfl
      · rw [declare] at hPlaced
        split at hPlaced
        · cases hPlaced
        · cases hPlaced
          exact hPlace ctx.program.data _ _ (.inr ⟨_, _, rfl⟩)
    · rfl
  | own r => exact congrArg _ (ctx.program.data.entries_serve r)

theorem filter_writes (hOwn : ¬ IsMadeUp label) (ws : List DataWrite) :
    (ws.foldl write ctx).program.data.entries.filter (·.label == label)
      = (ctx.program.data.entries ++ ctx.ownEntries ws).filter (·.label == label) := by
  induction ws generalizing ctx with
  | nil => simp [ownEntries]
  | cons w ws ih =>
    rw [foldl_cons, ih, filter_append, filter_write hOwn, ← filter_append, append_assoc, ownEntries]

/- A write is a request to static data, or none at all. -/
theorem data_write (ctx : Context) (w : DataWrite) :
    ∃ rs, (ctx.write w).program.data = ctx.program.data.serveAll rs := by
  cases w with
  | text bytes => exact ⟨[.append _ (.bytes (bytes ++ [0]))], rfl⟩
  | cell c name value ty span =>
    simp only [write]
    split
    · rename_i hDeclare
      rcases Program.declareCvar_ok hDeclare with rfl | ⟨data, address, hPlaced, rfl⟩
      · exact ⟨[], rfl⟩
      · refine ⟨[.declare (ctx.program.cvarLabel c name) (.int ty.held value) span], ?_⟩
        simp only [serveAll, foldl_cons, foldl_nil, serve, hPlaced]
        rfl
    · exact ⟨[], rfl⟩
  | own r => exact ⟨[r], rfl⟩

theorem labelled_writes (hLabelled : ctx.program.data.Labelled) (ws : List DataWrite) :
    (ws.foldl write ctx).program.data.Labelled := by
  induction ws generalizing ctx with
  | nil => exact hLabelled
  | cons w ws ih =>
    rcases ctx.data_write w with ⟨rs, hData⟩
    have hNext : (ctx.write w).program.data.Labelled := hData ▸ hLabelled.serveAll rs
    exact ih hNext

/-
  A label that the compiler never makes up is the program's own:
  it stands for the first value that the program placed under it,
  and declaring it is refused if and only if there is one.
-/
theorem own_labels_apart (options : Options) (ws : List DataWrite) (hOwn : ¬ IsMadeUp label) :
    let data := (ws.foldl write (.initial options)).program.data
    let own := (Context.initial options).ownEntries ws
    data.labelAddress? label = (own.find? (·.label == label)).map (·.address)
      ∧ ∀ value span fault, data.declare label value span = .error fault ↔
          ∃ e, own.find? (·.label == label) = some e
            ∧ fault = .labelRedeclared label e.address span := by
  intro data own
  have hFind : data.entries.find? (·.label == label) = own.find? (·.label == label) := by
    rw [← head?_filter, ← head?_filter, filter_writes hOwn ws]
    rfl
  have hAddress : data.labelAddress? label = (own.find? (·.label == label)).map (·.address) := by
    rw [labelled_writes (fun _ => rfl) ws, hFind]
  refine ⟨hAddress, fun value span fault => ?_⟩
  rw [declare, hAddress]
  generalize own.find? (·.label == label) = found
  cases found with
  | none => simp
  | some e => simp [eq_comm]

/- Text, a class variable and a refused request around two values. -/
def aroundMark : List DataWrite :=
  [.text [0x78],
    .own (.append "mark" (.int .i32 5)),
    .cell ⟨0⟩ "count" 1 .i32 .generated,
    .own (.declare "mark" (.int .i32 6) .generated),
    .own (.append "mark" (.bytes [0x79]))]

theorem aroundMark_label : ¬ IsMadeUp "mark"
      ∧ (aroundMark.foldl write (.initial {})).program.data.labelAddress? "mark" = some 2
      ∧ (aroundMark.foldl write (.initial {})).program.data.entries.map (·.label)
        = ["str0", "mark", "Object::@@count", "mark"] := by
  have hOwn : ¬ IsMadeUp "mark" := by
    rintro (⟨n, hEq⟩ | ⟨path, name, hEq⟩)
    · simpa using congrArg String.toList hEq
    · have hMem : '@' ∈ "mark".toList := by simp [hEq]
      revert hMem
      decide
  refine ⟨hOwn, (own_labels_apart {} aroundMark hOwn).1.trans ?_, ?_⟩ <;> decide

end RubyWat.Context
