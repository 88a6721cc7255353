import RubyWat.Proofs.Loading

/-
  Code outside of methods.

  Key definitions: `Lower.Silent`, `Lower.Compiles`, `Lower.Descends`.

  Main statement: whatever is compiled outside of methods adds complete classes and methods to
  the outline of the program and leaves no code of its own, and all definitions that stand there
  are compiled (`lowerNode_descends`).
-/

-- Declarations In Classes

namespace RubyWat

open Translation Code Build Dump Step Program Array Lasting Declaring Context

variable {p : NodeId}

/- A new class. -/
theorem Program.Declares.pushClass (p : Program) (k : Class)
    (hNew : p.findClass? k.path = none) (hEmpty : k.ivars = []) :
    Declares busy p (p.pushClass k) := by
  have hPush : ∀ c, (p.pushClass k).cls c = if c.index = p.classes.size then k else p.cls c :=
    cls_push rfl
  have hOld : ∀ c : ClassId, c.index = p.classes.size → p.cls c = default := by
    intro c hEq
    rw [cls, getD_eq_getD_getElem?, getElem?_eq_none (by omega)]
    rfl
  refine ⟨⟨Nat.le_refl _, fun m _ => .refl _,
    fun _ _ hWritten => .refl hWritten, id, fun _ => id, by simp [Program.pushClass], ?_, ?_,
    fun _ _ => id, fun hIndexed => { hIndexed with classes := ?_ }⟩,
    fun _ => rfl, fun _ => .refl _, fun _ => .inl⟩
  · intro c hIn
    rw [hPush, if_neg (Nat.ne_of_lt hIn)]
    exact ⟨rfl, rfl⟩
  · intro c
    rw [hPush]
    split
    · rename_i hEq
      rw [hOld c hEq]
      exact .of_eq hEmpty fun _ hMem => by cases hMem
    · exact .refl _
  · rw [show (p.pushClass k).classes.size = p.classes.size + 1 from size_push k]
    refine lookup_push hIndexed.classes hNew (fun c => ?_) fun c => ?_
    · exact ⟨fun hEq => congrArg ClassId.mk hEq, fun hEq => hEq ▸ rfl⟩
    · rw [hPush]
      split <;> rfl

/- A new name for a global. -/
theorem Program.Declares.declareGlobal
    {busy : Option MethodId} {p p' : Program} {name : String} {ty : ValueType}
    {init : Int64} {span : Span} {g : GlobalId}
    (hGlobal : p.declareGlobal name ty init span = .ok (g, p')) : Declares busy p p' := by
  simp only [Program.declareGlobal] at hGlobal
  split at hGlobal
  · cases hGlobal
  rename_i hFree
  cases hGlobal
  refine .of_eq rfl rfl rfl (fun hIndexed => { hIndexed with globals := ?_ }) fun _ => .inl
  simp only [size_push]
  refine lookup_push hIndexed.globals hFree (fun g => ?_) fun g => ?_
  · exact ⟨fun hEq => congrArg GlobalId.mk hEq, fun hEq => hEq ▸ rfl⟩
  · rw [globalVar_push rfl]
    split <;> rfl

namespace Build

theorem refreshWriterType_namesOnly : NamesOnly (do
      match ← provided? c (writerName name) .onInstance with
      | some m => typeWriter m ty
      | none => pure ()) := by
  intro ctx _ ctx' hRun
  rcases bind_ok hRun with ⟨found, _, hFound, hRun⟩
  rcases provided?_ok hFound with ⟨rfl, hProvided⟩
  cases found with
  | none =>
    cases hRun
    exact refl _
  | some m =>
    exact (retype_ok (hProvided m rfl).synthesized hRun
      {}).1

theorem refreshAccessorTypes_namesOnly : NamesOnly (refreshAccessorTypes c name) := by
  refine .bind readProgram fun p => ?_
  split
  · exact .pure _
  intro ctx _ ctx' hRun
  rcases bind_ok hRun with ⟨found, _, hFound, hRun⟩
  rcases provided?_ok hFound with ⟨rfl, hProvided⟩
  cases found with
  | none => exact refreshWriterType_namesOnly _ _ _ hRun
  | some m =>
    rcases bind_ok hRun with ⟨_, ctx₁, hReader, hRun⟩
    have hFirst := retype_ok (hProvided m rfl).synthesized hReader
      {}
    exact trans _ _ _ hFirst.1 (refreshWriterType_namesOnly _ _ _ hRun)

theorem declareAttr_same (k : Class) (name : String) (reader writer : Bool) :
    (k.declareAttr name reader writer).name = k.name
      ∧ (k.declareAttr name reader writer).path = k.path := by
  unfold Class.declareAttr
  split
  · exact ⟨rfl, rfl⟩
  · exact ⟨rfl, rfl⟩

theorem declareAttr_namesOnly : NamesOnly (declareAttr c name reader writer span) := by
  -- a field without a fixed type and its accessors come together
  have hField : NamesOnly (do
        let _ ← declare (·.declareIvar c name .i32 false)
        modifyProgram (·.modifyClass c (·.declareAttr name reader writer))) := by
    intro ctx _ ctx' hRun
    cases hRun
    refine ⟨rfl, ?_⟩
    change Declares none ctx.program ((ctx.program.modifyClass c _).modifyClass c _)
    rw [modifyClass_modifyClass]
    have hFirst := declareIvar_same (ctx.program.cls c) name .i32 false
    have hSecond :=
      declareAttr_same (ctx.program.cls c |>.declareIvar name .i32 false).2 name reader writer
    exact .modifyClass (hSecond.1.trans hFirst.1)
      (hSecond.2.trans hFirst.2) (.declareAttr _ name reader writer)
  refine .bind readProgram fun p => .guard (.throw _) ?_
  rw [← bind_assoc]
  exact .bind hField fun _ => .guard declareProvided_namesOnly
    (.guard declareProvided_namesOnly refreshAccessorTypes_namesOnly)

theorem attrType_namesOnly : NamesOnly (attrType c name ty span) := by
  have hRest : NamesOnly (do
        let _ ← declare (·.declareIvar c name ty true)
        refreshAccessorTypes c name) :=
    .bind (Declaring.declare fun p => declares_declareIvar c name ty)
      fun _ => refreshAccessorTypes_namesOnly
  have hDescribe : ∀ ty, NamesOnly (describe ty) := fun _ =>
    .bind Declaring.readProgram fun _ => .pure _
  refine .bind Declaring.readProgram fun p => ?_
  split
  · exact .ite (.bind (hDescribe _) fun _ => .bind (hDescribe _) fun _ =>
      .bind (.throw _) fun _ => hRest) hRest
  · exact hRest

/- A warning changes neither the code nor the names. -/
theorem warn_changes : Changes (EvolvingAt p) (warn w) := by
  intro ctx _ ctx' hRun _
  cases hRun
  exact .of_declares rfl rfl (.refl none _)

theorem declared_changes {f : Program → Except Fault (Declared × Program)}
    (hDeclares : ∀ q a q', f q = .ok (a, q') → Declares none q q') :
    Changes (EvolvingAt p) (do
      match ← tryDeclare f with
      | .added => pure ()
      | .unchanged => warn w) := by
  refine .bind (Declaring.tryDeclare hDeclares).evolvingAt fun a => ?_
  cases a with
  | added => exact .pure _
  | unchanged => exact warn_changes

theorem cvarDeclare_changes : Changes (EvolvingAt p) (cvarDeclare p name value ty span) := by
  refine .bind .get fun ctx => declared_changes ?_
  intro q a q' hDeclare
  rcases declareCvar_ok hDeclare with rfl | ⟨data, address, _, rfl⟩
  · exact .refl none _
  · exact (Declares.withData q data).trans (.modifyClass rfl rfl (.of_eq rfl fun _ => id))

theorem constDeclare_changes : Changes (EvolvingAt p) (constDeclare p name value span) := by
  refine .bind .get fun ctx => .guard (.throw _) (declared_changes ?_)
  intro q a q' hDeclare
  simp only [declareConst] at hDeclare
  split at hDeclare
  · split at hDeclare
    · cases hDeclare
      exact .refl none q
    · cases hDeclare
  · cases hDeclare
    exact .modifyClass rfl rfl (.of_eq rfl fun _ => id)

end Build

-- Silent Steps

variable {lexical : ClassId} {kind : ClassKind}
variable {l l' : Loader} {s s' : LowerState}
variable {superclass : Option ClassId} {span : Span} {name : String}

namespace Lower

/- What code outside of methods does to a compilation. -/
structure Proceeds (s s' : LowerState) : Prop where
  evolves : Evolves s.ctx s'.ctx
  gathers : Gathers s s'

namespace Proceeds

theorem refl (hRooted : Rooted s.ctx) : Proceeds s s :=
  ⟨Lasting.refl (R := Evolving) s.ctx hRooted, .of_sources_eq rfl⟩

theorem trans (hFirst : Proceeds s s₁) (hSecond : Proceeds s₁ s') : Proceeds s s' :=
  ⟨hFirst.evolves.trans hSecond.evolves, hFirst.gathers.trans hSecond.gathers hSecond.evolves⟩

end Proceeds

/- A step of a compilation at a place of definitions. -/
def OutsideAt (p : NodeId) (s s' : LowerState) : Prop :=
  Grouping s.ctx.tree p → Rooted s.ctx → Proceeds s s'

instance {p : NodeId} : Lasting (OutsideAt p) where
  refl := fun _ _ hRooted => .refl hRooted
  trans := by
    intro s₁ s₂ s₃ hFirst hSecond hPlace hRooted
    have hOne := hFirst hPlace hRooted
    exact hOne.trans (hSecond (hPlace.steps hOne.evolves.tree) hOne.evolves.rooted)

namespace OutsideAt

/- A step that reads no unit. -/
theorem of_evolvingAt (hLoader : s'.loader = s.loader) (hEvolving : EvolvingAt p s.ctx s'.ctx) :
    OutsideAt p s s' :=
  fun hPlace hRooted => ⟨hEvolving hPlace hRooted, .of_sources_eq (by rw [hLoader])⟩

end OutsideAt

/- Steps that leave the loader alone. -/
def SameLoader (s s' : LowerState) : Prop :=
  s'.loader = s.loader

instance : Lasting SameLoader where
  refl := fun _ => rfl
  trans := fun _ _ _ hFirst hSecond => hSecond.trans hFirst

/- A step that leaves the loader alone. -/
abbrev Quiet {α : Type} (step : Lower α) : Prop :=
  Stays SameLoader step

/- A step at a place of definitions that reads no unit. -/
def DeclaresAt (p : NodeId) (s s' : LowerState) : Prop :=
  SameLoader s s' ∧ EvolvingAt p s.ctx s'.ctx

instance {p : NodeId} : Lasting (DeclaresAt p) where
  refl := fun s => ⟨refl s, refl s.ctx⟩
  trans := fun _ _ _ hFirst hSecond =>
    ⟨trans _ _ _ hFirst.1 hSecond.1, trans _ _ _ hFirst.2 hSecond.2⟩

theorem DeclaresAt.build {α : Type} {step : Build α} (hStep : Changes (EvolvingAt p) step) :
    Stays (DeclaresAt p) (liftM step : Lower α) :=
  .build fun s a ctx' hRun => ⟨rfl, hStep s.ctx a ctx' hRun⟩

namespace Stays

variable {α : Type}

theorem quiet (hStep : Stays (DeclaresAt p) step) : Quiet step :=
  hStep.mono And.left

theorem outside {step : Lower α} (hStep : Stays (DeclaresAt p) step) : Changes (OutsideAt p) step :=
  fun s a s' hRun => .of_evolvingAt (hStep.ok s a s' hRun).1 (hStep.ok s a s' hRun).2

/- Work on the code tree and the names leaves the loader alone. -/
theorem compile (step : Build α) : Stays SameLoader (liftM step : Lower α) :=
  .build fun _ _ _ _ => rfl

/- A change of what waits for the next definition. -/
theorem pending (f : Option PendingExport → Option PendingExport) :
    Stays SameLoader (modify fun s => { s with pending := f s.pending } : Lower Unit) := by
  refine .of_still (fun s _ s' hRun => ?_) (by rintro _ _ _ ⟨⟩)
  cases hRun
  rfl

end Stays

theorem exportPending_quiet : Quiet (exportPending target) := by
  refine .bind .get fun s => ?_
  split
  · exact .pure _
  · exact .bind (Stays.pending fun _ => none) fun _ => .compile _

/- Static data is none of the outline. -/
theorem DataOnly.declaresAt (hOnly : DataOnly s s') : DeclaresAt p s s' := by
  rcases hOnly.program with ⟨data, hProgram⟩
  refine ⟨hOnly.loader_eq, fun _ => ?_⟩
  refine .of_declares hOnly.options_eq hOnly.tree_eq ?_
  rw [hProgram]
  exact .withData _ data

/- A step that leaves no code at a place of definitions. -/
def Silent (p : NodeId) (step : Lower (Option NodeId)) : Prop :=
  Ensures step fun s result s' =>
    Grouping s.ctx.tree p → Rooted s.ctx → Proceeds s s' ∧ result = none

namespace Silent

variable {step : Lower (Option NodeId)}

theorem none : Silent p (Pure.pure Option.none) := by
  intro s result s' hRun _ hRooted
  cases hRun
  exact ⟨.refl hRooted, rfl⟩

theorem after {α : Type} {step : Lower α} {next : α → Lower (Option NodeId)}
    (hStep : Changes (OutsideAt p) step) (hNext : ∀ a, Silent p (next a)) :
    Silent p (step >>= next) := by
  intro s result s' hRun hPlace hRooted
  rcases bind_ok hRun with ⟨a, s₁, hFirst, hRest⟩
  have hOne := hStep s a s₁ hFirst hPlace hRooted
  rcases hNext a s₁ result s' hRest (hPlace.steps hOne.evolves.tree)
    hOne.evolves.rooted with ⟨hTwo, hNone⟩
  exact ⟨hOne.trans hTwo, hNone⟩

theorem of_changes {step : Lower Unit} (hStep : Changes (OutsideAt p) step) :
    Silent p (do step return Option.none) :=
  .after hStep fun _ => .none

/- A step that needs a method around it fails. -/
theorem of_refused
    (hRefused : ∀ s result s', Grouping s.ctx.tree p → step s = .ok result s' → False) :
    Silent p step :=
  fun s result s' hRun hPlace _ => (hRefused s result s' hPlace hRun).elim

end Silent

/- A step that leaves no code at a place of definitions, but compiles all the definitions there. -/
def Compiles (p : NodeId) (defined : Option String → List Definition)
    (step : Lower (Option NodeId)) : Prop :=
  Ensures step fun s result s' =>
    ∀ around, Stands s.ctx p around → Rooted s.ctx → Proceeds s s' ∧ result = none
        ∧ ∀ d ∈ defined around, d.Compiled s'.ctx

namespace Compiles

variable {step : Lower (Option NodeId)}
variable {defined : Option String → List Definition}

theorem of_silent (hSilent : Silent p step) (hNothing : ∀ around, defined around = []) :
    Compiles p defined step := by
  intro s result s' hRun around hStands hRooted
  rcases hSilent s result s' hRun hStands.place hRooted with ⟨hProceeds, hNone⟩
  refine ⟨hProceeds, hNone, ?_⟩
  rw [hNothing]
  exact List.forall_mem_nil _

theorem of_refused
    (hRefused : ∀ s result s', Grouping s.ctx.tree p → step s = .ok result s' → False) :
    Compiles p defined step :=
  fun s result s' hRun _ hStands _ => (hRefused s result s' hStands.place hRun).elim

end Compiles

/- What the parts of a construct do outside of methods. -/
structure Descends (d : Descent) : Prop where
  faithful : Faithful d
  node : ∀ p node keep, Compiles p node.definitions (d.node p node keep)
  unit : ∀ unit, Ensures (d.unit unit) fun s _ s' =>
      Rooted s.ctx → Proceeds s s' ∧ unit.root.Compiled s'.ctx

-- Directives

section
variable {R : LowerState → LowerState → Prop} [Lasting R]

theorem badArguments_changes {α : Type} : Stays R (badArguments word expected span : Lower α) :=
  .refuse _

theorem wrongScope_changes {α : Type} : Stays R (wrongScope p name allowed span : Lower α) :=
  .bind .context fun _ => .refuse _

theorem directiveClass_changes : Stays R (directiveClass p name span) := by
  refine .bind .context fun ctx => ?_
  split
  · exact .pure _
  · exact wrongScope_changes

theorem directiveOutside_changes : Stays R (directiveOutside p name span) :=
  .bind .context fun _ => .ite wrongScope_changes (.pure _)

theorem typedPairs_changes : Stays R (typedPairs p pairs) := by
  induction pairs with
  | nil => exact .pure _
  | cons pair pairs ih => exact .bind typeArgument_changes fun ty => .bind ih fun rest => .pure _

theorem typedNames_changes : Stays R (typedNames p word args span) := by
  unfold typedNames
  split
  · split
    · exact typedPairs_changes
    · exact badArguments_changes
  · exact badArguments_changes

end

variable {d : Descent}

/- No method is around a place of definitions. -/
theorem directiveMethod_refused (hPlace : Grouping s.ctx.tree p)
    (hRun : directiveMethod p name span s = .ok m s') : False := by
  simp only [directiveMethod, context_bind, methodOf?_grouping hPlace] at hRun
  exact wrongScope_ok hRun

/- A result may be declared for any method, even a written one. -/
theorem resultDirective_changes : Stays (DeclaresAt p) (resultDirective p args span) := by
  have hTarget : Stays (DeclaresAt p) (resultTarget p args span) := by
    refine .bind .context fun ctx => ?_
    split
    · exact .bind typeArgument_changes fun _ => .pure _
    · exact badArguments_changes
    · refine .bind nameArgument_changes fun name =>
        .bind typeArgument_changes fun ty => ?_
      have hForward : NamesOnly (forwardMethod p name span) := by
        refine .bind .get fun ctx => ?_
        dsimp only
        split
        · exact declareMethod _ _ _ _
        · exact declareMethod _ _ _ _
      exact .bind (DeclaresAt.build hForward.evolvingAt) fun _ => .pure _
    · exact badArguments_changes
  refine .bind hTarget fun target => ?_
  have hModify : NamesOnly (modifyMethod target.1 fun x =>
        { x with
          result := target.2
          flags := { x.flags with declaredResult := true } }) := by
    refine modifyProgram fun q =>
      .modifyMethod ⟨rfl, rfl, rfl⟩ rfl ⟨rfl, id, fun _ => id, .inl, fun _ _ => .inl⟩ ?_ ?_
    · intro _ hWritten
      exact ⟨hWritten, rfl, rfl, rfl, rfl, fun _ => rfl, by simp⟩
    · intro _ _ _ hFree
      cases hFree
  exact DeclaresAt.build hModify.evolvingAt

/- The name of an export is kept for the next definition. -/
theorem exportNamed_changes (name : Option String) (span : Span) : Changes (OutsideAt p) (do
      match (← context).methodOf? p with
      | some m => exportAs (.method m) name span
      | none =>
        if (← get).pending.isSome then
          badArguments "export"
            "a definition between two `export` directives" span
        modify fun s => { s with pending := some ⟨name, span⟩ }) := by
  intro s _ s' hRun hPlace
  rw [context_bind] at hRun
  simp only [methodOf?_grouping hPlace] at hRun
  refine Changes.bind (R := OutsideAt p) .get (fun _ => .guard badArguments_changes.ok ?_)
    s _ s' hRun hPlace
  intro s _ s' hRun
  cases hRun
  exact .of_evolvingAt rfl (refl s.ctx)

theorem exportDirective_changes : Changes (OutsideAt p) (exportDirective p args span) := by
  unfold exportDirective
  split
  · exact exportNamed_changes none span
  · exact .bind (.map nameArgument_changes.ok) fun name => exportNamed_changes name span
  · exact .bind badArguments_changes.ok fun name => exportNamed_changes name span

theorem declareAttrs_changes {args : List Node} : Stays (DeclaresAt p) (do
      for arg in args do
        let attr ← nameArgument name arg
        declareAttr c attr reader writer arg.span) := by
  refine .bind (.forIn args fun arg => ?_) fun _ => .pure _
  refine .bind nameArgument_changes fun attr => .bind (DeclaresAt.build ?_) fun _ => .pure _
  exact declareAttr_namesOnly.evolvingAt

theorem accessorDirective_changes :
    Stays (DeclaresAt p) (accessorDirective c name which args span) := by
  refine .ite (.bind badArguments_changes fun _ => ?_) ?_
  all_goals cases which <;> exact declareAttrs_changes

theorem mixinDirective_changes : Stays (DeclaresAt p) (mixinDirective p how args span) := by
  have hMix : ∀ (c mixed : ClassId) (here : Span),
        NamesOnly (tryDeclare fun q => (q.mixIn c mixed how here).map fun q => ((), q)) := by
    intro c mixed here
    refine tryDeclare fun q a q' hMixed => ?_
    rcases hIn : q.mixIn c mixed how here with fault | q₁
    · rw [hIn] at hMixed
      cases hMixed
    rw [hIn] at hMixed
    cases hMixed
    rw [mixIn_ok hIn]
    cases how <;> exact .modifyClass rfl rfl (.of_eq rfl fun _ => id)
  refine .bind directiveOutside_changes fun _ => .guard badArguments_changes
    (.bind .context fun ctx => .bind (.forIn args fun arg => ?_) fun _ => .pure _)
  exact .bind classReference_changes fun mixed =>
    .bind (DeclaresAt.build (hMix _ mixed arg.span).evolvingAt) fun _ => .pure _

theorem load_ok {α : Type} {step : Load α} {a : α} (hRun : (liftM step : Lower α) s = .ok a s') :
    ∃ loader, step s.loader = .ok a loader ∧ s' = { s with loader } := by
  simp only [liftM, monadLift, MonadLift.monadLift, load] at hRun
  split at hRun
  · rename_i loader hStep
    cases hRun
    exact ⟨loader, hStep, rfl⟩
  · cases hRun

/- Another unit comes below the root. -/
theorem requireDirective_changes (hDescends : Descends d) :
    Changes (OutsideAt p) (requireDirective d p name relative args span) := by
  refine .bind directiveOutside_changes.ok fun _ => ?_
  split
  · refine .bind nameArgument_changes.ok fun unitName =>
      .bind .get fun _ => ?_
    intro s _ s' hRun _ hRooted
    rcases bind_ok hRun with ⟨found, s₁, hLoad, hRun⟩
    rcases load_ok hLoad with ⟨loader, hRequire, rfl⟩
    rcases Load.require_new hRequire with ⟨rfl, rfl⟩ | ⟨unit, rfl, hRemembers⟩
    · cases hRun
      exact ⟨refl (R := Evolving) s.ctx hRooted, .of_sources_eq rfl⟩
    rcases hRemembers.kept with ⟨text, hSources, hText⟩
    rcases hDescends.unit unit _ _ s' hRun hRooted with ⟨hProceeds, hRoot⟩
    rcases hProceeds.gathers with ⟨fresh, hFresh, hCompiled⟩
    refine ⟨hProceeds.evolves, fresh ++ [(unit.name, text)], ?_, ?_⟩
    · rw [hFresh, hSources, List.append_assoc]
      rfl
    · rw [List.forall_mem_append, List.forall_mem_singleton]
      exact ⟨hCompiled, unit.root, hText, hRoot⟩
  · exact badArguments_changes.ok

/- Directives outside of methods leave no code. -/
theorem directive_silent (hDescends : Descends d)
    (which : Directive) (name : String) (args : List Node) (span : Span) :
    Silent p (directive d p which name args span) := by
  have hRefused : ∀ {β : Type} {next : MethodId → Lower β} {s s' : LowerState}
        {b : β}, Grouping s.ctx.tree p →
        (directiveMethod p name span >>= next) s = .ok b s' → False := by
    intro β next s s' b hPlace hRun
    exact bind_not_ok (fun _ _ => directiveMethod_refused hPlace) hRun
  cases which with
  | arg | localVar | importName => exact .of_refused fun s result s' => hRefused
  | inlineText =>
    refine .of_refused fun s result s' hPlace hRun => ?_
    rcases map_ok hRun with ⟨n, hRun, _⟩
    exact bind_not_ok (fun _ _ => directiveMethod_refused hPlace) hRun
  | result => exact .of_changes resultDirective_changes.outside
  | exportName => exact .of_changes exportDirective_changes
  | accessor which =>
    exact .after directiveClass_changes.ok fun c => .of_changes accessorDirective_changes.outside
  | attrType =>
    refine .after directiveClass_changes.ok fun c =>
      .after typedNames_changes.ok fun slots =>
        .of_changes (Stays.forIn slots fun slot =>
          .bind (DeclaresAt.build ?_) fun _ => .pure _).outside
    exact attrType_namesOnly.evolvingAt
  | mixin how => exact .of_changes mixinDirective_changes.outside
  | require relative => exact .of_changes (requireDirective_changes hDescends)

end Lower

-- Classes

namespace Program

variable {p p' : Program} {c : ClassId}

theorem endsIn_childPath (p : Program) (parent : ClassId) (name : String) :
    EndsIn (p.childPath parent name) name := by
  unfold childPath
  split
  · exact .inl rfl
  · exact .inr ⟨_, rfl⟩

/- A class that is opened, new or not. -/
theorem defineClass_ok (hIndexed : p.Indexed)
    (hDefine : p.defineClass name lexical kind superclass span = .ok (c, p')) :
    Declares none p p' ∧ c.index < p'.classes.size ∧ EndsIn (p'.cls c).path name := by
  have hEnds := p.endsIn_childPath lexical name
  rcases hFound : p.findClass? (p.childPath lexical name) with _ | k
  · simp only [defineClass, hFound] at hDefine
    cases hDefine
    refine ⟨.pushClass p _ hFound rfl, by simp, ?_⟩
    rwa [cls_push rfl, if_pos rfl]
  · rcases reopenClass_ok hFound hDefine with ⟨rfl, rfl⟩
    rcases (hIndexed.classes _ c).mp hFound with ⟨hIn, hPath⟩
    refine ⟨.modifyClass rfl rfl (.of_eq rfl fun _ => id), ?_, ?_⟩
    · simpa [modifyClass] using hIn
    · rw [cls_modifyClass, if_pos ⟨rfl, hIn⟩]
      rwa [← hPath] at hEnds

end Program

theorem Build.beginClassIn_ok (hPlace : Grouping ctx.tree p) (hRooted : Rooted ctx)
    (hRun : beginClassIn p lexical name kind superclass span ctx = .ok (c, n) ctx') :
    Evolves ctx ctx' ∧ InClass ctx' n c name := by
  simp only [beginClassIn, get_bind, methodOf?_grouping hPlace] at hRun
  rcases bind_ok hRun with ⟨k, _, hTry, hRun⟩
  rcases tryDeclare_ok hTry with ⟨q, hDefine, rfl⟩
  rcases defineClass_ok hRooted.regular.indexed hDefine with ⟨hDeclares, hIn, hPath⟩
  have hFirst : Evolving ctx { ctx with program := q } := .of_declaring ⟨rfl, hDeclares⟩
  have hPlace₁ : Grouping { ctx with program := q }.tree p := hPlace
  rcases bind_ok hRun with ⟨body, ctx₁, hAdd, hEnd⟩
  cases hEnd
  have hAdds := addNodeAt_ok hPlace₁.isOpen hAdd
  have hSame := hAdds.same
  have hHung := hAdds.hung hPlace₁.isOpen
  have hIs : (ctx'.tree.instr n).isGroup = true := by
    rw [hHung.held.instr]
    rfl
  have hSteps : Steps ctx.tree ctx'.tree := by
    refine .of_grown hPlace.isOpen.isIn hPlace.isGroup hAdds.grow ?_
    rw [List.forall_mem_singleton]
    refine .group hHung.held.isIn hIs ?_
    rw [hHung.held.children]
    exact List.forall_mem_nil _
  have hChild : n ∈ ctx'.tree.children p := by
    rw [hAdds.grow.children]
    exact List.mem_append_right _ (.head _)
  have hGroup : Grouping ctx'.tree n :=
    ⟨hHung.root_isOpen, .inner (hPlace.attached.steps hSteps) hChild hIs,
      .inr ⟨c, hHung.held.instr⟩⟩
  have hOne := hFirst hRooted
  have hTwo : Evolves { ctx with program := q } ctx' := by
    have hProgram : ctx'.program = q := by rw [hSame]
    refine ⟨by rw [hSame], hSteps, hProgram ▸ .refl none _,
      hOne.rooted.grown hPlace₁ hSteps hAdds.grow ?_ hProgram⟩
    rw [List.forall_mem_singleton]
    exact ⟨rfl, rfl⟩
  refine ⟨hOne.trans hTwo, hGroup, hHung.held.instr, ?_, ?_⟩
  · rw [hSame]
    exact hIn
  · rw [hSame]
    exact hPath

-- Items

variable {singleton : Bool} {ctx : Context}
variable {main : Load SourceUnit} {loader : Loader}
variable {step : Lower (Option NodeId)} {parts : Lower.MethodParts}
variable {options : Options}

namespace Lower

variable {d : Descent} {node : Node}

/- The body of a class, which may be missing. -/
def classContent (d : Descent) (body : NodeId) (content : Option Node) (c : ClassId) :
    Lower Unit := do
  match content with
  | some content => let _ ← d.node body content false
  | none => pure ()
  finishClass c body

/- A class that is opened, and then its content. -/
theorem classItem_opens (hPlace : Grouping s.ctx.tree p) (hRooted : Rooted s.ctx)
    (hRun : classItem d p node kind s = .ok () s') :
    ∃ s₁ nameNode path name c body, node.nodeAt 0 = .ok nameNode ∧ nameNode.constPath? = some path
        ∧ path.segments.getLast? = some name
        ∧ Evolves s.ctx s₁.ctx ∧ s₁.loader = s.loader
        ∧ InClass s₁.ctx body c name
        ∧ classContent d body (node.node? (bodyIndex kind)) c s₁ = .ok () s' := by
  rcases bind_ok hRun with ⟨⟨lexical, name⟩, s₁, hName, hRun⟩
  have hSame : s = s₁ := className_changes.ok s _ s₁ hName
  rcases need_step hName with ⟨nameNode, hNode, hRest⟩
  dsimp only at hRest
  rcases hPath : nameNode.constPath? with _ | path
  · simp only [hPath] at hRest
    exact (refuse_ok hRest).elim
  simp only [hPath] at hRest
  rcases hLast : path.segments.getLast? with _ | last
  · simp only [hLast] at hRest
    exact (refuse_ok hRest).elim
  have hEq : last = name := by
    simp only [hLast, context_bind] at hRest
    split at hRest
    · cases hRest
      rfl
    · rcases bind_ok hRest with ⟨c, _, _, hEnd⟩
      cases hEnd
      rfl
  subst hEq
  rcases bind_ok hRun with ⟨super, s₂, hSuper, hRun⟩
  have hSame₂ : s₁ = s₂ := superclass_changes.ok s₁ super s₂ hSuper
  rw [← hSame₂, ← hSame] at hRun
  rcases build_step hRun with ⟨⟨c, body⟩, ctx', hBegin, hRun⟩
  rcases beginClassIn_ok hPlace hRooted hBegin with ⟨hEvolves, hClass⟩
  exact ⟨{ s with ctx := ctx' }, nameNode, path, last, c, body, hNode,
    hPath, hLast, hEvolves, rfl, hClass, hRun⟩

/- The content of a class, and its provided methods. -/
theorem classContent_ok
    (hDescends : Descends d) (hClass : InClass s.ctx body c name) (hRooted : Rooted s.ctx)
    (hRun : classContent d body content c s = .ok () s') :
    Proceeds s s' ∧ ∀ d ∈ content.toList.flatMap (·.definitions (some name)),
        d.Compiled s'.ctx := by
  have hFinish : ∀ s s', c.index < s.ctx.program.classes.size →
        (liftM (finishClass c body) : Lower Unit) s = .ok () s' → OutsideAt body s s' := by
    intro s s' hIn hRun
    rcases lift_ok hRun with ⟨ctx', hBuild, rfl⟩
    exact .of_evolvingAt rfl (finishClass_changes _ _ _ hBuild hIn)
  cases content with
  | none => exact ⟨hFinish s s' hClass.isIn hRun hClass.place hRooted, List.forall_mem_nil _⟩
  | some content =>
    rcases bind_ok hRun with ⟨result, s₁, hNode, hRun⟩
    have hStands := Stands.inClass hClass
    rcases hDescends.node body content false s result s₁ hNode _
      hStands hRooted with ⟨hOne, _, hCompiled⟩
    have hRooted₁ := hOne.evolves.rooted
    have hTwo := hFinish s₁ s' (Nat.lt_of_lt_of_le hClass.isIn hOne.evolves.names.classes_le)
      hRun (hStands.evolves hOne.evolves).place hRooted₁
    refine ⟨hOne.trans hTwo, fun d hMem => ?_⟩
    rw [Option.toList_some, List.flatMap_singleton] at hMem
    exact (hCompiled d hMem).evolves hTwo.evolves

theorem classItem_compiles (hDescends : Descends d) (hTag : node.tag = match kind with
        | .cls => .classDef
        | .mixin => .moduleDef) :
    Compiles p node.definitions (do classItem d p node kind return none) := by
  intro s result s' hRun around hStands hRooted
  rcases bind_ok hRun with ⟨_, s₁, hItem, hEnd⟩
  cases hEnd
  rcases classItem_opens hStands.place hRooted hItem with
    ⟨s₁, nameNode, path, name, c, body, hNode, hPath, hLast, hOpen, hLoader, hClass, hRest⟩
  rcases classContent_ok hDescends hClass hOpen.rooted hRest with ⟨hContent, hCompiled⟩
  have hName : node.className? = some name := by
    simp [Node.className?, Node.node?_of_nodeAt hNode, hPath, hLast]
  have hFirst : Proceeds s s₁ := ⟨hOpen, .of_sources_eq (by rw [hLoader])⟩
  refine ⟨hFirst.trans hContent, rfl, ?_⟩
  rw [Node.definitions_class hTag hName]
  exact hCompiled

theorem methodParts_ok (hRun : methodParts node s = .ok parts s') :
    node.methodParts? 0 = some parts := by
  rcases need_step hRun with ⟨name, hName, hRun⟩
  rcases need_step hRun with ⟨params, hParams, hRun⟩
  cases hRun
  simp [Node.methodParts?, hName, hParams]

theorem singletonParts_ok (hRun : singletonParts node s = .ok parts s') :
    node.methodParts? 1 = some parts := by
  rcases need_step hRun with ⟨target, _, hRun⟩
  rcases guard_ok (bind_not_ok fun _ _ => refuse_ok) hRun with ⟨_, hRun⟩
  rcases need_step hRun with ⟨name, hName, hRun⟩
  rcases need_step hRun with ⟨params, hParams, hRun⟩
  cases hRun
  simp [Node.methodParts?, hName, hParams]

/- A method whose parts are read first. -/
theorem methodItem_opens (hRun : methodItem d p node singleton s = .ok () s') :
    ∃ parts, node.methodParts? singleton.toNat = some parts
        ∧ methodFrom d p node singleton parts s = .ok () s' := by
  rw [methodItem_eq] at hRun
  rcases bind_ok hRun with ⟨parts, s₁, hParts, hRest⟩
  cases singleton with
  | true =>
    cases (singletonParts_changes (R := Eq)).ok s parts s₁ hParts
    exact ⟨parts, singletonParts_ok hParts, hRest⟩
  | false =>
    cases (methodParts_changes (R := Eq)).ok s parts s₁ hParts
    exact ⟨parts, methodParts_ok hParts, hRest⟩

theorem methodItem_compiles (hDescends : Descends d)
    (hTag : node.tag = if singleton then .singletonDef else .methodDef) :
    Compiles p node.definitions (do methodItem d p node singleton return none) := by
  intro s result s' hRun around hStands hRooted
  rcases bind_ok hRun with ⟨_, s₁, hItem, hEnd⟩
  cases hEnd
  rcases methodItem_opens hItem with ⟨parts, hParts, hRest⟩
  rcases methodFrom_ok hDescends.faithful hStands.place hRooted
    (hStands.classOf_isIn hRooted) hRest with
    ⟨hEvolves, hLoader, m, hOwn, hRealizes⟩
  refine ⟨⟨hEvolves, .of_sources_eq (by rw [hLoader])⟩, rfl, ?_⟩
  rw [Node.definitions_method hTag, hParts]
  rw [Option.toList_some, List.map_singleton, List.forall_mem_singleton]
  rw [hStands.definedScope_eq singleton parts] at hOwn
  rw [← hEvolves.options_eq] at hRealizes
  exact ⟨_, _, m, hStands.owns.lasts hEvolves.names, hOwn, hRealizes,
    refl (R := Evolving) _ hEvolves.rooted⟩

theorem constant_changes : Stays (DeclaresAt p) (constant p valueNode) :=
  constant_dataOnly.mono DataOnly.declaresAt

theorem constItem_changes : Stays (DeclaresAt p) (constItem p node) :=
  .guard (.refuse _) <| .bind (.need _) fun _ => .bind (.need _) fun _ =>
    .bind constant_changes fun _ => DeclaresAt.build constDeclare_changes

theorem declareGlobal_changes : Stays (DeclaresAt p) (declareGlobal name start ty span) := by
  have hDeclare : NamesOnly (tryDeclare
        (·.declareGlobal name (if ty.isRef then .i32 else ty) start span)) :=
    tryDeclare fun q a q' hGlobal => .declareGlobal hGlobal
  refine .bind (DeclaresAt.build hDeclare.evolvingAt) fun g =>
    .of_still (fun s _ s' hRun => ?_) fun hRun => ?_
  · rcases exportPending_ok hRun with ⟨hDeclaring, _, hLoader⟩
    exact ⟨hLoader, fun _ => .of_declaring hDeclaring⟩
  · rcases exportPending_quiet.error hRun with ⟨hFile, s₁, hSame, hLoader⟩
    exact ⟨hFile, hLoader.trans hSame⟩

theorem staticDeclaration_changes : Stays (DeclaresAt p) (staticDeclaration p node isGlobal) := by
  refine .bind (.need _) fun written => .bind (.need _) fun valueNode =>
    .bind constant_changes fun value => ?_
  cases value with
  | cls c => exact .refuse _
  | int value ty => exact .ite declareGlobal_changes (DeclaresAt.build cvarDeclare_changes)

-- Nodes

variable {keep : Bool}

/- Code is refused where no method is. -/
theorem requireMethodScope_refused {β : Type} {b : β} {next : Unit → Lower β}
    (hPlace : Grouping s.ctx.tree p) (hRun : (requireMethodScope p node >>= next) s = .ok b s') :
    False := by
  refine bind_not_ok (fun _ _ hScope => ?_) hRun
  simp only [requireMethodScope, context_bind, methodOf?_grouping hPlace] at hScope
  exact refuse_ok hScope

theorem requireInstanceMethod_refused (hPlace : Grouping ctx.tree p)
    (hRun : requireInstanceMethod p name span ctx = .ok m ctx') : False := by
  simp only [requireInstanceMethod, get_bind, methodOf?_grouping hPlace] at hRun
  exact throw_ok hRun

theorem assignment_silent {kind : VariableKind} (hKind : kind ≠ .localVar) :
    Silent p (assignment d p kind node keep) := by
  intro s result s' hRun hPlace
  simp only [assignment, context_bind, methodOf?_grouping hPlace] at hRun
  cases kind with
  | localVar => contradiction
  | classVar
  | globalVar => exact Silent.of_changes staticDeclaration_changes.outside s result s' hRun hPlace
  | instanceVar =>
    rcases need_step hRun with ⟨name, _, hRest⟩
    rcases build_step hRest with ⟨m, ctx₁, hMethod, _⟩
    exact (requireInstanceMethod_refused hPlace hMethod).elim

theorem operand_silent (hTag : node.tag = .getIvar) : Silent p (some <$> operand p node) := by
  refine .of_refused fun s result s' hPlace hRun => ?_
  rcases map_ok hRun with ⟨n, hRun, _⟩
  simp only [operand, hTag, VariableKind.ofRead?] at hRun
  rcases need_step hRun with ⟨name, _, hRun⟩
  rcases build_ok hRun with ⟨ctx', hRead, _⟩
  exact bind_not_ok (fun _ _ => requireInstanceMethod_refused hPlace) hRead

theorem DeclaresData.silent (hStep : DeclaresData step) : Silent p step := by
  intro s result s' hRun hPlace hRooted
  rcases hStep s result s' hRun with ⟨hOnly, hNone⟩
  have hOutside : OutsideAt p s s' := .of_evolvingAt hOnly.loader_eq hOnly.declaresAt.2
  exact ⟨hOutside hPlace hRooted, hNone⟩

theorem dataAccess_silent (name : String) (args : List Node) :
    Silent p (dataAccess p node name args) :=
  dataAccess_ensures name args (fun _ => DeclaresData.silent)
    fun _ _ _ _ _ hRun hPlace _ => (requireMethodScope_refused hPlace hRun).elim

theorem sendNode_silent (hDescends : Descends d) : Silent p (sendNode d p node) := by
  refine .after (Stays.need _).ok fun name => ?_
  dsimp only
  split
  · split
    · exact directive_silent hDescends _ name _ node.span
    refine .of_refused fun s result s' hPlace hRun => ?_
    rcases map_ok hRun with ⟨n, hRun, _⟩
    simp only [selfCall, context_bind, methodOf?_grouping hPlace] at hRun
    exact refuse_ok hRun
  · unfold receiverSend
    split
    · exact dataAccess_silent name _
    · exact .of_refused fun s result s' => requireMethodScope_refused
  · exact .of_refused fun s result s' _ => refuse_ok

theorem statements_compiles (hDescends : Descends d) (nodes : List Node) :
    Compiles p (fun around => nodes.flatMap (·.definitions around))
      (statements d p keep nodes) := by
  induction nodes with
  | nil => exact .of_silent .none fun _ => rfl
  | cons node nodes ih =>
    cases nodes with
    | nil =>
      simp only [List.flatMap_singleton]
      exact hDescends.node p node keep
    | cons next nodes =>
      intro s result s' hRun around hStands hRooted
      rcases bind_ok hRun with ⟨first, s₁, hNode, hRest⟩
      rcases hDescends.node p node false s first s₁ hNode around
        hStands hRooted with ⟨hOne, _, hFirst⟩
      rcases ih s₁ result s' hRest around (hStands.evolves hOne.evolves) hOne.evolves.rooted with
        ⟨hTwo, hNone, hSecond⟩
      refine ⟨hOne.trans hTwo, hNone, ?_⟩
      dsimp only
      rw [List.flatMap_cons, List.forall_mem_append]
      exact ⟨fun d hMem => (hFirst d hMem).evolves hTwo.evolves, hSecond⟩

/- Constructs that define nothing. -/
theorem Silent.compiles (hSilent : Silent p step)
    (hNothing : ∀ parts around, node.gather parts around = []) : Compiles p node.definitions step :=
  .of_silent hSilent fun around => by rw [Node.definitions_eq, hNothing]

/- Constructs outside of methods, whatever their tag. -/
theorem dispatch_compiles (hDescends : Descends d) :
    Compiles p node.definitions (dispatch d p node keep) := by
  by_cases hCode : isExecutable node.tag = true
  · refine .of_refused fun s result s' hPlace hRun => ?_
    unfold dispatch at hRun
    rw [if_pos hCode] at hRun
    exact requireMethodScope_refused hPlace hRun
  cases hTag : node.tag
  all_goals
    first
    | exact (hCode (by rw [hTag]; rfl)).elim
    | simp only [dispatch, hTag, isExecutable, Bool.false_eq_true, if_false]
  case begin | kwbegin =>
    have hSequence : node.definitions = fun around => node.nodes.flatMap (·.definitions around) :=
      funext fun around => Node.definitions_sequence (by simp [hTag])
    rw [hSequence]
    exact statements_compiles hDescends node.nodes
  case classDef | moduleDef => exact classItem_compiles hDescends hTag
  case methodDef | singletonDef => exact methodItem_compiles hDescends hTag
  case setConst =>
    exact (Silent.of_changes constItem_changes.outside).compiles (by simp [Node.gather, hTag])
  case setIvar | setCvar | setGlobal =>
    exact (assignment_silent (by simp)).compiles (by simp [Node.gather, hTag])
  case getIvar => exact (operand_silent hTag).compiles (by simp [Node.gather, hTag])
  case send => exact (sendNode_silent hDescends).compiles (by simp [Node.gather, hTag])
  case singletonClass | float | nilLit | interpolated | orAssign
  | andAssign | array | sym | hash | kwargs | pair | params | param
  | rootScope | other => exact .of_refused fun s result s' _ => refuse_ok

/- The code of a node follows the rules, inside or outside. -/
theorem lowerNode_descends {unit : SourceUnit → Lower Unit} (hUnit :
      ∀ u, Ensures (unit u) fun s _ s' => Rooted s.ctx → Proceeds s s' ∧ u.root.Compiled s'.ctx)
    (fuel : Nat) : Descends ⟨lowerNode unit fuel, unit⟩ := by
  refine ⟨lowerNode_faithful unit fuel, ?_, hUnit⟩
  induction fuel with
  | zero =>
    intro p node keep
    exact .of_refused fun s result s' _ => refuse_ok
  | succ fuel ih =>
    intro p node keep s result s' hRun around hStands hRooted
    have hDescends : Descends ⟨lowerNode unit fuel, unit⟩ :=
      ⟨lowerNode_faithful unit fuel, ih, hUnit⟩
    rcases bind_ok hRun with ⟨found, s₁, hCode, hRest⟩
    rcases dispatch_compiles hDescends s found s₁ hCode around hStands
      hRooted with ⟨hProceeds, rfl, hCompiled⟩
    cases hRest
    exact ⟨hProceeds, rfl, hCompiled⟩

-- Programs

theorem inUnit_ok {α : Type} {step : Lower α} {a : α} (hRun : inUnit name step s = .ok a s') :
    step s = .ok a s' := by
  unfold inUnit at hRun
  split at hRun
  · rename_i hStep
    cases hRun
    exact hStep
  · cases hRun

/- A unit is compiled below the root. -/
theorem lowerUnit_ok (hRun : lowerUnit (fuel + 1) unit s = .ok () s') :
    ∃ result s₁, lowerNode (lowerUnit fuel) unit.root.height Tree.root
          unit.root false { s with asking := unit.path }
        = .ok result s₁
      ∧ s'.ctx = s₁.ctx ∧ s'.loader = s₁.loader := by
  have hAsking := inUnit_ok hRun
  simp only [askingFrom] at hAsking
  split at hAsking
  · rename_i s₁ hStep
    cases hAsking
    rcases bind_ok hStep with ⟨result, s₂, hNode, hEnd⟩
    cases hEnd
    exact ⟨result, s₁, hNode, rfl, rfl⟩
  · cases hAsking

theorem lowerUnit_compiles (fuel : Nat) (unit : SourceUnit) :
    Ensures (lowerUnit fuel unit) fun s _ s' =>
      Rooted s.ctx → Proceeds s s' ∧ unit.root.Compiled s'.ctx := by
  induction fuel generalizing unit with
  | zero => exact fun _ _ _ hRun => (refuse_ok hRun).elim
  | succ fuel ih =>
    intro s _ s' hRun hRooted
    rcases lowerUnit_ok hRun with ⟨result, s₁, hNode, hCtx, hLoader⟩
    have hDescends := lowerNode_descends ih unit.root.height
    rcases hDescends.node _ _ _ _ _ _ hNode none
      (.root hRooted.root hRooted.rootInstr) hRooted with ⟨hProceeds, _, hCompiled⟩
    have hGathers : Gathers s s₁ := hProceeds.gathers
    refine ⟨⟨?_, ?_⟩, ?_⟩
    · rw [hCtx]
      exact hProceeds.evolves
    · rw [Gathers, hCtx, hLoader]
      exact hGathers
    · rw [hCtx]
      exact hCompiled

end Lower

namespace Compilation

/- What a compilation starts with. -/
theorem rooted_initial (options : Options) : Rooted (.initial options) := by
  have hRoot : Grouping Tree.empty Tree.root := ⟨⟨by decide, by decide⟩, .root rfl, .inl ⟨rfl, rfl⟩⟩
  have hAlone : ∀ q, Tree.empty.Attached q → Tree.empty.children q = [] := by
    intro q hAttached
    induction hAttached with
    | root => rfl
    | inner _ hChild _ ih =>
      rw [ih] at hChild
      cases hChild
  refine ⟨hRoot, rfl, ⟨?_, ?_⟩, ⟨Nat.zero_lt_one, ?_, .empty _⟩,
    fun m => .of_bodiless (method_of_size_le (Nat.zero_le _)) rfl ?_ (fun _ => rfl) ?_
      (by rintro ⟨⟩) (by rintro ⟨⟩) (List.forall_mem_nil _)⟩
  · intro q hAttached
    change (Tree.empty.children q).Nodup
    rw [hAlone q hAttached]
    exact List.nodup_nil
  · intro q hAttached c hChild
    change c ∈ Tree.empty.children q at hChild
    rw [hAlone q hAttached] at hChild
    cases hChild
  · rintro ⟨_ | c⟩ i v hAt
    · cases hAt
    · cases hAt
  · rintro n ⟨_, q, hAttached, hChild⟩
    change n ∈ Tree.empty.children q at hChild
    rw [hAlone q hAttached] at hChild
    cases hChild
  · exact fun _ => List.forall_mem_nil _

variable (hRun : (run options loader main).result = .ok ctx)
include hRun

/- A program is what the compilation of its main unit makes. -/
theorem run_ok : ∃ unit loader₁ s, main loader = .ok unit loader₁
      ∧ Lower.lowerUnit (Lower.unitLimit loader₁) unit
          { ctx := .initial options, loader := loader₁ } = .ok () s
      ∧ s.ctx = ctx ∧ (run options loader main).loader = s.loader
      ∧ ctx.linkCheck = .ok () := by
  unfold run at hRun ⊢
  split at hRun
  · cases hRun
  rename_i unit loader₁ hMain
  split at hRun
  · rename_i s hLower
    cases hRun
    rcases bind_ok hLower with ⟨_, _, hGet, hLower⟩
    cases hGet
    rcases bind_ok hLower with ⟨_, s₁, hUnit, hLink⟩
    rw [Lower.context_bind] at hLink
    replace hLink := Lower.inUnit_ok hLink
    rcases hCheck : s₁.ctx.linkCheck with fault | u
    · rw [hCheck] at hLink
      exact (Lower.refuse_ok hLink).elim
    · rw [hCheck] at hLink
      cases hLink
      exact ⟨unit, loader₁, s, hMain, hUnit, rfl, rfl, hCheck⟩
  · cases hRun

/- The outline of a finished program. -/
theorem run_evolves : Evolves (.initial options) ctx := by
  rcases run_ok hRun with ⟨unit, loader₁, s, _, hUnit, rfl, _, _⟩
  have hRooted := rooted_initial options
  exact (Lower.lowerUnit_compiles _ _ _ _ _ hUnit hRooted).1.evolves

/- A tree that a compilation compiles: the main unit or another. -/
inductive Reads (options : Options) (loader : Loader) (main : Load SourceUnit) : Node → Prop where
  | main {unit : SourceUnit} {loader₁ : Loader} (hMain : main loader = .ok unit loader₁) :
      Reads options loader main unit.root
  | required {unit : SourceUnit} {loader₁ : Loader}
      {fresh : List (String × String)} {name text : String} {root : Node}
      (hMain : main loader = .ok unit loader₁)
      (hSources : (run options loader main).loader.sources = fresh ++ loader₁.sources)
      (hMem : (name, text) ∈ fresh) (hRead : read text = .ok root) :
      Reads options loader main root

/- Every definition in every unit of a program is compiled. -/
theorem run_compiled (hReads : Reads options loader main root) : root.Compiled ctx := by
  rcases run_ok hRun with ⟨unit, loader₁, s, hMain, hUnit, rfl, hLoader, _⟩
  rcases Lower.lowerUnit_compiles _ _ _ _ _ hUnit
    (rooted_initial options) with ⟨hProceeds, hCompiled⟩
  cases hReads with
  | main hMain' =>
    rw [hMain] at hMain'
    cases hMain'
    exact hCompiled
  | required hMain' hSources hMem hRead =>
    rw [hMain] at hMain'
    cases hMain'
    rcases hProceeds.gathers with ⟨fresh, hFresh, hAll⟩
    rw [hLoader, hFresh] at hSources
    rw [← List.append_cancel_right hSources] at hMem
    rcases hAll _ hMem with ⟨root', hRead', hRoot⟩
    rw [hRead] at hRead'
    cases hRead'
    exact hRoot

theorem run_arranged : Arranged ctx.tree Tree.root := by
  have hStart : Arranged Tree.empty Tree.root := .group (by decide) rfl (List.forall_mem_nil _)
  exact hStart.steps (run_evolves hRun).tree

end Compilation

end RubyWat
