import RubyWat.Proofs.Definitions

/-
  Methods that the compiler provides.

  Main statement: closing a class adds complete methods to the outline of the program and leaves
  the methods that the program wrote alone (`finishClass_changes`).
-/

-- New Code And Names

namespace RubyWat

open Step (bind_ok)
open Code (Fragment Grown Hung NodeId Open)
open Program (Declares)

/- A step that puts fragments below a node and declares names. -/
structure Extends (ctx ctx' : Context) (p : NodeId) (fs : List Fragment) : Prop where
  options_eq : ctx'.options = ctx.options
  declares : Declares none ctx.program ctx'.program
  grow : Grown ctx.tree ctx'.tree p fs

namespace Extends

variable {ctx ctx₁ ctx₂ : Context} {p : NodeId} {f g : Fragment}
variable {fs gs : List Fragment}

theorem of_adds (hAdds : Adds ctx ctx₁ p fs) : Extends ctx ctx₁ p fs := by
  have hSame := hAdds.same
  refine ⟨by rw [hSame], ?_, hAdds.grow⟩
  rw [hSame]
  exact .refl none _

theorem of_declaring (hDeclaring : Declaring none ctx ctx₁) : Extends ctx ctx₁ p [] := by
  have hSame := hDeclaring.same
  refine ⟨by rw [hSame], hDeclaring.program, ?_⟩
  rw [hSame]
  exact .refl _ p

variable (hOpen : Open ctx.tree p)
include hOpen

theorem trans (hFirst : Extends ctx ctx₁ p fs)
    (hSecond : Extends ctx₁ ctx₂ p gs) : Extends ctx ctx₂ p (fs ++ gs) :=
  ⟨hSecond.options_eq.trans hFirst.options_eq, hFirst.declares.trans hSecond.declares,
    hFirst.grow.trans hOpen hSecond.grow⟩

theorem isOpen (hExtends : Extends ctx ctx₁ p fs) : Open ctx₁.tree p :=
  hExtends.grow.isOpen hOpen

variable (hExtends : Extends ctx ctx₁ p [f])
include hExtends

theorem hung : Hung ctx₁.tree p f :=
  hExtends.grow.hung hOpen (.head _)

/- What was put below a node is edited. -/
theorem rework (hStep : Reworks ctx₁ ctx₂ p f g)
    (hDeclares : Declares none ctx₁.program ctx₂.program) : Extends ctx ctx₂ p [g] := by
  have hSplit : Grown ctx.tree ctx₁.tree p ([] ++ f :: []) := hExtends.grow
  exact ⟨hStep.options_eq.trans hExtends.options_eq, hExtends.declares.trans hDeclares,
    hSplit.edit hOpen hStep.edit⟩

theorem rewrite (hStep : Rewrites ctx₁ ctx₂ p f g) : Extends ctx ctx₂ p [g] := by
  refine hExtends.rework hOpen hStep.reworks ?_
  rw [hStep.program_eq]
  exact .refl none _

/- Code below a fragment that was put below a node. -/
theorem fill (hBelow : Extends ctx₁ ctx₂ f.id fs) :
    Extends ctx ctx₂ p [{ f with children := f.children ++ fs }] :=
  hExtends.rework hOpen ⟨hBelow.options_eq, hBelow.grow.edited (hExtends.hung hOpen)⟩
    hBelow.declares

end Extends

/- Code of a method in the middle of its definition. -/
theorem Defining.extend (hDefining : Defining ctx ctx₁ p n m gs)
    (hExtends : Extends ctx₁ ctx₂ n fs) : Defining ctx ctx₂ p n m (gs ++ fs) :=
  hDefining.rework hExtends.options_eq hExtends.declares.while_busy
    (hExtends.grow.edited hDefining.hung)

-- Steps At A Place Of Definitions

open Code (Fragment Grouping NodeId Open)
open Translation
variable {ctx ctx' : Context} {f : Method → Method} {P : Program}

/- A step that may define methods below a place. -/
def EvolvingAt (p : NodeId) (ctx ctx' : Context) : Prop :=
  Grouping ctx.tree p → Evolving ctx ctx'

instance {p : NodeId} : Lasting (EvolvingAt p) where
  refl := fun ctx _ => Lasting.refl ctx
  trans := by
    intro ctx₁ ctx₂ ctx₃ hFirst hSecond hPlace hRooted
    have hOne := hFirst hPlace hRooted
    exact Lasting.trans _ _ _ (hFirst hPlace) (hSecond (hPlace.steps hOne.tree)) hRooted

theorem Changes.evolvingAt {α : Type} {step : Build α} (hStep : NamesOnly step) :
    Changes (EvolvingAt p) step :=
  fun ctx a ctx' hRun _ => .of_declaring (hStep ctx a ctx' hRun)

/- Such a step for a class that the program has. -/
def EvolvingIn (c : ClassId) (p : NodeId) (ctx ctx' : Context) : Prop :=
  c.index < ctx.program.classes.size → EvolvingAt p ctx ctx'

instance {c : ClassId} {p : NodeId} : Lasting (EvolvingIn c p) where
  refl := fun ctx _ => Lasting.refl (R := EvolvingAt p) ctx
  trans := by
    intro ctx₁ ctx₂ ctx₃ hFirst hSecond hIn hPlace hRooted
    have hOne := hFirst hIn hPlace hRooted
    have hStill := Nat.lt_of_lt_of_le hIn hOne.names.classes_le
    exact hOne.trans (hSecond hStill (hPlace.steps hOne.tree) hOne.rooted)

theorem Changes.evolvingIn {α : Type} {step : Build α}
    (hStep : NamesOnly step) : Changes (EvolvingIn c p) step :=
  fun ctx a ctx' hRun _ => hStep.evolvingAt ctx a ctx' hRun

/- Steps that make the code of a provided method, with accesses. -/
def Lays (c : ClassId) (name : String) (scope : MethodScope) (Q : Access → Prop)
    (code : NodeId → Build Unit) : Prop :=
  ∀ n ctx ctx', Open ctx.tree n → code n ctx = .ok () ctx' →
    ∃ fs, Provides c name scope fs ∧ (∀ f ∈ fs, f.Accesses Q) ∧ Extends ctx ctx' n fs

namespace Build

variable {p : NodeId} {m : MethodId}

theorem index_lt_of_provided (hProvided : (P.method m).flags.synthesized = true) :
    m.index < P.methods.size := by
  by_contra hOut
  rw [Program.method_of_size_le (by omega)] at hProvided
  cases hProvided

/- A method that the host neither provides nor gets. -/
structure Unlinked (P : Program) (m : MethodId) : Prop where
  imported : (P.method m).flags.imported = false
  exports : ∀ e ∈ P.exports, e.target ≠ .method m

theorem Unlinked.declares (hUnlinked : Unlinked P m)
    (hDeclares : Declares none P P') : Unlinked P' m := by
  constructor
  · by_contra hIs
    have hOld := (hDeclares.marked m).unimported (by simp) (by simpa using hIs)
    rw [hUnlinked.imported] at hOld
    cases hOld
  · intro e hMem hTarget
    rcases hDeclares.exports e hMem with hOld | hNew
    · exact hUnlinked.exports e hOld hTarget
    · cases hNew m hTarget

/- Neither is the case for what the compiler provides. -/
theorem unlinked_of_provided (hRooted : Rooted ctx)
    (hProvided : (ctx.program.method m).flags.synthesized = true) : Unlinked ctx.program m := by
  have hOrder := hRooted.inOrder m
  have hNot : ¬ (ctx.program.method m).flags.imported = true := by
    intro hIs
    rw [(hOrder.apart hIs).2] at hProvided
    cases hProvided
  refine ⟨by simpa using hNot, fun e hMem hTarget => ?_⟩
  rcases hOrder.exports e hMem hTarget with hIs | hIs
  · simp [Method.isWritten, hProvided] at hIs
  · exact hNot hIs

/- A provided method gets a function anew. -/
theorem regenerate_ok (hPlace : Grouping ctx.tree p) (hRooted : Rooted ctx)
    (hProvided : (ctx.program.method m).flags.synthesized = true)
    (hRun : regenerate m p ctx = .ok n ctx') :
    ∃ ctx₁, EvolvesTo (some m) ctx ctx₁ ∧ Defining ctx₁ ctx' p n m []
      ∧ Unlinked ctx'.program m ∧ (ctx'.program.method m).Bare := by
  have hNew : (ctx.program.method m).isWritten = false := by simp [Method.isWritten, hProvided]
  have hIn := index_lt_of_provided hProvided
  have hUnlinked := unlinked_of_provided hRooted hProvided
  rcases bind_ok hRun with ⟨_, ctx₁, hDiscard, hRun⟩
  rcases discardBody_ok hRooted hNew hDiscard with ⟨hEvolves, hProgram⟩
  have hPlace₁ := hPlace.steps hEvolves.tree
  have hMethod : ctx₁.program.method m = (ctx.program.method m).bodiless := by
    rw [hProgram, Program.method_modifyMethod_self _ hIn]
  have hIn₁ : m.index < ctx₁.program.methods.size := by
    rw [hProgram]
    simpa [Program.modifyMethod] using hIn
  rcases bind_ok hRun with ⟨node, ctx₂, hAdd, hRun⟩
  have hAdds := addNode_ok hPlace₁.isOpen hAdd
  have hSame := hAdds.same
  cases hRun
  refine ⟨ctx₁, hEvolves, ⟨hPlace₁, hEvolves.rooted, ?_, ?_,
    by rw [hSame], hAdds.grow, ?_, ?_, ?_, ?_, ?_⟩, ⟨?_, ?_⟩, ?_⟩
  · rw [hMethod]
    exact hNew
  · rw [hMethod]
    rfl
  · rw [hSame]
    refine .modifyMethod ⟨rfl, rfl, rfl⟩ (by simp) ?_ id
    intro _ _ hFalse
    cases hFalse
  · rw [hSame, Program.method_modifyMethod_self _ hIn₁]
  · rw [hSame, Program.method_modifyMethod_self _ hIn₁]
  · intro k hNe
    rw [hSame, Program.method_modifyMethod_of_ne _ hNe]
    exact ⟨rfl, .refl _⟩
  · rw [hSame]
    exact fun _ hMem _ _ _ => hMem
  · rw [hSame, Program.method_modifyMethod_self _ hIn₁, hMethod]
    exact hUnlinked.imported
  · rw [hSame, hProgram]
    exact hUnlinked.exports
  · rw [hSame, Program.method_modifyMethod_self _ hIn₁, hMethod]
    exact fun _ => (hRooted.inOrder m).bare (.inl hProvided)

/- A change of what calls of a method see. -/
structure Retypes (f : Method → Method) : Prop where
  same : ∀ x : Method, x.Same (f x) := by exact fun _ => ⟨rfl, rfl, rfl⟩
  body_eq : ∀ x, (f x).body = x.body := by exact fun _ => rfl
  flags_eq : ∀ x, (f x).flags = x.flags := by exact fun _ => rfl
  locals : ∀ x, ∀ s ∈ (f x).locals, s ∈ x.locals ∨ s.ty.isRef = true := by exact fun _ _ => .inl

/- Calls of a provided method see it in a new way. -/
theorem retype_ok (hProvided : (ctx.program.method m).flags.synthesized = true)
    (hRun : modifyMethod m f ctx = .ok () ctx') (hRetypes : Retypes f) :
    Declaring none ctx ctx' ∧ (ctx'.program.method m).flags.synthesized = true := by
  have hIn := index_lt_of_provided hProvided
  cases hRun
  refine ⟨⟨rfl, .modifyUnwritten ?_ (hRetypes.same _)
    (hRetypes.body_eq _) (.of_flags (hRetypes.flags_eq _) fun _ => hRetypes.locals _) ?_⟩, ?_⟩
  · simp [Method.isWritten, hProvided]
  · intro _ _ hNew
    rw [hRetypes.flags_eq, hProvided] at hNew
    cases hNew
  · rw [Program.method_modifyMethod_self _ hIn, hRetypes.flags_eq]
    exact hProvided

variable {code : NodeId → Build Unit}
variable (hOffers : ctx.program.Indexed → Offers ctx.program c name scope m)
variable (hRun : (do
    modifyMethod m f
    let n ← regenerate m p
    code n) ctx = .ok () ctx')
variable (hRetypes : Retypes f)
include hOffers hRun hRetypes

/- A provided method gets its code anew. -/
theorem provide_changes (hCode : Lays c name scope Q code)
    (hAllows : Rooted ctx → ∀ a, Q a → ctx.program.Allows m a) : EvolvingIn c p ctx ctx' := by
  rcases bind_ok hRun with ⟨_, ctx₁, hRetype, hRun⟩
  intro hIn hPlace hRooted
  have hOffers := hOffers hRooted.regular.indexed
  rcases retype_ok hOffers.synthesized hRetype hRetypes with ⟨hNames, hStill⟩
  rcases hRooted.regular.indexed.own hOffers.own with ⟨hIs, hOwner, _⟩
  have hOwned : ctx.program.Owned m := ⟨hIs, by rwa [hOwner]⟩
  have hFirst := Evolving.of_declaring hNames hRooted
  rcases bind_ok hRun with ⟨n, ctx₂, hStart, hRest⟩
  rcases regenerate_ok (hPlace.steps hFirst.tree) hFirst.rooted hStill
    hStart with ⟨ctx₃, hEvolves, hDefining, hUnlinked, hBare⟩
  rcases hCode n ctx₂ ctx' hDefining.hung.root_isOpen hRest with
    ⟨fs, hProvides, hAccesses, hExtends⟩
  have hStillUnlinked := hUnlinked.declares hExtends.declares
  have hSecond := hFirst.trans hEvolves
  have hOwn := (hDefining.extend hExtends).fills.lasts.ownMethod?_eq_some
    (hSecond.names.ownMethod?_eq_some hOffers.own)
  have hIndexed := (hDefining.extend hExtends).fills.lasts.indexed hSecond.rooted.regular.indexed
  rcases (hIndexed.own hOwn).2 with ⟨rfl, rfl, rfl⟩
  have hDone := (hDefining.extend hExtends).evolves hStillUnlinked.imported
    (fun e hMem hTarget => absurd hTarget (hStillUnlinked.exports e hMem))
    (.provided hProvides) (fun _ => hProvides)
    (Method.Marked.bare (by simpa using hExtends.declares.marked m) hBare)
    ((hOwned.lasts hSecond.names).lasts (hDefining.extend hExtends).fills.lasts)
    (fun f hF => (hAccesses f hF).mono fun a hIs =>
      ((hAllows hRooted a hIs).lasts hSecond.names).lasts (hDefining.extend hExtends).fills.lasts)
  exact hSecond.trans hDone.1

/- Code without an access is left to every method. -/
theorem provide_plain (hCode : Lays c name scope (fun _ => False) code) : EvolvingIn c p ctx ctx' :=
  provide_changes hOffers hRun hRetypes hCode fun _ _ => False.elim

end Build

end RubyWat

-- Sizes, Initializers And Accessors

namespace RubyWat

open Step (bind_ok throw_ok)

variable {c : ClassId} {n : Code.NodeId} {ctx ctx' : Context}
variable {m : MethodId} {slot : Nat} {p : Program} {name : String}
variable {ty : ValueType}

namespace Build

open Code (Fragment Grouping NodeId Open)
open Translation

variable {p : NodeId}

theorem provideSize_changes : Changes (EvolvingIn c p) (provideSize c p) := by
  intro ctx _ ctx' hRun
  rcases bind_ok hRun with ⟨m, ctx₁, hSize, hRun⟩
  have hOwn := sizeMethod_own hSize
  have hFirst : EvolvingIn c p ctx ctx₁ := sizeMethod_namesOnly.evolvingIn _ _ _ hSize
  refine Lasting.trans _ _ _ hFirst ?_
  rw [program_bind] at hRun
  split at hRun
  · rename_i hProvided
    refine provide_plain (fun _ => ⟨hOwn, hProvided⟩) hRun {} ?_
    intro n ctx₁ ctx₂ hOpen hCode
    rcases bind_ok hCode with ⟨k, _, hAdd, hEnd⟩
    cases hEnd
    exact ⟨_, .size, List.forall_mem_singleton.mpr (.leaf rfl), .of_adds (addNode_ok hOpen hAdd)⟩
  · cases hRun
    exact Lasting.refl _

theorem provideInitialize_changes : Changes (EvolvingIn c p) (provideInitialize c p) := by
  have hInherits : NamesOnly (inheritsInitializer c) := .bind Declaring.readProgram fun _ => .pure _
  refine .bind hInherits.evolvingIn fun inherits => ?_
  split
  · intro ctx _ ctx' hRun
    rcases bind_ok hRun with ⟨found, ctx₁, hDeclare, hRun⟩
    have hFirst : EvolvingIn c p ctx ctx₁ := declareProvided_namesOnly.evolvingIn _ _ _ hDeclare
    refine Lasting.trans _ _ _ hFirst ?_
    cases found with
    | none =>
      cases hRun
      exact Lasting.refl _
    | some m =>
      simp only [program_bind] at hRun
      split at hRun
      · refine provide_plain (declareProvided_some hDeclare) hRun {} ?_
        intro n ctx₂ ctx₃ hOpen hEnd
        cases hEnd
        exact ⟨[], .initializer, List.forall_mem_nil _, .of_declaring (Lasting.refl _)⟩
      · cases hRun
        exact Lasting.refl _
  · exact .pure _

/- The method that reads a field. -/
theorem provideReader_changes (hOffers : Offers ctx.program c name .onInstance m)
    (hAllows : Rooted ctx → ctx.program.Allows m ⟨c, slot, ty.held⟩)
    (hRun : provideReader c p m slot ty ctx = .ok () ctx') : EvolvingIn c p ctx ctx' := by
  refine provide_changes (Q := (· = ⟨c, slot, ty.held⟩)) (fun _ => hOffers) hRun {} ?_
    fun hRooted _ hIs => hIs ▸ hAllows hRooted
  intro n ctx₁ ctx₂ hOpen hCode
  rcases bind_ok hCode with ⟨load, ctx₃, hLoad, hCode⟩
  have hAdds : Extends _ _ _ _ := .of_adds (addNode_ok hOpen hLoad)
  rcases addNode_step (hAdds.hung hOpen) hCode with ⟨ctx₄, this, hThis, hEnd⟩
  cases hEnd
  refine ⟨_, .reader, ?_, hAdds.rewrite hOpen hThis⟩
  exact (Reshapes.node rfl (by rintro a ⟨⟩; rfl) (.leaf rfl rfl)).accesses (List.forall_mem_nil _)

/- The method that sets a field. -/
theorem provideWriter_changes (hOffers : Offers ctx.program c (writerName name) .onInstance m)
    (hAllows : Rooted ctx → ctx.program.Allows m ⟨c, slot, ty.held⟩)
    (hRun : provideWriter c p m slot ty ctx = .ok () ctx') : EvolvingIn c p ctx ctx' := by
  rcases hHeld : ty.held? with _ | held
  · simp only [provideWriter, hHeld] at hRun
    exact (throw_ok hRun).elim
  simp only [provideWriter, hHeld] at hRun
  have hSame : held = ty.held := by
    rw [ValueType.held, hHeld]
    rfl
  refine provide_changes (Q := (· = ⟨c, slot, ty.held⟩)) (fun _ => hOffers) hRun {} ?_
    fun hRooted _ hIs => hIs ▸ hAllows hRooted
  intro n ctx₁ ctx₂ hOpen hCode
  rcases bind_ok hCode with ⟨store, ctx₃, hStore, hCode⟩
  have hAdds : Extends _ _ _ _ := .of_adds (addNode_ok hOpen hStore)
  have hHung := hAdds.hung hOpen
  rcases addNode_step hHung hCode with ⟨ctx₄, this, hThis, hCode⟩
  rcases addNode_step (hThis.hung) hCode with ⟨ctx₅, value, hValue, hEnd⟩
  cases hEnd
  refine ⟨_, .writer hHeld, ?_, hAdds.rewrite hOpen (hThis.trans hValue)⟩
  exact (Reshapes.node rfl (by rintro a ⟨⟩; rw [hSame]) (.idle_cons (.leaf rfl rfl)
    (.leaf rfl rfl))).accesses (List.forall_mem_nil _)

/- What the compiler provides under a name. -/
theorem provided?_ok (hRun : provided? c name scope ctx = .ok found ctx') :
    ctx = ctx' ∧ ∀ m, found = some m → Offers ctx.program c name scope m := by
  rw [provided?, program_bind] at hRun
  cases hRun
  refine ⟨rfl, ?_⟩
  intro m hFound
  rcases Option.filter_eq_some_iff.mp hFound with ⟨hOwn, hIs⟩
  exact ⟨hOwn, hIs⟩

/- Provided methods that stay provided. -/
def StillProvides (ctx ctx' : Context) : Prop :=
  ∀ m, (ctx.program.method m).flags.synthesized = true →
    (ctx'.program.method m).flags.synthesized = true

instance : Lasting StillProvides where
  refl := fun _ _ => id
  trans := fun _ _ _ hFirst hSecond m hIs => hSecond m (hFirst m hIs)

theorem modifyMethod_stillProvides
    (hStill : ∀ x, x.flags.synthesized = true → (f x).flags.synthesized = true) :
    Changes StillProvides (modifyMethod m f) := by
  intro ctx _ ctx' hRun k hIs
  cases hRun
  by_cases hEq : k = m
  · subst hEq
    rw [Program.method_modifyMethod_self _ (index_lt_of_provided hIs)]
    exact hStill _ hIs
  · rw [Program.method_modifyMethod_of_ne _ hEq]
    exact hIs

theorem addNode_stillProvides (n : NodeId) (instr : Code.Instr) (ty : ValueType) :
    Changes StillProvides (addNode n instr ty) := by
  intro ctx _ ctx' hRun
  cases hRun
  exact fun _ => id

theorem regenerate_stillProvides (m : MethodId) (p : NodeId) :
    Changes StillProvides (regenerate m p) := by
  have hDiscard : Changes StillProvides (discardBody m) := by
    refine .bind (.bind .get fun _ => .pure _) fun P => ?_
    split
    · refine .bind (modifyMethod_stillProvides fun _ => id) fun _ ctx _ ctx' hRun => ?_
      cases hRun
      exact fun _ => id
    · exact .pure _
  refine .bind hDiscard fun _ => .bind (addNode_stillProvides p _ _) fun n => ?_
  exact .bind (modifyMethod_stillProvides fun _ _ => rfl) fun _ => .pure n

theorem provideReader_stillProvides (c : ClassId) (p : NodeId) (m : MethodId) (slot : Nat)
    (ty : ValueType) : Changes StillProvides (provideReader c p m slot ty) := by
  refine .bind (modifyMethod_stillProvides fun _ => id) fun _ =>
    .bind (regenerate_stillProvides m p) fun n =>
    .bind (addNode_stillProvides n _ _) fun load => ?_
  exact .bind (addNode_stillProvides load _ _) fun _ => .pure _

/- The accessors that the compiler provides for an attribute. -/
theorem provideSomeWriter_changes (hWrites :
      ∀ m, writer = some m → Offers ctx.program c (writerName name) .onInstance m
          ∧ (Rooted ctx → ctx.program.Allows m ⟨c, slot, ty.held⟩))
    (hRun : (match writer with
        | some m => provideWriter c p m slot ty
        | none => pure ()) ctx = .ok () ctx') :
    EvolvingIn c p ctx ctx' := by
  cases writer with
  | none =>
    cases hRun
    exact Lasting.refl _
  | some m =>
    rcases hWrites m rfl with ⟨hOffers, hAllows⟩
    exact provideWriter_changes hOffers hAllows hRun

theorem provideAccessors_changes : Changes (EvolvingIn c p) (provideAccessors c p attr) := by
  intro ctx _ ctx' hRun
  rw [provideAccessors, program_bind] at hRun
  dsimp only at hRun
  rcases hSlot : (ctx.program.cls c).ivarSlot? attr.name with _ | slot
  · simp only [hSlot] at hRun
    cases hRun
    exact Lasting.refl _
  rcases hIvar : (ctx.program.cls c).ivar? attr.name with _ | ivar
  · simp only [hSlot, hIvar] at hRun
    cases hRun
    exact Lasting.refl _
  simp only [hSlot, hIvar] at hRun
  rcases bind_ok hRun with ⟨reader, _, hReader, hRun⟩
  rcases provided?_ok hReader with ⟨rfl, hReads⟩
  rcases bind_ok hRun with ⟨writer, _, hWriter, hRun⟩
  rcases provided?_ok hWriter with ⟨rfl, hWrites⟩
  have hAllows : ∀ name m, Offers ctx.program c name .onInstance m → Rooted ctx →
        ctx.program.Allows m ⟨c, slot, ivar.ty.held⟩ := by
    intro name m hOffers hRooted
    rcases hRooted.regular.indexed.own hOffers.own with ⟨hIs, rfl, _⟩
    exact ⟨hIs, Program.fits_of_ivar? (hRooted.regular.fields _) hSlot hIvar⟩
  have hWrites : ∀ m, (writer.filter fun _ => attr.writer) = some m →
        Offers ctx.program c (writerName attr.name) .onInstance m :=
    fun m hSome => hWrites m (Option.filter_eq_some_iff.mp hSome).1
  rcases hSome : reader.filter fun _ => attr.reader with _ | m
  · simp only [hSome] at hRun
    exact provideSomeWriter_changes (fun m hIs => ⟨hWrites m hIs, hAllows _ m (hWrites m hIs)⟩) hRun
  simp only [hSome] at hRun
  have hIs := hReads m (Option.filter_eq_some_iff.mp hSome).1
  rcases bind_ok hRun with ⟨_, ctx₁, hRead, hRun⟩
  have hStill := provideReader_stillProvides c p m slot ivar.ty _ _ _ hRead
  intro hIn hPlace hRooted
  have hFirst := provideReader_changes hIs (hAllows _ m hIs) hRead hIn hPlace hRooted
  refine hFirst.trans (provideSomeWriter_changes (fun k hIs =>
    ⟨⟨hFirst.names.ownMethod?_eq_some (hWrites k hIs).own, hStill k (hWrites k hIs).synthesized⟩,
      fun _ => (hAllows _ k (hWrites k hIs) hRooted).lasts hFirst.names⟩) hRun
    (Nat.lt_of_lt_of_le hIn hFirst.names.classes_le)
    (hPlace.steps hFirst.tree) hFirst.rooted)

end Build

-- Constructors

/- A class that answers to no method has none of its own. -/
theorem Program.ownMethod?_of_classMethod? (hNone : p.classMethod? c name = none) :
    p.ownMethod? c name .onClass = none := by
  simp only [classMethod?] at hNone
  split at hNone
  · cases hNone
  rename_i hChain
  rw [superclasses, superclassesFrom, List.findSome?_cons] at hChain
  rcases hOwn : p.ownMethod? c name .onClass with _ | m
  · rfl
  · simp [classMethodOf?, hOwn] at hChain

/- A call stays at its node. -/
theorem Translation.Calls.id_eq (hCalls : Calls m receiver p f p' g) : g.id = f.id := by
  cases hCalls with
  | onInstance | onClass => rfl

namespace Build

open Code (Fragment Grouping NodeId Open)
open Program (Declares)
open Translation

theorem allocator_namesOnly : NamesOnly allocator := by
  intro ctx m ctx' hRun
  simp only [allocator, get_bind] at hRun
  generalize hClass : (ctx.program.findClass? ctx.options.allocatorClass).getD
      objectClass = c at hRun
  rcases hFound : ctx.program.classMethod? c ctx.options.allocatorMethod with _ | ⟨k, _⟩
  · simp only [hFound, declare_bind] at hRun
    have hNone := Program.ownMethod?_of_classMethod? hFound
    simp only [Program.declareMethod, hNone] at hRun
    cases hRun
    have hNew : Declares none ctx.program _ :=
      .declareMethod ctx.program c ctx.options.allocatorMethod .onClass .generated
    simp only [Program.declareMethod, hNone] at hNew
    refine ⟨rfl, hNew.trans ?_⟩
    refine .modifyUnwritten ?_ ⟨rfl, rfl, rfl⟩ rfl (.of_flags rfl fun _ _ => .inl) id
    rw [Program.method_push rfl, if_pos rfl]
    rfl
  · simp only [hFound] at hRun
    cases hRun
    exact Lasting.refl _

/- The address of a new object. -/
theorem allocate_ok (hOpen : Open ctx.tree n) (hRun : allocate c n ctx = .ok () ctx') :
    ∃ f, Allocates c f ∧ Extends ctx ctx' n [f] := by
  rw [allocate, program_bind] at hRun
  split at hRun
  · rcases bind_ok hRun with ⟨address, ctx₁, hPlace, hRun⟩
    have hData : Declaring none ctx ctx₁ := by
      refine Declaring.declare (fun P => ?_) _ _ _ hPlace
      exact .withData P _
    have hFirst : Extends ctx ctx₁ n [] := .of_declaring hData
    rcases bind_ok hRun with ⟨k, ctx₂, hAdd, hEnd⟩
    cases hEnd
    have hAdds := addNode_ok (hFirst.isOpen hOpen) hAdd
    exact ⟨_, .shared, hFirst.trans hOpen (.of_adds hAdds)⟩
  · rcases bind_ok hRun with ⟨provider, ctx₁, hFind, hRun⟩
    have hFirst : Extends ctx ctx₁ n [] := .of_declaring (allocator_namesOnly _ _ _ hFind)
    have hOpen₁ := hFirst.isOpen hOpen
    rcases bind_ok hRun with ⟨k, ctx₂, hAdd, hRun⟩
    have hSecond : Extends ctx₁ ctx₂ n [_] := .of_adds (addNode_ok hOpen₁ hAdd)
    rcases bind_ok hRun with ⟨size, ctx₃, hSize, hRun⟩
    have hThird : Extends ctx₂ ctx₃ k [] := .of_declaring (sizeMethod_namesOnly _ _ _ hSize)
    have hSized := hSecond.fill hOpen₁ hThird
    rcases addNode_step (hSized.hung hOpen₁) hRun with ⟨ctx₄, call, hArg, hRun⟩
    have hArged := hSized.rewrite hOpen₁ hArg
    have hHung₄ := hArged.hung hOpen₁
    rcases bind_ok hRun with ⟨_, ctx₅, hCall, hRun⟩
    rcases call_ok hHung₄ hCall with ⟨f, hCalls, _, hStep⟩
    have hCalled := hArged.rework hOpen₁ hStep hCalls.declares
    have hHung₅ := hCalled.hung hOpen₁
    rcases bind_ok hRun with ⟨_, ctx₆, hCast, hEnd⟩
    cases hEnd
    have hId : f.id = k := hCalls.id_eq
    rw [← hId] at hCast
    rcases cast_ok hHung₅ hCast with ⟨g, hCasts, _, hLast⟩
    exact ⟨g, .fresh hCalls hCasts, hFirst.trans hOpen (hCalled.rewrite hOpen₁ hLast)⟩

/- The arguments that a constructor passes on. -/
theorem forwardParams_ok (params : List Slot) (hOpen : Open ctx.tree n) (hRun :
      (ForIn.forIn params PUnit.unit fun (slot : Slot) _ => do
        let _ ← addNode n (.localGet slot.name) slot.ty
        pure (ForInStep.yield PUnit.unit)) ctx = .ok () ctx') :
    ∃ args, (∀ arg ∈ args, ∃ k x ty, arg = .leaf k (.localGet x) ty) ∧ Extends ctx ctx' n args := by
  induction params generalizing ctx with
  | nil =>
    cases hRun
    exact ⟨[], by simp, .of_declaring (Lasting.refl _)⟩
  | cons slot params ih =>
    rw [List.forIn_cons] at hRun
    rcases bind_ok hRun with ⟨_, ctx₁, hOne, hRun⟩
    rcases bind_ok hOne with ⟨k, ctx₂, hAdd, hEnd⟩
    cases hEnd
    have hFirst : Extends ctx ctx₁ n [_] := .of_adds (addNode_ok hOpen hAdd)
    rcases ih (hFirst.isOpen hOpen) hRun with ⟨args, hArgs, hRest⟩
    refine ⟨_ :: args, ?_, hFirst.trans hOpen hRest⟩
    exact List.forall_mem_cons.mpr ⟨⟨k, _, _, rfl⟩, hArgs⟩

/- The constructor of a class. -/
theorem initializeObject_ok (hOpen : Open ctx.tree n)
    (hRun : initializeObject c n params ctx = .ok () ctx') :
    ∃ init P P' call this args f g, (∀ arg ∈ args, ∃ k x ty, arg = .leaf k (.localGet x) ty)
      ∧ Calls init .inNode P ⟨call, .nop, .none,
            .leaf this (.localGet newObject) (.ref c) :: args⟩ P' f
      ∧ Discards false f g
      ∧ Extends ctx ctx' n [g] := by
  rw [initializeObject, program_bind] at hRun
  rcases hInit : ctx.program.instanceMethod? c "initialize" with
    _ | init
  · simp only [hInit] at hRun
    exact (throw_ok hRun).elim
  simp only [hInit] at hRun
  rcases bind_ok hRun with ⟨k, ctx₁, hAdd, hRun⟩
  have hFirst : Extends ctx ctx₁ n [_] := .of_adds (addNode_ok hOpen hAdd)
  rcases addNode_step (hFirst.hung hOpen) hRun with ⟨ctx₂, this, hThis, hRun⟩
  have hSecond := hFirst.rewrite hOpen hThis
  rcases bind_ok hRun with ⟨_, ctx₃, hParams, hRun⟩
  rcases forwardParams_ok params (hSecond.hung hOpen).root_isOpen hParams with ⟨args, hArgs, hBelow⟩
  have hThird := hSecond.fill hOpen hBelow
  rcases bind_ok hRun with ⟨_, ctx₄, hCall, hRun⟩
  rcases call_ok (hThird.hung hOpen) hCall with ⟨f, hCalls, _, hStep⟩
  have hFourth := hThird.rework hOpen hStep hCalls.declares
  rcases bind_ok hRun with ⟨_, ctx₅, hKeep, hEnd⟩
  cases hEnd
  have hId : f.id = k := hCalls.id_eq
  rw [← hId] at hKeep
  rcases keepOrDrop_ok (hFourth.hung hOpen) hKeep with ⟨g, hDiscards, _, hLast⟩
  exact ⟨init, _, _, k, this, args, f, g, hArgs, hCalls, hDiscards, hFourth.rewrite hOpen hLast⟩

theorem provideNew_changes {p : NodeId} : Changes (EvolvingIn c p) (provideNew c p) := by
  intro ctx _ ctx' hRun
  rcases bind_ok hRun with ⟨found, ctx₁, hNew, hRun⟩
  have hFirst : EvolvingIn c p ctx ctx₁ := newMethod_namesOnly.evolvingIn _ _ _ hNew
  refine Lasting.trans _ _ _ hFirst ?_
  cases found with
  | none =>
    cases hRun
    exact Lasting.refl _
  | some m =>
    refine provide_plain (newMethod_some hNew) hRun ⟨fun _ => ⟨rfl, rfl, rfl⟩, fun _ => rfl,
      fun _ => rfl, fun _ _ hMem => .inr (List.mem_singleton.mp hMem ▸ rfl)⟩ ?_
    intro n ctx₂ ctx₃ hOpen hCode
    rcases bind_ok hCode with ⟨assign, ctx₄, hAdd, hCode⟩
    have hSet : Extends ctx₂ ctx₄ n [_] := .of_adds (addNode_ok hOpen hAdd)
    rcases bind_ok hCode with ⟨_, ctx₅, hObject, hCode⟩
    rcases allocate_ok (hSet.hung hOpen).root_isOpen hObject with ⟨object, hAllocates, hBelow⟩
    have hAssign := hSet.fill hOpen hBelow
    rw [program_bind] at hCode
    rcases bind_ok hCode with ⟨_, ctx₆, hInit, hCode⟩
    rcases initializeObject_ok (hAssign.isOpen hOpen) hInit with
      ⟨init, P, P', call, this, args, f, g, hArgs, hCalls, hDiscards, hCall⟩
    have hBoth := hAssign.trans hOpen hCall
    rcases bind_ok hCode with ⟨k, ctx₇, hLast, hEnd⟩
    cases hEnd
    have hGet := addNode_ok (hBoth.isOpen hOpen) hLast
    refine ⟨_, .constructor hAllocates hArgs hCalls hDiscards, ?_,
      hBoth.trans hOpen (.of_adds hGet)⟩
    exact (reshapes_construct hAllocates hArgs hCalls hDiscards).accesses (List.forall_mem_nil _)

/- Closing a class provides its methods. -/
theorem finishClass_changes {p : NodeId} : Changes (EvolvingIn c p) (finishClass c p) := by
  have hFinalize : NamesOnly (modifyProgram (·.finalize c)) :=
    Declaring.modifyProgram fun P => .modifyClass rfl rfl (.of_eq rfl fun _ => id)
  refine .bind hFinalize.evolvingIn fun _ => .bind Declaring.readProgram.evolvingIn fun P => ?_
  refine .bind (.forIn _ fun attr =>
    .bind provideAccessors_changes fun _ => .pure _)
    fun _ => ?_
  split
  · exact .bind provideSize_changes fun _ =>
      .bind provideInitialize_changes fun _ => provideNew_changes
  · exact .pure _

end Build

end RubyWat
