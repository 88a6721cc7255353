import RubyWat.Proofs.Outline

/-
  Definitions of methods.

  Main statement: a method definition that compiles adds a complete method to the outline of the
  program, with the code that the rules of the translation give for its statements
  (`methodFrom_ok`).
-/

-- Places Of Definitions

namespace RubyWat

open Code Translation Build Dump Step Program

variable {c : ClassId} {ctx : Context} {m : MethodId}
variable {scope : MethodScope} {name : String}

namespace Context

variable {p : NodeId}

/- No method is around a place of definitions. -/
theorem scopeOf_grouping (hPlace : Grouping ctx.tree p) :
    ctx.tree.instr p = .root ∧ ctx.scopeOf p = .root ∨ ∃ c, ctx.tree.instr p = .classBody c
        ∧ ctx.scopeOf p = .inClass c := by
  rcases hPlace.place with ⟨hInstr, hParent⟩ | ⟨c, hInstr⟩
  · left
    have hUp : ctx.tree.lineage p = [p] := by
      rw [Tree.lineage, Tree.ancestors, hParent]
      cases ctx.tree.size <;> rfl
    simp [scopeOf, hUp, hInstr, Scope.ofInstr?]
  · right
    refine ⟨c, hInstr, ?_⟩
    simp [scopeOf, Tree.lineage, hInstr, Scope.ofInstr?]

theorem methodOf?_grouping (hPlace : Grouping ctx.tree p) : ctx.methodOf? p = none := by
  rcases scopeOf_grouping hPlace with ⟨_, hScope⟩ | ⟨c, _, hScope⟩
  · simp [methodOf?, hScope]
  · simp [methodOf?, hScope]

end Context

-- Bodies That Are Taken Off

/- A method without its body. -/
def Method.bodiless (x : Method) : Method :=
  { x with body := none }

namespace Build

variable {ctx' : Context}

/- A function that is taken off its method and the tree. -/
theorem settled_bodiless (hRooted : Rooted ctx)
    (hBody : (ctx.program.method m).body = some old) (hSteps : Steps ctx.tree ctx'.tree)
    (hLasts : Lasts none ctx.program ctx'.program) (hTree : ctx'.tree = ctx.tree.detach old)
    (hProgram : ctx'.program = ctx.program.modifyMethod m Method.bodiless) :
    Settled (some m) ctx' := by
  have hOrder := hRooted.inOrder m
  have hOutlined := hRooted.outlined
  have hOld := (hOrder.body old).mp hBody
  have hIn := index_lt_of_body hBody
  have hDefines : ∀ k n, ctx'.tree.Defines k n ↔ ctx.tree.Defines k n ∧ n ≠ old := by
    rw [hTree]
    exact fun k n => hOutlined.defines_detach hOld
  have hMethod : ctx'.program.method m = (ctx.program.method m).bodiless := by
    rw [hProgram, method_modifyMethod_self _ hIn]
  have hBusy : Settled (some m) ctx := hRooted.while_busy
  refine hBusy.replace hSteps hLasts ?_ ?_ ?_ ?_ ?_
  · rw [hTree]
    exact hOutlined.detach hOld
  · intro k hNe n
    rw [hDefines, and_iff_left_iff_imp]
    rintro hIs rfl
    have hInstr := hIs.instr
    rw [hOld.instr] at hInstr
    cases hInstr
    exact hNe rfl
  · intro k hNe
    rw [hProgram, method_modifyMethod_of_ne _ hNe]
    exact ⟨rfl, .refl _⟩
  · rw [hProgram]
    exact fun e hMem _ _ _ => hMem
  refine .of_bodiless hMethod rfl (fun n hIs => ?_) (fun hFree => absurd rfl hFree) hOrder.bare
    hOrder.apart (fun hIs => (hOrder.owned (.inr hIs)).lasts hLasts) (hProgram ▸ hOrder.exports)
  rw [hDefines, ← hOrder.body, hBody] at hIs
  exact hIs.2 (Option.some.inj hIs.1).symm

/- The body of a method that the program did not write. -/
theorem discardBody_ok (hRooted : Rooted ctx) (hNew : (ctx.program.method m).isWritten = false)
    (hRun : discardBody m ctx = .ok () ctx') :
    EvolvesTo (some m) ctx ctx' ∧ ctx'.program = ctx.program.modifyMethod m Method.bodiless := by
  rw [discardBody, program_bind] at hRun
  rcases hBody : (ctx.program.method m).body with _ | old
  · simp only [hBody] at hRun
    cases hRun
    refine ⟨⟨rfl, .refl _, .refl none _, hRooted.while_busy⟩, ?_⟩
    rw [modifyMethod_eq_self]
    rw [Method.bodiless, ← hBody]
  simp only [hBody] at hRun
  rw [modifyMethod_bind] at hRun
  cases hRun
  have hDefines := ((hRooted.inOrder m).body old).mp hBody
  rcases hDefines.attached with ⟨q, hPlace, hChild⟩
  have hUp := hRooted.outlined.parent q hPlace old hChild
  have hSteps : Steps ctx.tree (ctx.tree.detach old) := by
    refine .of_detach hUp.1 hDefines.instr ?_
    rw [hUp.2]
    rintro q ⟨⟩
    exact hPlace.isGroup
  have hLasts : Lasts none ctx.program (ctx.program.modifyMethod m Method.bodiless) :=
    .modifyMethod ⟨rfl, rfl, rfl⟩ (by simp [hNew]) id id
  exact ⟨⟨rfl, hSteps, hLasts, settled_bodiless hRooted hBody hSteps hLasts rfl rfl⟩, rfl⟩

/- A method without code, of which nothing is known any more. -/
def forgotten (x : Method) : Method :=
  { x with flags := {}, result := .i32 }

theorem settled_forgotten (hSettled : Settled (some m) ctx)
    (hIn : m.index < ctx.program.methods.size) (hBody : (ctx.program.method m).body = none)
    (hProvided : (ctx.program.method m).flags.synthesized = true)
    (hLasts : Lasts none ctx.program ctx'.program) (hTree : ctx'.tree = ctx.tree)
    (hProgram : ctx'.program = ctx.program.modifyMethod m forgotten) : Rooted ctx' := by
  have hOrder := hSettled.inOrder m
  have hMethod : ctx'.program.method m = forgotten (ctx.program.method m) := by
    rw [hProgram, method_modifyMethod_self _ hIn]
  refine hSettled.replace (hTree ▸ .refl _) hLasts (hTree ▸ hSettled.outlined) ?_ ?_ ?_ ?_
  · rw [hTree]
    exact fun _ _ _ => .rfl
  · intro k hNe
    rw [hProgram, method_modifyMethod_of_ne _ hNe]
    exact ⟨rfl, .refl _⟩
  · rw [hProgram]
    exact fun e hMem _ _ _ => hMem
  refine .of_bodiless hMethod hBody ?_ (fun _ => rfl) (fun _ => hOrder.bare (.inl hProvided))
    (by rintro ⟨⟩) (by rintro ⟨⟩) ?_
  · simp [hTree, ← hOrder.body, hBody]
  · -- a provided method is not exported
    rw [hProgram]
    intro e hMem hTarget
    rcases hOrder.exports e hMem hTarget with hIs | hIs
    · simp [Method.isWritten, hProvided] at hIs
    · rw [(hOrder.apart hIs).2] at hProvided
      cases hProvided

/- What was provided before is forgotten. -/
theorem forgetProvided_ok (hRooted : Rooted ctx) (hNew : (ctx.program.method m).isWritten = false)
    (hIn : m.index < ctx.program.methods.size) (hRun : forgetProvided m ctx = .ok () ctx') :
    Evolves ctx ctx' ∧ (ctx'.program.method m).flags.synthesized = false
      ∧ (ctx'.program.method m).isWritten = false := by
  rw [forgetProvided, program_bind] at hRun
  split at hRun
  · rename_i hProvided
    rcases bind_ok hRun with ⟨_, ctx₁, hDiscard, hRun⟩
    rcases discardBody_ok hRooted hNew hDiscard with ⟨hFirst, hProgram⟩
    cases hRun
    have hIn₁ : m.index < ctx₁.program.methods.size := by
      rw [hProgram]
      simpa [Program.modifyMethod] using hIn
    have hMethod : ctx₁.program.method m = (ctx.program.method m).bodiless := by
      rw [hProgram, Program.method_modifyMethod_self _ hIn]
    have hNew₁ : (ctx₁.program.method m).isWritten = false := by
      rw [hMethod]
      exact hNew
    have hProvided₁ : (ctx₁.program.method m).flags.synthesized = true := by
      rw [hMethod]
      exact hProvided
    have hLasts : Lasts none ctx₁.program (ctx₁.program.modifyMethod m forgotten) :=
      .modifyMethod ⟨rfl, rfl, rfl⟩ (by simp [hNew₁]) (fun _ _ _ _ => rfl) fun hIs => by
          rw [((hFirst.rooted.inOrder m).apart hIs).2] at hProvided₁
          cases hProvided₁
    refine ⟨hFirst.trans ⟨rfl, .refl _, hLasts, settled_forgotten hFirst.rooted hIn₁ ?_ ?_ hLasts
      rfl rfl⟩, ?_, ?_⟩
    · rw [hMethod]
      rfl
    · exact hProvided₁
    · rw [Program.method_modifyMethod_self _ hIn₁]
    · rw [Program.method_modifyMethod_self _ hIn₁]
      rfl
  · rename_i hNot
    cases hRun
    exact ⟨Lasting.refl (R := Evolving) ctx hRooted, by simpa using hNot, hNew⟩

end Build

-- The Start Of A Definition

/- A method that is declared and that nothing defines yet. -/
structure Undefined (p : Program) (c : ClassId) (name : String) (scope : MethodScope)
    (m : MethodId) : Prop where
  own : p.ownMethod? c name scope = some m
  isIn : m.index < p.methods.size
  unwritten : (p.method m).isWritten = false
  synthesized : (p.method m).flags.synthesized = false

theorem Undefined.ownedBy (hUndefined : Undefined ctx.program c name scope m) (hRooted : Rooted ctx)
    (hClass : c.index < ctx.program.classes.size) : ctx.program.OwnedBy m c := by
  rcases hRooted.regular.indexed.own hUndefined.own with ⟨hIn, hOwner, _⟩
  exact ⟨hIn, hOwner, hClass, hRooted.regular.fields c⟩

/- It has no body from before. -/
theorem Undefined.bodiless (hUndefined : Undefined ctx.program c name scope m)
    (hRooted : Rooted ctx) : (ctx.program.method m).body = none := by
  by_contra hBody
  have hIs := (hRooted.inOrder m).implemented hBody
  have hNot := hUndefined.unwritten
  simp [Method.isWritten, hIs, hUndefined.synthesized] at hNot

namespace Build

/- A definition starts with an empty function below the place of the definition. -/
theorem beginMethod_ok (hPlace : Grouping ctx.tree p)
    (hRooted : Rooted ctx) (hRun : beginMethod p c name scope span ctx = .ok (m, n) ctx') :
    ∃ ctx₁, Evolves ctx ctx₁ ∧ Undefined ctx₁.program c name scope m ∧ ctx'.options = ctx₁.options
      ∧ Grown ctx₁.tree ctx'.tree p [.leaf n (.function m) .none]
      ∧ ctx'.program = ctx₁.program.modifyMethod m (startedMethod n span) := by
  simp only [beginMethod, get_bind, Context.methodOf?_grouping hPlace,
    declare_bind, program_bind] at hRun
  generalize hDeclared : ctx.program.declareMethod c name scope span = declared at hRun
  rcases declared with ⟨k, p₁⟩
  have hFirst : Evolving ctx { ctx with program := p₁ } := by
    refine .of_declaring ⟨rfl, ?_⟩
    have hDeclares : Declares none ctx.program _ := .declareMethod ctx.program c name scope span
    rwa [hDeclared] at hDeclares
  have hOwn := ownMethod?_declareMethod ctx.program c name scope span
  rw [hDeclared] at hOwn
  have hOne := hFirst hRooted
  have hIn := (hOne.rooted.regular.indexed.own hOwn).1
  rcases guard_ok (bind_not_ok fun _ _ => throw_ok) hRun with ⟨hFree, hRun⟩
  have hNew : (p₁.method k).isWritten = false := by simpa [Method.isWritten] using hFree
  rcases bind_ok hRun with ⟨_, ctx₂, hForget, hRun⟩
  rcases forgetProvided_ok hOne.rooted hNew hIn hForget with ⟨hTwo, hSynthesized, hUnwritten⟩
  have hEvolves := hOne.trans hTwo
  rcases bind_ok hRun with ⟨node, ctx₃, hAdd, hRun⟩
  have hAdds := addNodeAt_ok (hPlace.steps hEvolves.tree).isOpen hAdd
  have hSame := hAdds.same
  cases hRun
  have hOwn₂ := hTwo.names.ownMethod?_eq_some hOwn
  have hIn₂ := Nat.lt_of_lt_of_le hIn hTwo.names.methods_le
  refine ⟨ctx₂, hEvolves, ⟨hOwn₂, hIn₂, hUnwritten, hSynthesized⟩, ?_, hAdds.grow, ?_⟩
  · rw [hSame]
  · rw [hSame]

end Build

-- Parameters And Statements

variable {f : Fragment}

namespace Lower

variable {d : Descent} {s s' : LowerState}

/- An export that waits for a definition is carried out. -/
theorem exportPending_ok (hRun : exportPending target s = .ok () s') :
    Declaring target.method? s.ctx s'.ctx ∧ Lasts none s.ctx.program s'.ctx.program
      ∧ s'.loader = s.loader := by
  rcases bind_ok hRun with ⟨_, _, hGet, hRun⟩
  cases hGet
  rcases hPending : s.pending with _ | pending
  · simp only [hPending] at hRun
    cases hRun
    exact ⟨Lasting.refl s.ctx, .refl none _, rfl⟩
  simp only [hPending] at hRun
  rcases bind_ok hRun with ⟨_, s₁, hSet, hRun⟩
  cases hSet
  rcases lift_ok hRun with ⟨ctx', hExport, rfl⟩
  exact ⟨exportAs_declaring target _ _ _ _ _ hExport, exportAs_lasts hExport, rfl⟩

/- New parameters of a method, all of them narrow numbers. -/
def withParams (names : List String) (x : Method) : Method :=
  { x with params := x.params ++ names.map (⟨·, .i32⟩) }

/- Names that parameters can have. -/
structure ParamNames (nodes : List Node) (names : List String) : Prop where
  tags : ∀ node ∈ nodes, node.tag = .param
  symbols : nodes.map (·.symbolAt 0) = names.map .ok
  receiver : receiverName ∉ names

theorem declares_withParams (names : List String) :
    Declares (some m) p (p.modifyMethod m (withParams names)) :=
  .modifyMethod ⟨rfl, rfl, rfl⟩ rfl (.of_flags rfl fun _ _ => .inl) (by simp) id

theorem methodParam_ok (hRun : Build.methodParam m name span ctx = .ok () ctx') :
    (∀ slot ∈ (ctx.program.method m).params, slot.name ≠ name) ∧ name ≠ receiverName ∧ { ctx with
          program := ctx.program.modifyMethod m (·.addParam name .i32) }
        = ctx' := by
  rw [Build.methodParam, Build.program_bind] at hRun
  rcases guard_ok (Step.bind_not_ok fun _ _ => throw_ok) hRun with ⟨hFree, hRun⟩
  cases hRun
  simp only [Method.param?, Bool.or_eq_true, not_or, beq_iff_eq, Bool.not_eq_true,
    Option.isSome_eq_false_iff, Option.isNone_iff_eq_none, List.find?_eq_none] at hFree
  exact ⟨hFree.1, hFree.2, rfl⟩

theorem parameters_ok (hIn : m.index < s.ctx.program.methods.size)
    (hRun : parameters m nodes s = .ok () s') :
    ∃ names, ParamNames nodes names ∧ s'.ctx =
        { s.ctx with program := s.ctx.program.modifyMethod m (withParams names) }
      ∧ (((s.ctx.program.method m).params.map (·.name)).Nodup →
        ((s.ctx.program.method m).params.map (·.name) ++ names).Nodup)
      ∧ s'.loader = s.loader := by
  induction nodes generalizing s with
  | nil =>
    cases hRun
    refine ⟨[], ⟨by simp, rfl, by simp⟩, ?_, by simp, rfl⟩
    rw [Program.modifyMethod_eq_self (by simp [withParams])]
  | cons node nodes ih =>
    by_cases hTag : node.tag = .param
    · rw [parameters, if_pos hTag] at hRun
      rcases need_step hRun with ⟨name, hName, hRest⟩
      rcases build_step hRest with ⟨_, ctx₁, hParam, hRest⟩
      rcases methodParam_ok hParam with ⟨hFree, hReceiver, rfl⟩
      rcases ih (by simpa [Program.modifyMethod] using hIn) hRest with
        ⟨names, hNames, hCtx, hNodup, hLoader⟩
      refine ⟨name :: names, ⟨?_, ?_, ?_⟩, ?_, ?_, hLoader⟩
      · exact List.forall_mem_cons.mpr ⟨hTag, hNames.tags⟩
      · simp [hName, hNames.symbols]
      · simp [Ne.symm hReceiver, hNames.receiver]
      · have hAll :
            (fun x => withParams names (x.addParam name .i32)) = withParams (name :: names) := by
          funext x
          simp [withParams, Method.addParam]
        rw [hCtx, Program.modifyMethod_modifyMethod, hAll]
      · intro hOld
        rw [Program.method_modifyMethod_self _ hIn] at hNodup
        simp only [Method.addParam, List.map_append, List.map_cons, List.map_nil, List.append_assoc,
          List.singleton_append] at hNodup
        refine hNodup ?_
        rw [List.nodup_append]
        refine ⟨hOld, by simp, ?_⟩
        rintro a hA b hB rfl
        rw [List.mem_singleton] at hB
        subst hB
        rcases List.mem_map.mp hA with ⟨slot, hSlot, hEq⟩
        exact hFree slot hSlot hEq
    · rw [parameters, if_neg hTag] at hRun
      exact (refuse_ok hRun).elim

/- The statements of a method. -/
theorem methodBody_ok (hDescent : Faithful d) (hInside : Inside E s n)
    (hRun : methodBody d E.method n nodes s = .ok () s') :
    ∃ fs, LowersBody E nodes s.ctx.program s'.ctx.program fs ∧ Places s s' n fs := by
  induction nodes generalizing s with
  | nil =>
    cases hRun
    exact ⟨[], .nil, .refl _ n⟩
  | cons node nodes ih =>
    cases nodes with
    | nil =>
      rw [methodBody, program_bind] at hRun
      rcases bind_ok hRun with ⟨result, s₁, hNode, hEnd⟩
      cases hEnd
      rcases hDescent E s _ n node _ result hInside hNode with ⟨gs, out, hLowers, _, hPlaces⟩
      exact ⟨_, .last hLowers, hPlaces⟩
    | cons next nodes =>
      rcases bind_ok hRun with ⟨_, s₁, hNode, hRest⟩
      rcases hDescent E s s₁ n node false _ hInside hNode with ⟨gs, out, hLowers, _, hFirst⟩
      rcases ih (hInside.after hFirst) hRest with ⟨hs, hBody, hSecond⟩
      exact ⟨_, .next hLowers hBody, hFirst.trans hInside.isOpen hSecond⟩

end Lower

-- The End Of A Definition

/- What was put below a node is taken off again. -/
theorem Code.Grown.detach (hOpen : Open t p)
    (hGrown : Grown t t₁ p [f]) : Grown t (t₁.detach f.id) p [] := by
  have hHung := hGrown.hung hOpen (.head _)
  have hFresh : t.size ≤ f.id.index := hGrown.fresh f.id (by simp [f.id_mem_ids])
  have hIn := hOpen.isIn
  have hNe : p ≠ f.id := by
    rintro rfl
    omega
  rcases Tree.nodes_detach hHung.isOpen.isIn hHung.held.isIn hNe
    hHung.parent with ⟨hSize, _, hP, hOther⟩
  have hLe := hGrown.size_le
  constructor
  · omega
  · intro n hN hNeP
    rw [hOther n hNeP (by rintro rfl; omega)]
    exact hGrown.outside n hN hNeP
  · rw [hP, hGrown.children, hGrown.link]
    have hOld : ∀ c ∈ t.children p, ¬ c = f.id := by
      rintro c hChild rfl
      have := hOpen.children f.id hChild
      omega
    simpa [List.filter_append] using hOld
  · simp
  · simp
  · simp
  · exact fun hLabels => (hGrown.labels hLabels).detach f.id

namespace Build

variable {ctx' : Context} {p : NodeId}

/- A last value that is made to fit. -/
theorem fitLast_ok (hHung : Hung ctx.tree p last) (hRun : fitLast m last.id ctx = .ok () ctx') :
    ∃ last', ((ctx.program.method m).result = .none ∧ Discards false last last'
        ∨ (ctx.program.method m).result ≠ .none
          ∧ Casts true (ctx.program.method m).result last last')
      ∧ Rewrites ctx ctx' p last last' := by
  simp only [fitLast, program_bind, tyOf_bind, spanOf_bind, hHung.held.ty] at hRun
  by_cases hNone : (ctx.program.method m).result = .none
  · rw [if_pos (by simpa using hNone)] at hRun
    rcases bind_ok hRun with ⟨n, ctx₁, hKeep, hEnd⟩
    cases hEnd
    rcases keepOrDrop_ok hHung hKeep with ⟨last', hDiscards, _, hStep⟩
    exact ⟨last', .inl ⟨hNone, hDiscards⟩, hStep⟩
  · rw [if_neg (by simpa using hNone)] at hRun
    split at hRun
    · rcases bind_ok hRun with ⟨n, ctx₁, hCast, hEnd⟩
      cases hEnd
      rcases cast_ok hHung hCast with ⟨last', hCasts, _, hStep⟩
      exact ⟨last', .inr ⟨hNone, hCasts⟩, hStep⟩
    · exact (resultMismatch_ok hRun).elim

/- A body whose last value is made to fit. -/
theorem finishMethod_ok (hHung : Hung ctx.tree p f)
    (hImported : (ctx.program.method m).flags.imported = false)
    (hRun : finishMethod m f.id ctx = .ok () ctx') :
    ∃ fs, Finishes (ctx.program.method m).result f.children fs
      ∧ Rewrites ctx ctx' p f { f with children := fs } := by
  rw [finishMethod, program_bind] at hRun
  simp only [hImported, Bool.false_eq_true, if_false, tree_bind] at hRun
  rcases List.eq_nil_or_concat f.children with hNil | ⟨before, last, hEq⟩
  · have hLast : ctx.tree.lastChild? f.id = none := by
      rw [Tree.lastChild?, hHung.held.children, hNil]
      rfl
    simp only [hLast] at hRun
    by_cases hNone : (ctx.program.method m).result = .none
    · rw [if_neg (by simpa using hNone)] at hRun
      cases hRun
      refine ⟨[], ?_, ?_⟩
      · rw [hNil]
        exact .empty hNone
      · rw [← hNil, f.eta]
        exact .refl hHung
    · rw [if_pos (by simpa using hNone)] at hRun
      rw [spanOf_bind] at hRun
      exact (resultMismatch_ok hRun).elim
  · rw [List.concat_eq_append] at hEq
    have hLast : ctx.tree.lastChild? f.id = some last.id := by
      rw [Tree.lastChild?, hHung.held.children, hEq]
      simp
    have hHungL : Hung ctx.tree f.id last := hHung.child (by simp [hEq])
    simp only [hLast, instrOf_bind, hHungL.held.instr] at hRun
    by_cases hEnds : last.instr.isTerminator = true
    · rw [if_neg (by simpa using hEnds)] at hRun
      cases hRun
      refine ⟨f.children, ?_, ?_⟩
      · rw [hEq]
        exact .terminated hEnds
      · rw [f.eta]
        exact .refl hHung
    · rw [if_pos (by simpa using hEnds)] at hRun
      rcases fitLast_ok hHungL hRun with ⟨last', hFits, hStep⟩
      refine ⟨before ++ [last'], ?_, .inside hHung hEq hStep⟩
      rw [Bool.not_eq_true] at hEnds
      rw [hEq]
      rcases hFits with ⟨hNone, hDiscards⟩ | ⟨hNone, hCasts⟩
      · exact .blank hNone hEnds hDiscards
      · exact .value hNone hEnds hCasts

end Build

-- Whole Definitions

variable {n : NodeId} {ctx' : Context}
variable {gs : List Fragment} {s : LowerState}
variable {span : Span}

/- A method when its parameters are known and its code is not. -/
structure Started (names : List String) (x : Method) : Prop where
  isWritten : x.isWritten = true
  params_eq : x.params = names.map (⟨·, .i32⟩)
  locals_eq : x.locals = []

/-
  A method that its definition made complete: its code comes from its statements, with the names
  that were declared before and after them.
-/
structure Completes (E : Env) (names : List String) (nodes : List Node)
    (ctx : Context) (p₀ p₁ : Program) (f : Fragment) : Prop where
  started : Started names (p₀.method E.method)
  code : ∃ gs, LowersBody E nodes p₀ p₁ gs ∧ Finishes (p₁.method E.method).result gs f.children
  program_eq : ctx.program = p₁
  body_eq : (p₁.method E.method).body = some f.id
  imported_eq : (p₁.method E.method).flags.imported = false
  defined : Defined ctx.tree E.method f

/- A method that gets a body, whatever is declared meanwhile. -/
structure Program.Fills (m : MethodId) (n : NodeId) (p p' : Program) : Prop where
  lasts : Lasts (some m) p p'
  body_eq : (p'.method m).body = some n
  implemented : (p'.method m).flags.implemented = true
  others : ∀ k, k ≠ m → (p'.method k).body = (p.method k).body
        ∧ (p.method k).Marked False (p'.method k)
  exports : ∀ e ∈ p'.exports, ∀ k, k ≠ m → e.target = .method k → e ∈ p.exports

theorem Program.Fills.declares (hFills : Fills m n p p₁)
    (hDeclares : Declares (some m) p₁ p₂) : Fills m n p p₂ where
  lasts := hFills.lasts.trans hDeclares.lasts
  body_eq := (hDeclares.body_eq m).trans hFills.body_eq
  implemented := (hDeclares.marked m).implemented_eq.trans hFills.implemented
  others := by
    intro k hNe
    rcases hFills.others k hNe with ⟨hBody, hMarked⟩
    refine ⟨(hDeclares.body_eq k).trans hBody, hMarked.trans ?_⟩
    simpa [Ne.symm hNe] using hDeclares.marked k
  exports := by
    intro e hMem k hNe hTarget
    rcases hDeclares.exports e hMem with hOld | hNew
    · exact hFills.exports e hOld k hNe hTarget
    · cases hNew k hTarget
      exact absurd rfl hNe

/- A method in the middle of its definition, with the code that it has so far. -/
structure Defining (ctx ctx' : Context) (p n : NodeId) (m : MethodId) (gs : List Fragment) :
    Prop where
  place : Grouping ctx.tree p
  settled : Settled (some m) ctx
  unwritten : (ctx.program.method m).isWritten = false
  bodiless : (ctx.program.method m).body = none
  options_eq : ctx'.options = ctx.options
  grow : Grown ctx.tree ctx'.tree p [⟨n, .function m, .none, gs⟩]
  fills : Fills m n ctx.program ctx'.program

namespace Defining

variable {ctx₁ ctx₂ : Context} {p : NodeId}
variable {fs : List Fragment}

section

variable (hDefining : Defining ctx ctx₁ p n m gs)
include hDefining

theorem hung : Hung ctx₁.tree p ⟨n, .function m, .none, gs⟩ :=
  hDefining.grow.hung hDefining.place.isOpen (.head _)

/- More is declared, and the code is edited. -/
theorem rework (hOptions : ctx₂.options = ctx₁.options)
    (hDeclares : Declares (some m) ctx₁.program ctx₂.program)
    (hEdit : Edited ctx₁.tree ctx₂.tree p ⟨n, .function m, .none, gs⟩ ⟨n, .function m, .none, fs⟩) :
    Defining ctx ctx₂ p n m fs := by
  have hSplit : Grown ctx.tree ctx₁.tree p ([] ++ ⟨n, .function m, .none, gs⟩ :: []) :=
    hDefining.grow
  exact ⟨hDefining.place, hDefining.settled, hDefining.unwritten, hDefining.bodiless, hOptions.trans
    hDefining.options_eq, hSplit.edit hDefining.place.isOpen hEdit, hDefining.fills.declares
    hDeclares⟩

theorem declare (hSame : ctx₂ = { ctx₁ with program := ctx₂.program })
    (hDeclares : Declares (some m) ctx₁.program ctx₂.program) : Defining ctx ctx₂ p n m gs := by
  refine hDefining.rework (by rw [hSame]) hDeclares ?_
  have hTree : ctx₂.tree = ctx₁.tree := by rw [hSame]
  rw [hTree]
  exact .refl hDefining.hung

end

/- The place of the first statement. -/
theorem inside (hDefining : Defining ctx s.ctx p n m gs) :
    Lower.Inside ⟨ctx.options.foldConstants, m, none⟩ s n where
  fold_eq := by rw [hDefining.options_eq]
  place := .function hDefining.hung.held.isIn hDefining.hung.held.instr
  isOpen := hDefining.hung.root_isOpen

/-
  A program is settled after a definition if the method is in
  order; the others are not concerned.
-/
theorem settled_after (hDefining : Defining ctx ctx₁ p n m gs)
    (hSteps : Steps ctx.tree ctx₂.tree) (hLasts : Lasts none ctx.program ctx₂.program)
    (hGrown : Grown ctx.tree ctx₂.tree p hs) (hNew : ∀ f ∈ hs, f.instr = .function m)
    (hOthers : ∀ k, k ≠ m → ctx₂.program.method k = ctx₁.program.method k)
    (hExports : ctx₂.program.exports = ctx₁.program.exports)
    (hOwn : (∀ k, ctx₂.tree.Defines m k ↔ ∃ f ∈ hs, f.id = k) → InOrder False ctx₂ m) :
    Rooted ctx₂ := by
  have hSettled := hDefining.settled
  have hAttached := hDefining.place.attached
  have hEmpty : ∀ f ∈ hs, f.instr.isGroup = true → f.children = [] := by
    intro f hF hIs
    rw [hNew f hF] at hIs
    contradiction
  have hDefines : ∀ k q, ctx₂.tree.Defines k q ↔ ctx.tree.Defines k q
          ∨ ∃ f ∈ hs, f.id = q ∧ f.instr = .function k :=
    fun k q => hSettled.outlined.defines_grown hAttached hGrown hEmpty
  refine hSettled.replace hSteps hLasts
    (hSettled.outlined.grown hAttached hGrown hEmpty) ?_ ?_ ?_ ?_
  · intro k hNe q
    rw [hDefines, or_iff_left]
    rintro ⟨f, hF, _, hInstr⟩
    rw [hNew f hF] at hInstr
    cases hInstr
    exact hNe rfl
  · intro k hNe
    rw [hOthers k hNe]
    exact hDefining.fills.others k hNe
  · rw [hExports]
    exact hDefining.fills.exports
  refine (hOwn fun q => ?_).of_same False.elim (.refl _)
    (.refl none _) (fun _ => .rfl) rfl (.refl _) fun _ hMem _ => hMem
  rw [hDefines, ← (hSettled.inOrder m).body, hDefining.bodiless]
  constructor
  · rintro (hNone | ⟨f, hF, hId, _⟩)
    · cases hNone
    · exact ⟨f, hF, hId⟩
  · rintro ⟨f, hF, hId⟩
    exact .inr ⟨f, hF, hId, hNew f hF⟩

/- A method whose code is complete. -/
theorem evolves (hDefining : Defining ctx ctx₁ p n m gs)
    (hImported : (ctx₁.program.method m).flags.imported = false)
    (hExports :
      ∀ e ∈ ctx₁.program.exports, e.target = .method m → (ctx₁.program.method m).isWritten = true)
    (hCoded : Coded gs) (hProvides : (ctx₁.program.method m).Provides gs)
    (hBare : (ctx₁.program.method m).Bare) (hOwned : ctx₁.program.Owned m)
    (hAllows : ∀ g ∈ gs, g.Accesses (ctx₁.program.Allows m)) :
    Evolves ctx ctx₁ ∧ Defined ctx₁.tree m ⟨n, .function m, .none, gs⟩ := by
  have hHung := hDefining.hung
  have hPlace := hDefining.place
  have hFills := hDefining.fills
  have hDefined : Defined ctx₁.tree m ⟨n, .function m, .none, gs⟩ :=
    ⟨hHung.held, rfl, hCoded, hHung.nodup⟩
  have hSteps : Steps ctx.tree ctx₁.tree := by
    refine .of_grown hPlace.isOpen.isIn hPlace.isGroup hDefining.grow ?_
    rw [List.forall_mem_singleton]
    exact .function hDefined
  have hLasts := hFills.lasts.after_definition hDefining.unwritten
  refine ⟨⟨hDefining.options_eq, hSteps, hLasts, ?_⟩, hDefined⟩
  refine hDefining.settled_after hSteps hLasts hDefining.grow
    (by simp) (fun _ _ => rfl) rfl fun hDefines => ?_
  constructor
  · intro k
    rw [hDefines, hFills.body_eq]
    simp
  · rw [hFills.body_eq]
    rintro k ⟨⟩
    exact ⟨_, rfl, hDefined, .above rfl hAllows, hProvides⟩
  · exact fun _ => hFills.implemented
  · rw [hFills.body_eq]
    simp
  · exact hBare
  · intro hIs
    rw [hImported] at hIs
    cases hIs
  · exact fun _ => hOwned
  · exact fun e hMem hTarget => .inl (hExports e hMem hTarget)

end Defining

namespace Build

variable {p : NodeId}

/- A method that has just been started. -/
theorem lasts_startedMethod (P : Program) (n : NodeId) (span : Span) :
    Lasts (some m) P (P.modifyMethod m (startedMethod n span)) := by
  refine .modifyMethod ⟨rfl, rfl, rfl⟩ (by simp) ?_ id
  intro hDefault hScope hNew hFree
  have hClass : (P.method m).isInstance = false := by
    simp only [startedMethod] at hScope
    simp [Method.isInstance, hScope]
  simp only [startedMethod, hClass, Bool.false_eq_true, false_and, and_false, if_false]
  exact hDefault hScope hNew hFree

theorem fills_startedMethod {P : Program} (hIn : m.index < P.methods.size) :
    P.Fills m n (P.modifyMethod m (startedMethod n span)) where
  lasts := lasts_startedMethod P n span
  body_eq := by
    rw [method_modifyMethod_self _ hIn]
    rfl
  implemented := by
    rw [method_modifyMethod_self _ hIn]
    rfl
  others := by
    intro k hNe
    rw [method_modifyMethod_of_ne _ hNe]
    exact ⟨rfl, .refl _⟩
  exports := fun _ hMem _ _ _ => hMem

theorem defining_startedMethod (hPlace : Grouping ctx.tree p) (hRooted : Rooted ctx)
    (hUndefined : Undefined ctx.program c name scope m) (hOptions : ctx'.options = ctx.options)
    (hGrown : Grown ctx.tree ctx'.tree p [.leaf n (.function m) .none])
    (hProgram : ctx'.program = ctx.program.modifyMethod m (startedMethod n span)) :
    Defining ctx ctx' p n m [] := by
  refine ⟨hPlace, hRooted.while_busy, hUndefined.unwritten,
    hUndefined.bodiless hRooted, hOptions, hGrown, ?_⟩
  rw [hProgram]
  exact fills_startedMethod hUndefined.isIn

end Build

namespace Lower

variable {d : Descent} {s' : LowerState} {p : NodeId}

/- The statements of a definition. -/
def statementsOf : Option Node → List Node
  | some body => bodyStatements body
  | none => []

theorem checkImported_ok (hRun : checkImported m n span ctx = .ok () ctx') :
    ctx = ctx' ∧ ((ctx.program.method m).flags.imported = true → ctx.tree.children n = []) := by
  rw [checkImported, Build.program_bind, Build.childrenOf_bind] at hRun
  rcases guard_ok throw_ok hRun with ⟨hEmpty, hRun⟩
  cases hRun
  exact ⟨rfl, fun hImported => by simpa [hImported] using hEmpty⟩

/- Parameters and an export in front of the statements. -/
theorem header_ok (hIn : m.index < ctx.program.methods.size)
    (hNew : (ctx.program.method m).flags.synthesized = false)
    (hDefining : Defining ctx s.ctx p n m [])
    (hProgram : s.ctx.program = ctx.program.modifyMethod m (startedMethod n span))
    (hExport : exportPending (.method m) s = .ok () s₁) (hRun : parameters m nodes s₁ = .ok () s') :
    ∃ names, ParamNames nodes names ∧ names.Nodup ∧ Started names (s'.ctx.program.method m)
      ∧ Defining ctx s'.ctx p n m []
      ∧ s'.loader = s.loader := by
  rcases exportPending_ok hExport with ⟨hExports, hLasts, hLoader₁⟩
  have hDefining₁ := hDefining.declare hExports.same hExports.program
  have hStart : s.ctx.program.method m = startedMethod n span (ctx.program.method m) := by
    rw [hProgram, method_modifyMethod_self _ hIn]
  have hWritten : (s.ctx.program.method m).isWritten = true := by
    rw [hStart]
    simp [startedMethod, Method.isWritten, hNew]
  have hKept := hLasts.kept m (by simp) hWritten
  have hIn₁ := index_lt_of_isWritten hKept.isWritten
  have hParams : (s₁.ctx.program.method m).params = [] := by
    rw [hKept.params_eq, hStart]
    rfl
  rcases parameters_ok hIn₁ hRun with ⟨names, hNames, hCtx, hNodup, hLoader⟩
  have hMethod : s'.ctx.program.method m = withParams names (s₁.ctx.program.method m) := by
    rw [hCtx]
    exact method_modifyMethod_self _ hIn₁
  refine ⟨names, hNames, ?_, ⟨?_, ?_, ?_⟩, ?_, hLoader.trans hLoader₁⟩
  · simpa [hParams] using hNodup
  · rw [hMethod]
    exact hKept.isWritten
  · rw [hMethod, withParams, hParams]
    rfl
  · rw [hMethod, withParams, hKept.locals_eq, hStart]
    rfl
  · refine hDefining₁.declare (by rw [hCtx]) ?_
    rw [hCtx]
    exact declares_withParams names

/- The statements below the function, and what comes next. -/
theorem definedBody_ok {next : Unit → Lower Unit} (hDescent : Faithful d)
    (hDefining : Defining ctx s.ctx p n m [])
    (hRun : (match body with
        | some body => methodBody d m n (bodyStatements body) >>= next
        | none => next ()) s = .ok () s') :
    ∃ s₁ gs, LowersBody ⟨ctx.options.foldConstants, m, none⟩
        (statementsOf body) s.ctx.program s₁.ctx.program gs
      ∧ Defining ctx s₁.ctx p n m gs
      ∧ s₁.loader = s.loader
      ∧ next () s₁ = .ok () s' := by
  cases body with
  | none => exact ⟨s, [], .nil, hDefining, rfl, hRun⟩
  | some body =>
    rcases bind_ok hRun with ⟨_, s₁, hNodes, hRest⟩
    have hInside := hDefining.inside
    rcases methodBody_ok hDescent hInside hNodes with ⟨gs, hBody, hPlaces⟩
    refine ⟨s₁, gs, hBody, ?_, hPlaces.loader_eq, hRest⟩
    exact hDefining.rework hPlaces.options_eq (lowersBody_declares hBody)
      (hPlaces.grow.edited hDefining.hung)

/- The code of a method that the host provides goes away. -/
theorem dropImportedBody_ok (hDefining : Defining ctx ctx₁ p n m gs)
    (hWritten : (ctx₁.program.method m).isWritten = true)
    (hImported : (ctx₁.program.method m).flags.imported = true) (hOwned : ctx.program.Owned m)
    (hRun : dropImportedBody m n ctx₁ = .ok () ctx') : Evolves ctx ctx' := by
  have hLasts : Lasts none ctx.program ctx'.program := by
    cases hRun
    refine Lasts.after_definition (hDefining.fills.lasts.trans ?_) hDefining.unwritten
    exact .modifyMethod ⟨rfl, rfl, rfl⟩ (by simp) id id
  have hStill := hOwned.lasts hLasts
  cases hRun
  have hPlace := hDefining.place
  have hGrown := hDefining.grow.detach hPlace.isOpen
  have hSteps : Steps ctx.tree (ctx₁.tree.detach n) :=
    .of_grown hPlace.isOpen.isIn hPlace.isGroup hGrown (by simp)
  have hIn := index_lt_of_isWritten hWritten
  refine ⟨hDefining.options_eq, hSteps, hLasts, ?_⟩
  refine hDefining.settled_after hSteps hLasts hGrown (by simp) ?_ rfl fun hDefines => ?_
  · intro k hNe
    exact method_modifyMethod_of_ne _ hNe
  · simp only [Method.isWritten, Bool.and_eq_true, Bool.not_eq_true'] at hWritten
    refine .of_bodiless (method_modifyMethod_self _ hIn) rfl (by simp [hDefines]) (fun _ => rfl) ?_
      (fun _ => ⟨rfl, hWritten.2⟩) (fun _ => hStill) fun _ _ _ => .inr hImported
    simp [Method.Bare, hWritten.2, hImported]

/-
  What a definition made of its method: one that the host
  provides, without code, or a complete one.
-/
inductive Realizes (E : Env) (parts : MethodParts) (ctx : Context) : Prop where
  | imported {names : List String} {p₀ p₁ : Program} (hNames : ParamNames parts.params.nodes names)
      (hNodup : names.Nodup) (hBody : LowersBody E (statementsOf parts.body) p₀ p₁ [])
      (hImported : (ctx.program.method E.method).flags.imported = true) : Realizes E parts ctx
  | written {names : List String} {p₀ p₁ : Program} {f : Fragment}
      (hNames : ParamNames parts.params.nodes names) (hNodup : names.Nodup)
      (hCompletes : Completes E names (statementsOf parts.body) ctx p₀ p₁ f) : Realizes E parts ctx

/- A definition that compiles. -/
theorem methodFrom_ok {node : Dump.Node} {singleton : Bool} {parts : MethodParts}
    (hDescent : Faithful d) (hPlace : Grouping s.ctx.tree p) (hRooted : Rooted s.ctx)
    (hClass : (s.ctx.classOf p).index < s.ctx.program.classes.size)
    (hRun : methodFrom d p node singleton parts s = .ok () s') :
    Evolves s.ctx s'.ctx ∧ s'.loader = s.loader ∧ ∃ m,
        s'.ctx.program.ownMethod? (s.ctx.classOf p) parts.name
            (definedScope s.ctx p singleton) = some m
          ∧ Realizes ⟨s.ctx.options.foldConstants, m, none⟩ parts s'.ctx := by
  rw [methodFrom, context_bind] at hRun
  rcases build_step hRun with ⟨⟨m, n⟩, ctx₁, hBegin, hRun⟩
  rcases Build.beginMethod_ok hPlace hRooted hBegin with
    ⟨ctx, hEvolves, hUndefined, hOptions, hGrown, hProgram⟩
  have hPlace₁ := hPlace.steps hEvolves.tree
  have hBegun :=
    Build.defining_startedMethod hPlace₁ hEvolves.rooted hUndefined hOptions hGrown hProgram
  rcases bind_ok hRun with ⟨_, s₁, hExport, hRun⟩
  rcases bind_ok hRun with ⟨_, s₂, hParams, hRun⟩
  rcases header_ok hUndefined.isIn hUndefined.synthesized hBegun hProgram hExport hParams with
    ⟨names, hNames, hNodup, hStarted, hHeader, hLoader₂⟩
  rcases definedBody_ok hDescent hHeader hRun with ⟨s₃, gs, hBody, hFilled, hLoader₃, hRun⟩
  rw [hEvolves.options_eq] at hBody
  rcases build_step hRun with ⟨_, ctx₂, hCheck, hRun⟩
  rcases checkImported_ok hCheck with ⟨rfl, hEmpty⟩
  rcases lift_ok hRun with ⟨ctx', hFinish, rfl⟩
  have hLoader : s₃.loader = s.loader := hLoader₃.trans hLoader₂
  have hMine := hUndefined.ownedBy hEvolves.rooted
    (Nat.lt_of_lt_of_le hClass hEvolves.names.classes_le)
  have hWritten := ((lowersBody_declares hBody).marked m).isWritten hStarted.isWritten
  rcases hImported : (s₃.ctx.program.method m).flags.imported with _ | _
  · rcases Build.finishMethod_ok hFilled.hung hImported hFinish with ⟨fs, hFits, hRewrites⟩
    have hSame := hRewrites.same
    have hDone : Defining ctx ctx' p n m fs := by
      refine hFilled.rework (by rw [hSame]) ?_ hRewrites.edit
      rw [hSame]
      exact .refl _ _
    have hProgram' : ctx'.program = s₃.ctx.program := by rw [hSame]
    have hOwned := hMine.lasts hHeader.fills.lasts
    have hOwned' := hOwned.lasts (lowersBody_declares hBody).lasts
    have hAllows := hFits.reshapes.accesses (lowersBody_accesses hBody hOwned)
    rcases hDone.evolves (by rw [hProgram', hImported]) (fun _ _ _ => by rw [hProgram', hWritten])
      (.written hBody hFits) (fun hIs => by
        rw [hProgram'] at hIs
        simp [Method.isWritten, hIs] at hWritten)
      (fun hIs => by
        rw [hProgram'] at hIs
        simp only [Method.isWritten, Bool.and_eq_true, Bool.not_eq_true'] at hWritten
        simp [hWritten.1, hWritten.2] at hIs)
      (by rw [hProgram']; exact hOwned'.owned)
      (fun f hF => (hAllows f hF).mono fun a hField => by
        rw [hProgram']
        exact hOwned'.allows hField) with ⟨hLast, hDefined⟩
    have hCompletes : Completes ⟨s.ctx.options.foldConstants, m, none⟩ names
          (statementsOf parts.body) ctx' s₂.ctx.program
          s₃.ctx.program ⟨n, .function m, .none, fs⟩ :=
      ⟨hStarted, ⟨gs, hBody, hFits⟩, hProgram', hFilled.fills.body_eq, hImported, hDefined⟩
    exact ⟨hEvolves.trans hLast, hLoader, m, hLast.names.ownMethod?_eq_some hUndefined.own,
      .written hNames hNodup hCompletes⟩
  · have hNil : gs = [] := by
      have hChildren := hFilled.hung.held.children
      rw [hEmpty hImported] at hChildren
      exact List.map_eq_nil_iff.mp hChildren.symm
    rw [Build.finishMethod, Build.program_bind, if_pos hImported] at hFinish
    have hLast := dropImportedBody_ok hFilled hWritten hImported hMine.owned hFinish
    refine ⟨hEvolves.trans hLast, hLoader, m, hLast.names.ownMethod?_eq_some hUndefined.own,
      .imported hNames hNodup (hNil ▸ hBody) ?_⟩
    cases hFinish
    dsimp only
    rw [method_modifyMethod_self _ (index_lt_of_isWritten hWritten)]
    exact hImported

end Lower

end RubyWat
