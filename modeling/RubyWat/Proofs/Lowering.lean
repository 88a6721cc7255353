import RubyWat.Proofs.Variables

/-
  The code of syntax inside of methods.

  Key definitions: `Lower.Inside`, `Lower.Places`, `Lower.Faithful`.

  Main statement: what the compiler puts below a node inside of a method is what the rules of
  the translation give (`lowerNode_faithful`).
-/

-- Steps From Syntax

namespace RubyWat

open Code Translation Build Dump Step Option

variable {keep : Bool} {f g : Fragment}
variable {p : NodeId} {ctx' : Context} {node receiver : Node}
variable {kind : Lower.VariableKind}
variable {s s' : LowerState} {span : Span} {E : Env}
variable {ty : ValueType}

/- A part that has to be there is one that may be. -/
theorem Dump.Node.node?_of_nodeAt (hPart : node.nodeAt index = .ok part) :
    node.node? index = some part := by
  unfold nodeAt require at hPart
  split at hPart
  · rename_i hFound
    cases hPart
    exact hFound
  · cases hPart

namespace Lower

variable {α : Type} {a : α}

/- A step on the code tree changes nothing else. -/
theorem build_ok (hRun : build step s = .ok a s') :
    ∃ ctx', step s.ctx = .ok a ctx' ∧ { s with ctx := ctx' } = s' := by
  rcases s with ⟨ctx, loader, pending, asking⟩
  simp only [build] at hRun
  split at hRun
  · cases hRun
    exact ⟨_, by assumption, rfl⟩
  · cases hRun

theorem lift_ok {step : Build α} (hRun : (liftM step : Lower α) s = .ok a s') :
    ∃ ctx', step s.ctx = .ok a ctx' ∧ { s with ctx := ctx' } = s' :=
  build_ok hRun

theorem need_ok (hRun : need found s = .ok a s') : found = .ok a ∧ s = s' := by
  cases found with
  | error e => exact (throw_ok hRun).elim
  | ok b =>
    cases hRun
    exact ⟨rfl, rfl⟩

/- Steps of other kinds at the front of a sequence. -/
theorem build_step {β : Type} {step : Build α} {next : α → Lower β} {b : β}
    (hRun : ((liftM step : Lower α) >>= next) s = .ok b s') :
    ∃ a ctx', step s.ctx = .ok a ctx' ∧ next a { s with ctx := ctx' } = .ok b s' := by
  rcases bind_ok hRun with ⟨a, s₁, hStep, hRest⟩
  rcases build_ok hStep with ⟨ctx', hBuild, rfl⟩
  exact ⟨a, ctx', hBuild, hRest⟩

theorem need_step {β : Type} {found : Except Malformed α} {next : α → Lower β} {b : β}
    (hRun : ((liftM found : Lower α) >>= next) s = .ok b s') :
    ∃ a, found = .ok a ∧ next a s = .ok b s' := by
  rcases bind_ok hRun with ⟨a, s₁, hStep, hRest⟩
  rcases need_ok hStep with ⟨hFound, rfl⟩
  exact ⟨a, hFound, hRest⟩

theorem refuse_ok (hRun : refuse fault s = .ok a s') : False :=
  throw_ok hRun

theorem context_bind {β : Type} (next : Context → Lower β) : (context >>= next) s = next s.ctx s :=
  rfl

theorem program_bind {β : Type} (next : Program → Lower β) :
    (program >>= next) s = next s.ctx.program s :=
  rfl

-- Placing Code

/- A node inside of a method where code may come. -/
structure Inside (E : Env) (s : LowerState) (p : NodeId) : Prop where
  fold_eq : s.ctx.options.foldConstants = E.fold
  place : InMethod s.ctx.tree E.method E.loop p
  isOpen : Open s.ctx.tree p

/- A step that puts fragments below a node and reads no unit. -/
structure Places (s s' : LowerState) (p : NodeId) (fs : List Fragment) : Prop where
  options_eq : s'.ctx.options = s.ctx.options
  loader_eq : s'.loader = s.loader
  grow : Grown s.ctx.tree s'.ctx.tree p fs

namespace Places

variable {s₁ s₂ : LowerState}

theorem refl (s : LowerState) (p : NodeId) : Places s s p [] :=
  ⟨rfl, rfl, .refl s.ctx.tree p⟩

theorem trans (hOpen : Open s.ctx.tree p) (hFirst : Places s s₁ p fs)
    (hSecond : Places s₁ s₂ p gs) : Places s s₂ p (fs ++ gs) :=
  ⟨hSecond.options_eq.trans hFirst.options_eq, hSecond.loader_eq.trans hFirst.loader_eq,
    hFirst.grow.trans hOpen hSecond.grow⟩

theorem hung (hPlaces : Places s s₁ p fs) (hOpen : Open s.ctx.tree p) (hMem : f ∈ fs) :
    Hung s₁.ctx.tree p f :=
  hPlaces.grow.hung hOpen hMem

section

variable (hPlaces : Places s s₁ p (before ++ f :: after)) (hOpen : Open s.ctx.tree p)
include hPlaces hOpen

/- What was put below a node is edited. -/
theorem rework (hStep : Reworks s₁.ctx s₂.ctx p f g) (hLoader : s₂.loader = s₁.loader) :
    Places s s₂ p (before ++ g :: after) :=
  ⟨hStep.options_eq.trans hPlaces.options_eq, hLoader.trans hPlaces.loader_eq,
    hPlaces.grow.edit hOpen hStep.edit⟩

/- Code below a fragment that was put below a node. -/
theorem fill (hBelow : Places s₁ s₂ f.id fs) :
    Places s s₂ p (before ++ { f with children := f.children ++ fs } :: after) := by
  have hHung := hPlaces.hung hOpen (List.mem_append_cons_self)
  exact hPlaces.rework hOpen ⟨hBelow.options_eq, hBelow.grow.edited hHung⟩ hBelow.loader_eq

end

variable (hPlaces : Places s s₁ p [f]) (hOpen : Open s.ctx.tree p)
include hPlaces hOpen

theorem rework_one (hStep : Reworks s₁.ctx s₂.ctx p f g) (hLoader : s₂.loader = s₁.loader) :
    Places s s₂ p [g] := by
  have hSplit : Places s s₁ p ([] ++ f :: []) := hPlaces
  exact hSplit.rework hOpen hStep hLoader

theorem fill_one (hBelow : Places s₁ s₂ f.id fs) :
    Places s s₂ p [{ f with children := f.children ++ fs }] := by
  have hSplit : Places s s₁ p ([] ++ f :: []) := hPlaces
  exact hSplit.fill hOpen hBelow

theorem filled (hBelow : Places s₁ s₂ f.id fs) :
    Places s s₂ p [{ f with children := f.children ++ fs }]
      ∧ Hung s₂.ctx.tree p { f with children := f.children ++ fs } :=
  ⟨hPlaces.fill_one hOpen hBelow, (hPlaces.fill_one hOpen hBelow).hung hOpen (.head _)⟩

end Places

namespace Inside

variable {s₁ : LowerState}

theorem after (hInside : Inside E s p) (hPlaces : Places s s₁ p fs) : Inside E s₁ p where
  fold_eq := by rw [hPlaces.options_eq, hInside.fold_eq]
  place := hInside.place.grown hPlaces.grow
  isOpen := hPlaces.grow.isOpen hInside.isOpen

/- Below a fragment that is no loop. -/
theorem below (hInside : Inside E s p) (hPlaces : Places s s₁ p fs) (hMem : f ∈ fs)
    (hPlain : f.instr.isPlain) : Inside E s₁ f.id where
  fold_eq := (hInside.after hPlaces).fold_eq
  place := by
    have hHung := hPlaces.hung hInside.isOpen hMem
    have hNew := hPlaces.grow.fresh f.id (List.mem_flatMap.mpr ⟨f, hMem, f.id_mem_ids⟩)
    have hIn := hInside.isOpen.isIn
    refine .plain (hInside.after hPlaces).place hHung.held.isIn (by omega) hHung.parent ?_
    rw [hHung.held.instr]
    exact hPlain
  isOpen := (hPlaces.hung hInside.isOpen hMem).root_isOpen

end Inside

-- Parts Of Constructs

/- What a job leaves below a node, and the node it gives. -/
def Emits (E : Env) (job : Job) (s s' : LowerState) (p : NodeId) (result : Option NodeId) : Prop :=
  ∃ gs out, Lowers E job s.ctx.program s'.ctx.program gs out ∧ result = out.map Fragment.id
      ∧ Places s s' p (gs ++ out.toList)

/- A way into parts that follows the rules inside of methods. -/
def Faithful (d : Descent) : Prop :=
  ∀ (E : Env) (s s' : LowerState) (p : NodeId) (node : Node) (keep : Bool) (result : Option NodeId),
    Inside E s p → d.node p node keep s = .ok result s' → Emits E (.node node keep) s s' p result

variable {d : Descent} {n : NodeId}

section

variable (hDescent : Faithful d) (hInside : Inside E s p)
include hDescent hInside

theorem value_ok (hRun : value d p node s = .ok n s') :
    ∃ gs f, Lowers E (.node node true) s.ctx.program s'.ctx.program gs (some f) ∧ f.ty ≠ .none
        ∧ n = f.id
        ∧ Places s s' p (gs ++ [f]) := by
  rcases bind_ok hRun with ⟨result, s₁, hNode, hRest⟩
  rcases hDescent E s s₁ p node true result hInside hNode with ⟨gs, out, hLowers, rfl, hPlaces⟩
  cases out with
  | none => exact (refuse_ok hRest).elim
  | some f =>
    have hHung : Hung s₁.ctx.tree p f := hPlaces.hung hInside.isOpen (by simp)
    rcases bind_ok hRest with ⟨ty, s₂, hTy, hRest⟩
    rcases build_ok hTy with ⟨ctx₂, hType, rfl⟩
    cases hType
    rcases guard_ok (bind_not_ok fun _ _ => refuse_ok) hRest with ⟨hNone, hEnd⟩
    rcases pure_ok hEnd with ⟨rfl, rfl⟩
    refine ⟨gs, f, hLowers, ?_, rfl, hPlaces⟩
    rw [← hHung.held.ty]
    simpa using hNone

theorem values_ok (hRun : values d p nodes s = .ok () s') :
    ∃ fs, Lowers E (.values nodes) s.ctx.program s'.ctx.program fs none ∧ Places s s' p fs := by
  induction nodes generalizing s with
  | nil =>
    cases hRun
    exact ⟨[], .noValues, .refl _ p⟩
  | cons node nodes ih =>
    rcases bind_ok hRun with ⟨_, s₁, hValue, hRest⟩
    rcases value_ok hDescent hInside hValue with ⟨gs, f, hLowers, hNone, _, hFirst⟩
    rcases ih (hInside.after hFirst) hRest with ⟨hs, hValues, hSecond⟩
    refine ⟨gs ++ f :: hs, .value hLowers hNone hValues, ?_⟩
    simpa using hFirst.trans hInside.isOpen hSecond

/- One part whose value is needed. -/
theorem oneValue_ok (hRun : value d p node s = .ok n s') :
    ∃ fs, Lowers E (.values [node]) s.ctx.program s'.ctx.program fs none ∧ Places s s' p fs := by
  rcases value_ok hDescent hInside hRun with ⟨gs, f, hLowers, hNone, _, hPlaces⟩
  exact ⟨gs ++ [f], .value hLowers hNone .noValues, hPlaces⟩

theorem statements_ok (hRun : statements d p keep nodes s = .ok result s') :
    Emits E (.statements nodes keep) s s' p result := by
  induction nodes generalizing s with
  | nil =>
    cases hRun
    exact ⟨[], none, .done, rfl, .refl _ p⟩
  | cons node nodes ih =>
    cases nodes with
    | nil =>
      rcases hDescent E s s' p node keep result hInside hRun with
        ⟨gs, out, hLowers, hResult, hPlaces⟩
      exact ⟨gs, out, .last hLowers, hResult, hPlaces⟩
    | cons next nodes =>
      rcases bind_ok hRun with ⟨_, s₁, hNode, hRest⟩
      rcases hDescent E s s₁ p node false _ hInside hNode with ⟨gs, out, hLowers, _, hFirst⟩
      rcases ih (hInside.after hFirst) hRest with ⟨hs, out', hLowers', hResult, hSecond⟩
      refine ⟨gs ++ out.toList ++ hs, out', .next hLowers hLowers', hResult, ?_⟩
      simpa using hFirst.trans hInside.isOpen hSecond

/- A part that may be missing is at most one statement. -/
theorem optional_ok (hRun : optional d p part keep s = .ok () s') :
    ∃ gs out, Lowers E (.statements part.toList keep) s.ctx.program s'.ctx.program gs out
        ∧ Places s s' p (gs ++ out.toList) := by
  cases part with
  | none =>
    cases hRun
    exact ⟨[], none, .done, .refl s p⟩
  | some node =>
    rcases bind_ok hRun with ⟨result, s₁, hNode, hEnd⟩
    cases hEnd
    rcases hDescent E s _ p node keep result hInside hNode with ⟨gs, out, hLowers, _, hPlaces⟩
    exact ⟨gs, out, .last hLowers, hPlaces⟩

end

/- A step that only puts fragments below a node, from syntax. -/
theorem places_of_adds (hAdds : Adds s.ctx ctx' p fs) : Places s { s with ctx := ctx' } p fs :=
  ⟨by rw [hAdds.same], rfl, hAdds.grow⟩

theorem addNode_ok (hOpen : Open s.ctx.tree p) (hRun : build (addNode p instr ty) s = .ok n s') :
    Places s s' p [.leaf n instr ty] ∧ s'.ctx.program = s.ctx.program := by
  rcases build_ok hRun with ⟨ctx', hStep, rfl⟩
  have hAdds := addNode_ok hOpen hStep
  exact ⟨places_of_adds hAdds, by rw [hAdds.same]⟩

theorem addNodeAt_ok (hOpen : Open s.ctx.tree p)
    (hRun : build (addNodeAt p instr ty span) s = .ok n s') :
    Places s s' p [.leaf n instr ty] ∧ s'.ctx.program = s.ctx.program := by
  rcases build_ok hRun with ⟨ctx', hStep, rfl⟩
  have hAdds := addNodeAt_ok hOpen hStep
  exact ⟨places_of_adds hAdds, by rw [hAdds.same]⟩

-- Assignments And Calls

/- An empty node that code goes into. -/
theorem placeholder_ok (hInside : Inside E s p) (hRun : placeholder p span s = .ok n s') :
    Places s s' p [⟨n, .nop, .none, []⟩] ∧ s'.ctx.program = s.ctx.program ∧ Inside E s' n := by
  rcases addNodeAt_ok hInside.isOpen hRun with ⟨hPlaces, hProgram⟩
  refine ⟨hPlaces, hProgram, ?_⟩
  exact hInside.below hPlaces (.head _) rfl

theorem finishAssignment_ok {target : Node} (hInside : Inside E s f.id)
    (hHung : Hung s.ctx.tree p f) (hRun : finishAssignment f.id kind target keep s = .ok n s') :
    ∃ name g, target.symbolAt 0 = .ok name
        ∧ Assigns E (bareName name) keep s.ctx.program f kind s'.ctx.program g
        ∧ n = g.id
        ∧ Reworks s.ctx s'.ctx p f g
        ∧ s'.loader = s.loader := by
  have hPlace := hInside.place
  rcases need_step hRun with ⟨name, hName, hRest⟩
  cases kind
  all_goals rcases build_ok hRest with ⟨ctx', hStep, rfl⟩
  case' localVar => have hAssigned := localAssign_ok hPlace hHung hStep
  case' instanceVar => have hAssigned := ivarAssign_ok hPlace hHung hStep
  case' classVar => have hAssigned := cvarAssign_ok hPlace hHung hStep
  case' globalVar => have hAssigned := globalAssign_ok hPlace hHung hStep
  all_goals
    rcases hAssigned with ⟨g, hAssigns, hId, hRework⟩
    exact ⟨name, g, hName, hAssigns, hId, hRework, rfl⟩

/- Code that is a single fragment. -/
theorem emits_one (hLowers : Lowers E job s.ctx.program s'.ctx.program [] (some g))
    (hId : n = g.id) (hPlaces : Places s s' p [g]) : Emits E job s s' p (some n) :=
  ⟨[], some g, hLowers, by rw [hId]; rfl, hPlaces⟩

theorem assignValue_ok (hDescent : Faithful d) (hInside : Inside E s p)
    (hKind : VariableKind.ofAssignment? node.tag = some kind)
    (hRun : assignValue d p kind node keep s = .ok n s') :
    Emits E (.code node keep) s s' p (some n) := by
  rcases hNode : node.node? 1 with _ | valueNode
  · simp only [assignValue, hNode] at hRun
    exact (refuse_ok hRun).elim
  simp only [assignValue, hNode] at hRun
  rcases bind_ok hRun with ⟨slot, s₁, hSlot, hRest⟩
  rcases placeholder_ok hInside hSlot with ⟨hEmpty, hProgram, hInside₁⟩
  rcases bind_ok hRest with ⟨_, s₂, hValue, hRest⟩
  rcases oneValue_ok hDescent hInside₁ hValue with ⟨cs, hValues, hBelow⟩
  rcases hEmpty.filled hInside.isOpen hBelow with ⟨hFilled, hHung⟩
  rcases finishAssignment_ok (hInside₁.after hBelow) hHung hRest with
    ⟨name, g, hName, hAssigns, hId, hRework, hLoader⟩
  rw [hProgram] at hValues
  exact emits_one (.assign hKind hName hNode hValues hAssigns) hId
    (hFilled.rework_one hInside.isOpen hRework hLoader)

theorem operatorAssignment_ok (hDescent : Faithful d) (hInside : Inside E s p)
    (hTag : node.tag = .opAssign) (hRun : operatorAssignment d p node keep s = .ok n s') :
    Emits E (.code node keep) s s' p (some n) := by
  rcases need_step hRun with ⟨target, hTarget, hRest⟩
  rcases need_step hRest with ⟨operator, hOperator, hRest⟩
  rcases need_step hRest with ⟨argument, hArgument, hRest⟩
  rcases hKind : VariableKind.ofAssignment? target.tag with _ | kind
  · simp only [hKind] at hRest
    exact (refuse_ok hRest).elim
  simp only [hKind] at hRest
  rcases need_step hRest with ⟨name, hName, hRest⟩
  rcases bind_ok hRest with ⟨slot, s₁, hSlot, hRest⟩
  rcases placeholder_ok hInside hSlot with ⟨hSlot, hProgram₁, hInside₁⟩
  rcases bind_ok hRest with ⟨apply, s₂, hApply, hRest⟩
  rcases placeholder_ok hInside₁ hApply with ⟨hApply, hProgram₂, hInside₂⟩
  -- the variable and the argument are the operands
  rcases build_step hRest with ⟨_, ctx₃, hRead, hRest⟩
  rcases readVariable_ok hInside₂.isOpen hInside₂.place hRead with ⟨r, hReads, _, hAdds⟩
  have hFirst := places_of_adds hAdds
  rcases bind_ok hRest with ⟨_, s₄, hValue, hRest⟩
  rcases oneValue_ok hDescent (hInside₂.after hFirst) hValue with ⟨cs, hValues, hSecond⟩
  have hOperands := hFirst.trans hInside₂.isOpen hSecond
  rcases hApply.filled hInside₁.isOpen hOperands with ⟨hFilled, hHungA⟩
  rcases build_step hRest with ⟨_, ctx₅, hMethod, hRest⟩
  rcases applyMethod_ok (hInside₂.after hOperands).fold_eq hHungA
    hMethod with ⟨g, hApplies, _, hRework⟩
  have hInner : Places s₁ { s₄ with ctx := ctx₅ } slot [g] :=
    hFilled.rework_one hInside₁.isOpen hRework rfl
  rcases hSlot.filled hInside.isOpen hInner with ⟨hOuter, hHungS⟩
  rcases finishAssignment_ok (hInside₁.after hInner) hHungS hRest with
    ⟨name', f, hName', hAssigns, hId, hLast, hLoader⟩
  have hSame : name' = name := by
    rw [hName] at hName'
    cases hName'
    rfl
  subst hSame
  have hProgram₃ : ctx₃.program = s₂.ctx.program := by rw [hAdds.same]
  simp only [hProgram₃, hProgram₂, hProgram₁] at hReads hValues
  exact emits_one (.operatorAssign hTag hTarget hOperator hArgument hKind hName hReads
      hValues hApplies hAssigns)
    hId (hOuter.rework_one hInside.isOpen hLast hLoader)

-- Calls

variable {name : String} {args : List Node}

/- A step that leaves the tree alone puts nothing anywhere. -/
theorem places_nothing (hTree : s'.ctx.tree = s.ctx.tree)
    (hOptions : s'.ctx.options = s.ctx.options) (hLoader : s'.loader = s.loader) (p : NodeId) :
    Places s s' p [] := by
  refine ⟨hOptions, hLoader, ?_⟩
  rw [hTree]
  exact .refl s.ctx.tree p

theorem places_of_names (hSame : ctx' = { s.ctx with program := ctx'.program }) (p : NodeId) :
    Places s { s with ctx := ctx' } p [] := by
  have hLoader : ({ s with ctx := ctx' } : LowerState).loader = s.loader := rfl
  refine places_nothing ?_ ?_ hLoader p
  · rw [hSame]
  · rw [hSame]

section

variable (hDescent : Faithful d) (hInside : Inside E s p)
include hDescent hInside

theorem callWith_ok {m : MethodId} {receiver : Receiver}
    (hRun : callWith d p m receiver args span s = .ok n s') :
    ∃ k cs p₁ g, Lowers E (.values args) s.ctx.program p₁ cs none
        ∧ Calls m receiver p₁ ⟨k, .nop, .none, cs⟩ s'.ctx.program g
        ∧ n = g.id
        ∧ Places s s' p [g] := by
  rcases bind_ok hRun with ⟨call, s₁, hCall, hRest⟩
  rcases placeholder_ok hInside hCall with ⟨hEmpty, hProgram, hInside₁⟩
  rcases bind_ok hRest with ⟨_, s₂, hValues, hRest⟩
  rcases values_ok hDescent hInside₁ hValues with ⟨cs, hLowers, hBelow⟩
  rcases hEmpty.filled hInside.isOpen hBelow with ⟨hFilled, hHung⟩
  rcases build_ok hRest with ⟨ctx', hStep, rfl⟩
  rcases call_ok hHung hStep with ⟨g, hCalls, hId, hRework⟩
  rw [hProgram] at hLowers
  exact ⟨call, cs, _, g, hLowers, hCalls, hId, hFilled.rework_one hInside.isOpen hRework rfl⟩

theorem selfCall_ok (hSend : Sends node none name args) (hDirective : Directive.ofName? name = none)
    (hRun : selfCall d p node name args s = .ok n s') :
    Emits E (.code node keep) s s' p (some n) := by
  simp only [selfCall, context_bind, Context.methodOf?_inMethod hInside.place] at hRun
  rcases build_step hRun with ⟨⟨m, receiver⟩, ctx₁, hResolve, hRest⟩
  have hNames := resolveSelfCall_namesOnly.names hResolve
  have hSame := places_of_names (resolveSelfCall_namesOnly _ _ _ hResolve).same p
  rcases callWith_ok hDescent (hInside.after hSame) hRest with
    ⟨k, cs, p₁, g, hArgs, hCalls, hId, hPlaces⟩
  exact emits_one (.selfCall hSend hDirective hNames hArgs hCalls) hId
    (hSame.trans hInside.isOpen hPlaces)

theorem classCall_ok {c : ClassId}
    (hSend : Sends node (some receiver) name args) (hData : isDataRegistry receiver = false)
    (hCast : name ≠ "cast_to") (hClass : NamesClass E.method s.ctx.program receiver (some c))
    (hRun : classCall d p node c name args s = .ok n s') :
    Emits E (.code node keep) s s' p (some n) := by
  rcases build_step hRun with ⟨⟨m, how⟩, ctx₁, hResolve, hRest⟩
  have hNames := resolveClassCall_namesOnly.names hResolve
  have hSame := places_of_names (resolveClassCall_namesOnly _ _ _ hResolve).same p
  rcases callWith_ok hDescent (hInside.after hSame) hRest with
    ⟨k, cs, p₁, g, hArgs, hCalls, hId, hPlaces⟩
  exact emits_one (.classCall hSend hData hCast hClass hNames hArgs hCalls) hId
    (hSame.trans hInside.isOpen hPlaces)

end

theorem namedClass_ok {found : Option ClassId} (hInside : Inside E s p)
    (hRun : namedClass p receiver s = .ok found s') :
    NamesClass E.method s.ctx.program receiver found ∧ s = s' := by
  by_cases hConst : receiver.tag = .const
  · simp only [namedClass, hConst] at hRun
    rcases need_step hRun with ⟨path, hPath, hRest⟩
    rcases build_step hRest with ⟨value, ctx₁, hValue, hRest⟩
    rcases constValue_ok hValue with ⟨hFind, rfl⟩
    rw [Context.classOf_inMethod hInside.place] at hFind
    cases value with
    | cls c =>
      cases hRest
      exact ⟨.const hConst hFind, rfl⟩
    | int v ty =>
      cases hRest
      exact ⟨.constValue hConst hFind, rfl⟩
  by_cases hSelf : receiver.tag = .selfRef
  · simp only [namedClass, hSelf, context_bind, Context.methodOf?_inMethod hInside.place] at hRun
    cases hInstance : (s.ctx.program.method E.method).isInstance with
    | true =>
      simp only [map_some, bind_some, hInstance, if_true] at hRun
      cases hRun
      exact ⟨.ownValue hSelf hInstance, rfl⟩
    | false =>
      simp only [map_some, bind_some, hInstance, Bool.false_eq_true, if_false] at hRun
      cases hRun
      exact ⟨.ownClass hSelf hInstance, rfl⟩
  · simp only [namedClass] at hRun
    cases hRun
    exact ⟨.other hConst hSelf, rfl⟩

/- The name of a type is read off, and nothing changes. -/
theorem typeName_ok (hRun : typeName node s = .ok name s') :
    typeText? node = some name ∧ s = s' := by
  by_cases hSym : node.tag = .sym
  · simp only [typeName, hSym] at hRun
    rcases need_ok hRun with ⟨hSymbol, hSame⟩
    have hFound : node.symbolAt 0 = .ok name := hSymbol
    exact ⟨by simp [typeText?, hSym, hFound, Except.toOption], hSame⟩
  by_cases hConst : node.tag = .const
  · rcases hPath : node.constPath? with _ | path
    · simp only [typeName, hConst, hPath] at hRun
      exact (refuse_ok hRun).elim
    · simp only [typeName, hConst, hPath] at hRun
      cases hRun
      exact ⟨by simp [typeText?, hConst, hPath], rfl⟩
  · have hNoPath : ∀ path, node.tag = .const → node.constPath? = some path → False :=
      fun _ hTag _ => hConst hTag
    simp only [typeName] at hRun
    exact (refuse_ok hRun).elim

/- The type that an argument names as seen from a node. -/
theorem typeArgument_named (hRun : typeArgument p node s = .ok ty s') :
    TypeNamed s.ctx.program (s.ctx.classOf p) node ty ∧ s = s' := by
  simp only [typeArgument, context_bind] at hRun
  rcases bind_ok hRun with ⟨name, s₁, hName, hRest⟩
  rcases typeName_ok hName with ⟨hText, rfl⟩
  rcases hType : s.ctx.program.typeOfName? name (s.ctx.classOf p) with _ | found
  · simp only [hType] at hRest
    exact (refuse_ok hRest).elim
  · simp only [hType] at hRest
    cases hRest
    exact ⟨by simp [TypeNamed, hText, hType], rfl⟩

theorem typeArgument_ok (hInside : Inside E s p) (hRun : typeArgument p node s = .ok ty s') :
    TypeNamed s.ctx.program (s.ctx.program.method E.method).owner node ty ∧ s = s' := by
  have hNamed := typeArgument_named hRun
  rwa [Context.classOf_inMethod hInside.place] at hNamed

theorem castArguments_ok (hRun : castArguments args span s = .ok found s') :
    CastArguments args found.1 found.2 ∧ s = s' := by
  unfold castArguments at hRun
  split at hRun
  · cases hRun
    exact ⟨.unsigned, rfl⟩
  · split at hRun
    · cases hRun
      exact ⟨.signed (by assumption), rfl⟩
    · exact (refuse_ok hRun).elim
  · exact (refuse_ok hRun).elim

theorem castCall_ok (hDescent : Faithful d) (hInside : Inside E s p)
    (hSend : Sends node (some receiver) "cast_to" args) (hData : isDataRegistry receiver = false)
    (hRun : castCall d p node receiver args s = .ok n s') :
    Emits E (.code node keep) s s' p (some n) := by
  rcases bind_ok hRun with ⟨⟨tyNode, signed⟩, _, hFound, hRest⟩
  rcases castArguments_ok hFound with ⟨hArgs, rfl⟩
  rcases bind_ok hRest with ⟨ty, _, hType, hLast⟩
  rcases typeArgument_ok hInside hType with ⟨hNamed, rfl⟩
  rcases bind_ok hLast with ⟨v, s₁, hValue, hEnd⟩
  rcases value_ok hDescent hInside hValue with ⟨gs, f, hLowers, hNone, rfl, hPlaces⟩
  have hHung : Hung s₁.ctx.tree p f := hPlaces.hung hInside.isOpen (by simp)
  rcases build_ok hEnd with ⟨ctx', hCast, rfl⟩
  rcases cast_ok hHung hCast with ⟨g, hCasts, rfl, hStep⟩
  refine ⟨gs, some g, ?_, rfl, hPlaces.rework hInside.isOpen hStep.reworks rfl⟩
  rw [hStep.program_eq]
  exact .castCall hSend hData hArgs hNamed hLowers hNone hCasts

theorem valueCall_ok (hDescent : Faithful d) (hInside : Inside E s p)
    (hSend : Sends node (some receiver) name args) (hData : isDataRegistry receiver = false)
    (hCast : name ≠ "cast_to") (hClass : NamesClass E.method s.ctx.program receiver none)
    (hRun : valueCall d p node receiver name args s = .ok n s') :
    Emits E (.code node keep) s s' p (some n) := by
  rcases bind_ok hRun with ⟨call, s₁, hCall, hRest⟩
  rcases placeholder_ok hInside hCall with ⟨hEmpty, hProgram, hInside₁⟩
  rcases bind_ok hRest with ⟨_, s₂, hValues, hLast⟩
  rcases values_ok hDescent hInside₁ hValues with ⟨cs, hLowers, hBelow⟩
  rcases hEmpty.filled hInside.isOpen hBelow with ⟨hFilled, hHung⟩
  rcases build_ok hLast with ⟨ctx', hStep, rfl⟩
  rcases applyMethod_ok (hInside₁.after hBelow).fold_eq hHung hStep with ⟨g, hApplies, hId, hRework⟩
  rw [hProgram] at hLowers
  exact emits_one (.valueCall hSend hData hCast hClass hLowers hApplies) hId
    (hFilled.rework_one hInside.isOpen hRework rfl)

end Lower

end RubyWat
