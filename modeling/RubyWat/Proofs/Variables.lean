import RubyWat.Proofs.Arrange

/-
  Reads of variables and assignments to them.

  Main statements: what the compiler does to read a variable or
  to assign to one is what the rules of the translation say.
-/

-- New Code

namespace RubyWat

open Translation Code Build Step

variable {instr : Instr} {p : NodeId} {ctx ctx' : Context}
variable {span : Span} {ty : ValueType}

/- A step that only puts fragments below a node. -/
structure Adds (ctx ctx' : Context) (p : NodeId) (fs : List Fragment) : Prop where
  same : ctx' = { ctx with tree := ctx'.tree }
  grow : Grown ctx.tree ctx'.tree p fs

namespace Adds

variable {ctx₁ ctx₂ : Context} {f g : Fragment}

theorem hung (hOpen : Open ctx.tree p) (hAdds : Adds ctx ctx₁ p [f]) : Hung ctx₁.tree p f :=
  hAdds.grow.hung hOpen (.head _)

/- What was put below a node is edited. -/
theorem edit (hOpen : Open ctx.tree p) (hAdds : Adds ctx ctx₁ p [f])
    (hStep : Rewrites ctx₁ ctx₂ p f g) : Adds ctx ctx₂ p [g] := by
  have hSplit : Adds ctx ctx₁ p ([] ++ f :: []) := hAdds
  refine ⟨?_, hSplit.grow.edit hOpen hStep.edit⟩
  rw [hStep.same, hAdds.same]

end Adds

namespace Build

variable {n : NodeId}

theorem addNode_ok (hOpen : Open ctx.tree p) (hRun : addNode p instr ty ctx = .ok n ctx') :
    Adds ctx ctx' p [.leaf n instr ty] := by
  cases hRun
  exact ⟨rfl, (Tree.grown_add hOpen instr ty).2⟩

theorem addNodeAt_ok (hOpen : Open ctx.tree p) (hRun : addNodeAt p instr ty span ctx = .ok n ctx') :
    Adds ctx ctx' p [.leaf n instr ty] := by
  rcases bind_ok hRun with ⟨k, ctx₁, hAdd, hRun⟩
  have hAdds := addNode_ok hOpen hAdd
  have hHung := hAdds.hung hOpen
  rcases setSpan_step hHung hRun with ⟨ctx₂, hSpan, hRun⟩
  rcases pure_ok hRun with ⟨rfl, rfl⟩
  exact hAdds.edit hOpen hSpan

-- Variables

variable {f : Fragment}
variable {m k : MethodId} {loop : Option (NodeId × NodeId)}
variable {name : String} {use : VariableUse}

theorem requireMethod_ok (hPlace : InMethod ctx.tree m loop n)
    (hRun : requireMethod n use span ctx = .ok k ctx') : k = m ∧ ctx = ctx' := by
  simp only [requireMethod, get_bind, Context.methodOf?_inMethod hPlace] at hRun
  cases hRun
  exact ⟨rfl, rfl⟩

theorem requireInstanceMethod_ok (hPlace : InMethod ctx.tree m loop n)
    (hRun : requireInstanceMethod n name span ctx = .ok k ctx') :
    k = m ∧ (ctx.program.method m).isInstance = true ∧ ctx = ctx' := by
  simp only [requireInstanceMethod, get_bind, Context.methodOf?_inMethod hPlace] at hRun
  cases hInstance : (ctx.program.method m).isInstance with
  | false =>
    simp only [hInstance, Bool.false_eq_true, if_false] at hRun
    exact (throw_ok hRun).elim
  | true =>
    simp only [hInstance, if_true] at hRun
    rcases pure_ok hRun with ⟨rfl, rfl⟩
    exact ⟨rfl, rfl, rfl⟩

theorem unknownName_ok {α : Type} {a : α}
    (hRun : unknownName n kind name span ctx = .ok a ctx') : False := by
  rw [unknownName, get_bind] at hRun
  exact throw_ok hRun

theorem constValue_ok (hRun : constValue n path span ctx = .ok value ctx') :
    ctx.program.findConst? path (ctx.classOf n) = some value ∧ ctx = ctx' := by
  simp only [constValue, get_bind] at hRun
  rcases hFind : ctx.program.findConst? path (ctx.classOf n) with _ | v
  · rw [hFind] at hRun
    exact (unknownName_ok hRun).elim
  · rw [hFind] at hRun
    rcases pure_ok hRun with ⟨rfl, rfl⟩
    exact ⟨rfl, rfl⟩

theorem findCvar_ok (hPlace : InMethod ctx.tree m loop n)
    (hRun : findCvar n name span ctx = .ok v ctx') :
    ctx.program.findCvar? (ctx.program.method m).owner name = some v ∧ ctx = ctx' := by
  simp only [findCvar, get_bind, Context.classOf_inMethod hPlace] at hRun
  rcases hFind : ctx.program.findCvar? (ctx.program.method m).owner name with _ | w
  · rw [hFind] at hRun
    exact (unknownName_ok hRun).elim
  · rw [hFind] at hRun
    rcases pure_ok hRun with ⟨rfl, rfl⟩
    exact ⟨rfl, rfl⟩

theorem globalType_ok (hRun : globalType n name span ctx = .ok ty ctx') :
    ∃ g, ctx.program.findGlobal? name = some g
      ∧ ty = (ctx.program.globalVar g).ty ∧ ctx = ctx' := by
  simp only [globalType, program_bind] at hRun
  rcases hFind : ctx.program.findGlobal? name with _ | g
  · rw [hFind] at hRun
    exact (unknownName_ok hRun).elim
  · rw [hFind] at hRun
    rcases pure_ok hRun with ⟨rfl, rfl⟩
    exact ⟨g, rfl, rfl, rfl⟩

/- A new node with one child. -/
theorem addAround_ok (hOpen : Open ctx.tree p) (hRun : (do
        let load ← addNodeAt p instr ty span
        let _ ← addNode load child childTy
        return load) ctx = .ok n ctx') :
    ∃ k, Adds ctx ctx' p [⟨n, instr, ty, [.leaf k child childTy]⟩] := by
  rcases bind_ok hRun with ⟨load, ctx₁, hLoad, hRest⟩
  have hAdds := addNodeAt_ok hOpen hLoad
  have hHung := hAdds.hung hOpen
  rcases addNode_step hHung hRest with ⟨ctx₂, k, hChild, hEnd⟩
  rcases pure_ok hEnd with ⟨rfl, rfl⟩
  exact ⟨k, hAdds.edit hOpen hChild⟩

end Build

namespace Lower

variable {n : NodeId}
variable {name : String}

theorem readVariable_ok (hOpen : Open ctx.tree p) (hPlace : InMethod ctx.tree E.method E.loop p)
    (hRun : readVariable kind p name span ctx = .ok n ctx') :
    ∃ f, Reads E ctx.program name kind f ∧ n = f.id ∧ Adds ctx ctx' p [f] := by
  cases kind with
  | localVar =>
    rcases bind_ok hRun with ⟨m, _, hMethod, hRest⟩
    rcases requireMethod_ok hPlace hMethod with ⟨rfl, rfl⟩
    rw [program_bind] at hRest
    rcases hSlot : (ctx.program.method E.method).slotType? name with _ | ty
    · rw [hSlot] at hRest
      exact (unknownName_ok hRest).elim
    · rw [hSlot] at hRest
      exact ⟨_, .localVar hSlot, rfl, addNodeAt_ok hOpen hRest⟩
  | instanceVar =>
    rcases bind_ok hRun with ⟨m, _, hMethod, hRest⟩
    rcases requireInstanceMethod_ok hPlace hMethod with ⟨rfl, hInstance, rfl⟩
    rw [program_bind] at hRest
    rcases hSlot : (ctx.program.cls (ctx.program.method E.method).owner).ivarSlot?
        (bareName name) with _ | slot
    · simp only [hSlot] at hRest
      exact (unknownName_ok hRest).elim
    rcases hIvar : (ctx.program.cls (ctx.program.method E.method).owner).ivar?
        (bareName name) with _ | ivar
    · simp only [hSlot, hIvar] at hRest
      exact (unknownName_ok hRest).elim
    simp only [hSlot, hIvar] at hRest
    rcases addAround_ok hOpen hRest with ⟨k, hAdds⟩
    exact ⟨_, .instanceVar hInstance hSlot hIvar, rfl, hAdds⟩
  | classVar =>
    rcases bind_ok hRun with ⟨_, _, hMethod, hRest⟩
    rcases requireMethod_ok hPlace hMethod with ⟨_, rfl⟩
    rcases bind_ok hRest with ⟨v, _, hFind, hRest⟩
    rcases findCvar_ok hPlace hFind with ⟨hCvar, rfl⟩
    rcases addAround_ok hOpen hRest with ⟨k, hAdds⟩
    exact ⟨_, .classVar hCvar, rfl, hAdds⟩
  | globalVar =>
    rcases bind_ok hRun with ⟨ty, _, hType, hRest⟩
    rcases globalType_ok hType with ⟨g, hGlobal, rfl, rfl⟩
    exact ⟨_, .globalVar hGlobal, rfl, addNodeAt_ok hOpen hRest⟩

end Lower

-- Assignments

variable {reload : Instr} {address : Option Instr}

namespace Build

variable {n : NodeId} {f : Fragment}
variable {name : String} {keep : Bool}

section

variable (hHung : Hung ctx.tree p f)
include hHung

theorem assignedValue_ok (hRun : assignedValue f.id span ctx = .ok n ctx') :
    ∃ before value, f.children = before ++ [value]
      ∧ value.ty ≠ .none ∧ n = value.id ∧ ctx = ctx' := by
  simp only [assignedValue, tree_bind, hHung.held.lastChild?] at hRun
  rcases List.eq_nil_or_concat' f.children with hNil | ⟨before, value, hChildren⟩
  · simp only [hNil, List.getLast?_nil, Option.map_none] at hRun
    exact (throw_ok hRun).elim
  have hLast : f.children.getLast? = some value := by simp [hChildren]
  simp only [hLast, Option.map_some, tyOf_bind, (hHung.held.last hLast).ty] at hRun
  rcases guard_ok (fun hThrow => by
      rw [spanOf_bind] at hThrow
      exact bind_not_ok (fun _ _ => throw_ok) hThrow)
    hRun with ⟨hNone, hEnd⟩
  cases hEnd
  exact ⟨before, value, hChildren, by simpa using hNone, rfl, rfl⟩

/- A store that is read again. -/
theorem keepStored_ok (hRun : keepStored f.id reload address ty ctx = .ok n ctx') :
    ∃ g, Keeps f reload ty address true g ∧ n = g.id ∧ Rewrites ctx ctx' p f g := by
  rcases insertAbove_step hHung hRun with ⟨ctx₁, block, hAbove, hRest⟩
  rcases addNode_step hAbove.hung hRest with ⟨ctx₂, load, hLoad, hRest⟩
  have hHung₂ := hLoad.hung
  have hBlock := hAbove.trans hLoad
  cases address with
  | none =>
    rcases pure_ok hRest with ⟨rfl, rfl⟩
    exact ⟨_, .plain, rfl, hBlock⟩
  | some base =>
    have hHungL : Hung ctx₂.tree block (.leaf load reload ty) := hHung₂.child (by simp)
    rcases addNode_step hHungL hRest with ⟨ctx₃, k, hBase, hEnd⟩
    rcases pure_ok hEnd with ⟨rfl, rfl⟩
    have hSplit : (⟨n, .block, ty, [f] ++ [.leaf load reload ty]⟩ : Fragment).children
          = [f] ++ .leaf load reload ty :: [] := rfl
    have hLast := Rewrites.inside hHung₂ hSplit hBase
    exact ⟨_, .addressed, rfl, hBlock.trans hLast⟩

/- A store whose value may be wanted. -/
theorem mayKeep_ok
    (hRun : (if keep then keepStored f.id reload address ty else pure f.id) ctx = .ok n ctx') :
    ∃ g, Keeps f reload ty address keep g ∧ n = g.id ∧ Rewrites ctx ctx' p f g := by
  cases keep with
  | true =>
    rw [if_pos rfl] at hRun
    exact keepStored_ok hHung hRun
  | false =>
    rw [if_neg Bool.false_ne_true] at hRun
    rcases pure_ok hRun with ⟨rfl, rfl⟩
    exact ⟨f, .dropped, rfl, .refl hHung⟩

/- The last child of a fragment made to have a type. -/
theorem castLast_ok (hChildren : f.children = before ++ [value])
    (hRun : cast value.id ty true span ctx = .ok n ctx') :
    ∃ value', Casts true ty value value' ∧ Rewrites ctx ctx' p f
        { f with children := before ++ [value'] } := by
  have hHungV : Hung ctx.tree f.id value := hHung.child (by simp [hChildren])
  rcases cast_ok hHungV hRun with ⟨value', hCast, _, hStep⟩
  exact ⟨value', hCast, .inside hHung hChildren hStep⟩

end

variable {E : Env}

variable (hPlace : InMethod ctx.tree E.method E.loop f.id) (hHung : Hung ctx.tree p f)
include hPlace hHung

theorem localAssign_ok (hRun : localAssign f.id name keep span ctx = .ok n ctx') :
    ∃ g, Assigns E name keep ctx.program f .localVar ctx'.program g
      ∧ n = g.id ∧ Reworks ctx ctx' p f g := by
  rcases bind_ok hRun with ⟨m, _, hMethod, hRest⟩
  rcases requireMethod_ok hPlace hMethod with ⟨rfl, rfl⟩
  rcases bind_ok hRest with ⟨v, _, hValue, hRest⟩
  rcases assignedValue_ok hHung hValue with ⟨before, value, hChildren, hNone, rfl, rfl⟩
  have hHeldV := hHung.held.child (c := value) (by simp [hChildren])
  rw [tyOf_bind, hHeldV.ty] at hRest
  rcases hDeclare : (ctx.program.method E.method).declareLocal name value.ty with ⟨ty, x⟩
  simp only [declareLocal, declare_bind, hDeclare] at hRest
  rcases bind_ok hRest with ⟨_, ctx₁, hCast, hRest⟩
  have hDeclared : Reworks ctx { ctx with program := ctx.program.modifyMethod E.method fun _ => x }
        p f f :=
    .of_names hHung rfl rfl
  rcases castLast_ok hDeclared.hung hChildren hCast with ⟨value', hCasts, hFirst⟩
  have hRest' : (setNode f.id (if keep then .localTee name else .localSet name)
          (if keep then ty else .none)
        >>= fun _ => pure f.id) ctx₁ = .ok n ctx' := by
    cases keep <;> exact hRest
  rcases setNode_step hFirst.hung (by cases keep <;> rfl) hRest' with ⟨ctx₂, hSet, hEnd⟩
  rcases pure_ok hEnd with ⟨rfl, rfl⟩
  have hLast := hFirst.trans hSet
  have hAll := hDeclared.trans hLast.reworks
  refine ⟨_, ?_, ?_, hAll⟩
  · rw [hLast.program_eq]
    exact .localVar hChildren hNone hDeclare hCasts
  · rfl

theorem ivarAssign_ok (hRun : ivarAssign f.id name keep span ctx = .ok n ctx') :
    ∃ g, Assigns E name keep ctx.program f .instanceVar ctx'.program g
      ∧ n = g.id ∧ Reworks ctx ctx' p f g := by
  rcases bind_ok hRun with ⟨m, _, hMethod, hRest⟩
  rcases requireInstanceMethod_ok hPlace hMethod with ⟨rfl, hInstance, rfl⟩
  rw [program_bind] at hRest
  rcases bind_ok hRest with ⟨v, _, hValue, hRest⟩
  rcases assignedValue_ok hHung hValue with ⟨before, value, hChildren, hNone, rfl, rfl⟩
  have hHeldV := hHung.held.child (c := value) (by simp [hChildren])
  rw [tyOf_bind, hHeldV.ty, declare_bind] at hRest
  rcases hDeclare : ctx.program.declareIvar (ctx.program.method E.method).owner name
      value.ty true with ⟨slot, p'⟩
  rw [hDeclare] at hRest
  have hDeclared : Reworks ctx { ctx with program := p' } p f f := .of_names hHung rfl rfl
  rcases bind_ok hRest with ⟨ty, ctx₁, hField, hRest⟩
  cases hField
  rcases bind_ok hRest with ⟨_, ctx₂, hCast, hRest⟩
  rcases castLast_ok hDeclared.hung hChildren hCast with ⟨value', hCasts, hFirst⟩
  rcases prepend_step hFirst.hung hRest with ⟨ctx₃, this, hThis, hRest⟩
  rcases setNode_step hThis.hung rfl hRest with ⟨ctx₄, hSet, hRest⟩
  rcases mayKeep_ok hSet.hung hRest with ⟨g, hKeeps, hId, hKeep⟩
  have hLast := ((hFirst.trans hThis).trans hSet).trans hKeep
  refine ⟨g, ?_, hId, hDeclared.trans hLast.reworks⟩
  rw [hLast.program_eq]
  exact .instanceVar hInstance hChildren hNone hDeclare rfl hCasts hKeeps

theorem cvarAssign_ok (hRun : cvarAssign f.id name keep span ctx = .ok n ctx') :
    ∃ g, Assigns E name keep ctx.program f .classVar ctx'.program g
      ∧ n = g.id ∧ Reworks ctx ctx' p f g := by
  rcases bind_ok hRun with ⟨_, _, hMethod, hRest⟩
  rcases requireMethod_ok hPlace hMethod with ⟨_, rfl⟩
  rcases bind_ok hRest with ⟨v, _, hFind, hRest⟩
  rcases findCvar_ok hPlace hFind with ⟨hCvar, rfl⟩
  rcases bind_ok hRest with ⟨_, _, hValue, hRest⟩
  rcases assignedValue_ok hHung hValue with ⟨before, value, hChildren, hNone, rfl, rfl⟩
  rcases bind_ok hRest with ⟨_, ctx₁, hCast, hRest⟩
  rcases castLast_ok hHung hChildren hCast with ⟨value', hCasts, hFirst⟩
  rcases prepend_step hFirst.hung hRest with ⟨ctx₂, base, hBase, hRest⟩
  rcases setNode_step hBase.hung rfl hRest with ⟨ctx₃, hSet, hRest⟩
  rcases mayKeep_ok hSet.hung hRest with ⟨g, hKeeps, hId, hKeep⟩
  have hAll := ((hFirst.trans hBase).trans hSet).trans hKeep
  refine ⟨g, ?_, hId, hAll.reworks⟩
  rw [hAll.program_eq]
  exact .classVar hCvar hChildren hNone hCasts hKeeps

theorem globalAssign_ok (hRun : globalAssign f.id name keep span ctx = .ok n ctx') :
    ∃ g, Assigns E name keep ctx.program f .globalVar ctx'.program g
      ∧ n = g.id ∧ Reworks ctx ctx' p f g := by
  rcases bind_ok hRun with ⟨_, _, hMethod, hRest⟩
  rcases requireMethod_ok hPlace hMethod with ⟨_, rfl⟩
  rcases bind_ok hRest with ⟨ty, _, hType, hRest⟩
  rcases globalType_ok hType with ⟨g, hGlobal, rfl, rfl⟩
  rcases bind_ok hRest with ⟨_, _, hValue, hRest⟩
  rcases assignedValue_ok hHung hValue with ⟨before, value, hChildren, hNone, rfl, rfl⟩
  rcases bind_ok hRest with ⟨_, ctx₁, hCast, hRest⟩
  rcases castLast_ok hHung hChildren hCast with ⟨value', hCasts, hFirst⟩
  rcases setNode_step hFirst.hung rfl hRest with ⟨ctx₂, hSet, hRest⟩
  rcases mayKeep_ok hSet.hung hRest with ⟨h, hKeeps, hId, hKeep⟩
  have hAll := (hFirst.trans hSet).trans hKeep
  refine ⟨h, ?_, hId, hAll.reworks⟩
  rw [hAll.program_eq]
  exact .globalVar hGlobal hChildren hNone hCasts hKeeps

end Build

end RubyWat
