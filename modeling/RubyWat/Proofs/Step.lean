import RubyWat.Proofs.Place
import RubyWat.Proofs.Translation

/-
  Steps of a compilation as edits of fragments.

  Main statements: a step that succeeds turns the fragment that
  it works on into one that the rules of the translation give.
-/

-- Successful Steps

namespace RubyWat

open Code (NodeId Instr Tree)

variable {c f : Code.Fragment} {instr : Instr} {p : NodeId}
variable {ctx : Context}
variable {ty : ValueType}

theorem toOption_eq_some {ε α : Type} {x : Except ε α} {a : α} :
    x.toOption = some a ↔ x = .ok a := by
  cases x <;> simp [Except.toOption]

namespace Step

variable {ε σ α β : Type}

/- A sequence succeeds if its steps do. -/
theorem bind_ok {next : α → EStateM ε σ β}
    (hRun : (step >>= next) s = .ok b s') : ∃ a s₁, step s = .ok a s₁ ∧ next a s₁ = .ok b s' := by
  change EStateM.bind step next s = .ok b s' at hRun
  unfold EStateM.bind at hRun
  split at hRun
  · exact ⟨_, _, by assumption, hRun⟩
  · cases hRun

/- A sequence fails at its first step or behind it. -/
theorem bind_error {next : α → EStateM ε σ β} (hRun : (step >>= next) s = .error e s') :
    step s = .error e s' ∨ ∃ a s₁, step s = .ok a s₁ ∧ next a s₁ = .error e s' := by
  change EStateM.bind step next s = .error e s' at hRun
  unfold EStateM.bind at hRun
  split at hRun
  · exact .inr ⟨_, _, by assumption, hRun⟩
  · cases hRun
    exact .inl (by assumption)

theorem pure_ok (hRun : (pure a : EStateM ε σ α) s = .ok b s') : b = a ∧ s' = s := by
  cases hRun
  exact ⟨rfl, rfl⟩

/- A failure is no success. -/
theorem throw_ok (hRun : (throw e : EStateM ε σ α) s = .ok a s') : False := by
  cases hRun

theorem map_ok {f : α → β} {step : EStateM ε σ α} {s s' : σ} {b : β}
    (hRun : (f <$> step) s = .ok b s') : ∃ a, step s = .ok a s' ∧ b = f a := by
  change EStateM.map f step s = .ok b s' at hRun
  unfold EStateM.map at hRun
  split at hRun
  · cases hRun
    exact ⟨_, by assumption, rfl⟩
  · cases hRun

/- A check that did not fail. -/
theorem guard_ok {c : Prop} [Decidable c] {refuse rest : EStateM ε σ α} {a : α} {s s' : σ}
    (hRefuse : refuse s = .ok a s' → False) (hRun : (if c then refuse else rest) s = .ok a s') :
    ¬ c ∧ rest s = .ok a s' := by
  by_cases hCheck : c
  · rw [if_pos hCheck] at hRun
    exact (hRefuse hRun).elim
  · rw [if_neg hCheck] at hRun
    exact ⟨hCheck, hRun⟩

/- Nothing comes after a failure. -/
theorem bind_not_ok {next : α → EStateM ε σ β}
    (hFails : ∀ a s₁, step s = .ok a s₁ → False) (hRun : (step >>= next) s = .ok b s') : False := by
  rcases bind_ok hRun with ⟨a, s₁, hStep, _⟩
  exact hFails a s₁ hStep

end Step

-- What Steps Change

/- A relation of states that lasts over any number of steps. -/
class Lasting {σ : Type} (R : σ → σ → Prop) : Prop where
  refl : ∀ s, R s s
  trans : ∀ s₁ s₂ s₃, R s₁ s₂ → R s₂ s₃ → R s₁ s₃

instance {σ : Type} : Lasting (Eq : σ → σ → Prop) where
  refl := fun _ => rfl
  trans := fun _ _ _ => Eq.trans

/- A step after which a relation to the state before holds. -/
def Changes {ε σ α : Type} (R : σ → σ → Prop) (step : EStateM ε σ α) : Prop :=
  ∀ s a s', step s = .ok a s' → R s s'

namespace Changes

variable {ε σ α β : Type} {R : σ → σ → Prop}

theorem bind [Lasting R] {next : α → EStateM ε σ β} (hStep : Changes R step)
    (hNext : ∀ a, Changes R (next a)) : Changes R (step >>= next) := by
  intro s b s' hRun
  rcases Step.bind_ok hRun with ⟨a, s₁, hFirst, hRest⟩
  exact Lasting.trans s s₁ s' (hStep s a s₁ hFirst) (hNext a s₁ b s' hRest)

theorem pure [Lasting R] (a : α) : Changes R (Pure.pure a : EStateM ε σ α) := by
  intro s b s' hRun
  cases hRun
  exact Lasting.refl s

theorem get [Lasting R] : Changes R (MonadState.get : EStateM ε σ σ) := by
  intro s b s' hRun
  cases hRun
  exact Lasting.refl s

theorem throw (e : ε) : Changes R (MonadExcept.throw e : EStateM ε σ α) :=
  fun _ _ _ hRun => (Step.throw_ok hRun).elim

theorem map {step : EStateM ε σ α} {f : α → β} (hStep : Changes R step) :
    Changes R (f <$> step) := by
  intro s b s' hRun
  rcases Step.map_ok hRun with ⟨a, hRun, _⟩
  exact hStep s a s' hRun

theorem ite {c : Prop} [Decidable c] (hYes : Changes R yes)
    (hNo : Changes R no) : Changes R (if c then yes else no) := by
  split
  · exact hYes
  · exact hNo

/- A step that is only made in some cases, and then the rest. -/
theorem guard [Lasting R] {c : Prop} [Decidable c] {rest : EStateM ε σ β} (hFirst : Changes R first)
    (hRest : Changes R rest) : Changes R (if c then (first >>= fun _ : α => rest) else rest) :=
  .ite (.bind hFirst fun _ => hRest) hRest

/- A loop over a list changes what its body does. -/
theorem forIn [Lasting R] (as : List α)
    (hBody : ∀ a, Changes R (body a PUnit.unit)) : Changes R (ForIn.forIn as PUnit.unit body) := by
  induction as with
  | nil => exact .pure _
  | cons a as ih =>
    rw [List.forIn_cons]
    refine .bind (hBody a) fun step => ?_
    cases step with
    | done b => exact .pure b
    | yield b => exact ih

end Changes

-- Steps That Always Succeed

namespace Build

variable {α β : Type} (ctx : Context)

theorem get_bind (next : Context → Build β) : ((get : Build Context) >>= next) ctx = next ctx ctx :=
  rfl

theorem tree_bind (next : Tree → Build β) : (tree >>= next) ctx = next ctx.tree ctx :=
  rfl

theorem program_bind (next : Program → Build β) : (program >>= next) ctx = next ctx.program ctx :=
  rfl

theorem tyOf_bind (n : NodeId) (next : ValueType → Build β) :
    (tyOf n >>= next) ctx = next (ctx.tree.ty n) ctx :=
  rfl

theorem instrOf_bind (n : NodeId) (next : Instr → Build β) :
    (instrOf n >>= next) ctx = next (ctx.tree.instr n) ctx :=
  rfl

theorem spanOf_bind (n : NodeId) (next : Span → Build β) :
    (spanOf n >>= next) ctx = next (ctx.tree.span n) ctx :=
  rfl

theorem childrenOf_bind (n : NodeId) (next : List NodeId → Build β) :
    (childrenOf n >>= next) ctx = next (ctx.tree.children n) ctx :=
  rfl

theorem describe_bind (ty : ValueType) (next : String → Build β) :
    (describe ty >>= next) ctx = next (ctx.program.describe ty) ctx :=
  rfl

theorem modifyTree_bind (f : Tree → Tree) (next : Unit → Build β) :
    (modifyTree f >>= next) ctx = next () { ctx with tree := f ctx.tree } :=
  rfl

theorem modifyMethod_bind (m : MethodId) (f : Method → Method) (next : Unit → Build β) :
    (modifyMethod m f >>= next) ctx
      = next () { ctx with program := ctx.program.modifyMethod m f } :=
  rfl

theorem declare_bind (f : Program → α × Program) (next : α → Build β) :
    (declare f >>= next) ctx = next (f ctx.program).1 { ctx with program := (f ctx.program).2 } :=
  rfl

theorem createNode_bind (instr : Instr) (ty : ValueType) (next : NodeId → Build β) :
    (createNode instr ty >>= next) ctx
      = next ⟨ctx.tree.size⟩ { ctx with tree := (ctx.tree.create instr ty).2 } :=
  rfl

theorem addNode_bind (parent : NodeId) (instr : Instr) (ty : ValueType) (next : NodeId → Build β) :
    (addNode parent instr ty >>= next) ctx
      = next ⟨ctx.tree.size⟩ { ctx with tree := (ctx.tree.add parent instr ty).2 } :=
  rfl

theorem insertAbove_bind (n : NodeId) (instr : Instr) (ty : ValueType) (next : NodeId → Build β) :
    (insertAbove n instr ty >>= next) ctx
      = next ⟨ctx.tree.size⟩ { ctx with tree := (ctx.tree.insertAbove n instr ty).2 } :=
  rfl

theorem setNode_bind (n : NodeId) (instr : Instr) (ty : ValueType) (next : Unit → Build β) :
    (setNode n instr ty >>= next) ctx
      = next () { ctx with tree := (ctx.tree.setInstr n instr).setTy n ty } :=
  rfl

theorem pure_bind (a : α) (next : α → Build β) : ((pure a : Build α) >>= next) ctx = next a ctx :=
  rfl

theorem tryDeclare_ok {ctx : Context} {f : Program → Except Fault (α × Program)}
    (hRun : tryDeclare f ctx = .ok a ctx') :
    ∃ p, f ctx.program = .ok (a, p) ∧ ctx' = { ctx with program := p } := by
  rw [tryDeclare, program_bind] at hRun
  rcases hResult : f ctx.program with fault | ⟨b, p⟩
  · simp only [hResult] at hRun
    cases hRun
  · simp only [hResult] at hRun
    cases hRun
    exact ⟨p, rfl, rfl⟩

end Build

-- Rewriting A Fragment

open Code (Fragment NodeId Hung Held Edited Grown Open InMethod)

/- A step that only edits a fragment. -/
structure Rewrites (ctx ctx' : Context) (p : NodeId) (f f' : Fragment) : Prop where
  same : ctx' = { ctx with tree := ctx'.tree }
  edit : Edited ctx.tree ctx'.tree p f f'

namespace Rewrites

variable {ctx₁ ctx₂ : Context} {g : Fragment}

theorem of_edit (hEdit : Edited ctx.tree t p f g) : Rewrites ctx { ctx with tree := t } p f g :=
  ⟨rfl, hEdit⟩

theorem refl (hHung : Hung ctx.tree p f) : Rewrites ctx ctx p f f :=
  ⟨rfl, .refl hHung⟩

theorem hung (hStep : Rewrites ctx ctx₁ p f g) : Hung ctx₁.tree p g :=
  hStep.edit.hung

theorem trans (hFirst : Rewrites ctx ctx₁ p f g) (hSecond : Rewrites ctx₁ ctx₂ p g h) :
    Rewrites ctx ctx₂ p f h := by
  refine ⟨?_, hFirst.edit.trans hSecond.edit⟩
  rw [hSecond.same, hFirst.same]

/- A step on a child is a step on the whole. -/
theorem inside (hHung : Hung ctx.tree p f)
    (hChildren : f.children = before ++ c :: after) (hStep : Rewrites ctx ctx₁ f.id c c') :
    Rewrites ctx ctx₁ p f { f with children := before ++ c' :: after } :=
  ⟨hStep.same, hStep.edit.inside hHung hChildren⟩

theorem head (hHung : Hung ctx.tree p f)
    (hChildren : f.children = c :: rest) (hStep : Rewrites ctx ctx₁ f.id c c') :
    Rewrites ctx ctx₁ p f { f with children := c' :: rest } := by
  have hSplit : f.children = [] ++ c :: rest := hChildren
  exact inside hHung hSplit hStep

/- What steps that only edit the tree leave alone. -/
theorem program_eq (hStep : Rewrites ctx ctx₁ p f g) : ctx₁.program = ctx.program := by
  rw [hStep.same]

theorem options_eq (hStep : Rewrites ctx ctx₁ p f g) : ctx₁.options = ctx.options := by
  rw [hStep.same]

variable (hHung : Hung ctx.tree p f)
include hHung

theorem setNode (hLabel : instr.takesLabel = false) (ty : ValueType) : Rewrites ctx
      { ctx with tree := (ctx.tree.setInstr f.id instr).setTy f.id ty }
      p f { f with instr, ty } :=
  ⟨rfl, Code.Tree.edited_setNode hHung hLabel ty⟩

theorem setTy (ty : ValueType) :
    Rewrites ctx { ctx with tree := ctx.tree.setTy f.id ty } p f { f with ty } :=
  ⟨rfl, Code.Tree.edited_setTy hHung ty⟩

theorem setSpan (span : Span) :
    Rewrites ctx { ctx with tree := ctx.tree.setSpan f.id span } p f f :=
  ⟨rfl, Code.Tree.edited_setSpan hHung span⟩

section

variable (instr : Instr) (ty : ValueType)

theorem insertAbove : Rewrites ctx { ctx with tree := (ctx.tree.insertAbove f.id instr ty).2 }
      p f ⟨⟨ctx.tree.size⟩, instr, ty, [f]⟩ :=
  ⟨rfl, Code.Tree.edited_insertAbove hHung instr ty⟩

/- A new last child. -/
theorem add : Rewrites ctx { ctx with tree := (ctx.tree.add f.id instr ty).2 } p f
      { f with children := f.children ++ [.leaf ⟨ctx.tree.size⟩ instr ty] } :=
  ⟨rfl, (Code.Tree.grown_add hHung.root_isOpen instr ty).2.edited hHung⟩

/- A new first child. -/
theorem prepend : Rewrites ctx
      { ctx with tree := (ctx.tree.create instr ty).2.prependChild f.id ⟨ctx.tree.size⟩ } p f
      { f with children := .leaf ⟨ctx.tree.size⟩ instr ty :: f.children } :=
  ⟨rfl, Code.Tree.edited_prepend hHung instr ty⟩

end

/- A child taken off. -/
theorem detach (hChildren : f.children = before ++ c :: after) :
    Rewrites ctx { ctx with tree := ctx.tree.detach c.id } p f
      { f with children := before ++ after } :=
  ⟨rfl, (Code.Tree.edited_detach hHung hChildren).1⟩

end Rewrites

namespace Build

variable {ctx' : Context}
variable {β : Type} {b : β} (hHung : Hung ctx.tree p f)
include hHung

/- Edits at the front of a sequence, one by one. -/
theorem setNode_step (hLabel : instr.takesLabel = false)
    (hRun : (setNode f.id instr ty >>= next) ctx = .ok b ctx') :
    ∃ ctx₁, Rewrites ctx ctx₁ p f { f with instr, ty } ∧ next () ctx₁ = .ok b ctx' :=
  ⟨_, .setNode hHung hLabel ty, hRun⟩

theorem setTy_step (hRun : (setTy f.id ty >>= next) ctx = .ok b ctx') :
    ∃ ctx₁, Rewrites ctx ctx₁ p f { f with ty } ∧ next () ctx₁ = .ok b ctx' :=
  ⟨_, .setTy hHung ty, hRun⟩

theorem setSpan_step (hRun : (setSpan f.id span >>= next) ctx = .ok b ctx') :
    ∃ ctx₁, Rewrites ctx ctx₁ p f f ∧ next () ctx₁ = .ok b ctx' :=
  ⟨_, .setSpan hHung span, hRun⟩

theorem insertAbove_step (hRun : (insertAbove f.id instr ty >>= next) ctx = .ok b ctx') :
    ∃ ctx₁ above, Rewrites ctx ctx₁ p f ⟨above, instr, ty, [f]⟩ ∧ next above ctx₁ = .ok b ctx' :=
  ⟨_, _, .insertAbove hHung instr ty, hRun⟩

theorem addNode_step (hRun : (addNode f.id instr ty >>= next) ctx = .ok b ctx') :
    ∃ ctx₁ n, Rewrites ctx ctx₁ p f { f with children := f.children ++ [.leaf n instr ty] }
      ∧ next n ctx₁ = .ok b ctx' :=
  ⟨_, _, .add hHung instr ty, hRun⟩

theorem prepend_step (hRun : (do
        let n ← createNode instr ty
        modifyTree (·.prependChild f.id n)
        next) ctx = .ok b ctx') :
    ∃ ctx₁ n, Rewrites ctx ctx₁ p f { f with children := .leaf n instr ty :: f.children }
      ∧ next ctx₁ = .ok b ctx' :=
  ⟨_, _, .prepend hHung instr ty, hRun⟩

end Build

/- A step that edits a fragment and may declare names. -/
structure Reworks (ctx ctx' : Context) (p : NodeId) (f f' : Fragment) : Prop where
  options_eq : ctx'.options = ctx.options
  edit : Edited ctx.tree ctx'.tree p f f'

namespace Reworks

variable {ctx₁ ctx₂ : Context} {g : Fragment}

theorem hung (hStep : Reworks ctx ctx₁ p f g) : Hung ctx₁.tree p g :=
  hStep.edit.hung

theorem trans (hFirst : Reworks ctx ctx₁ p f g) (hSecond : Reworks ctx₁ ctx₂ p g h) :
    Reworks ctx ctx₂ p f h :=
  ⟨hSecond.options_eq.trans hFirst.options_eq, hFirst.edit.trans hSecond.edit⟩

/- A step that only declares names. -/
theorem of_names (hHung : Hung ctx.tree p f) (hTree : ctx₁.tree = ctx.tree)
    (hOptions : ctx₁.options = ctx.options) : Reworks ctx ctx₁ p f f := by
  refine ⟨hOptions, ?_⟩
  rw [hTree]
  exact .refl hHung

end Reworks

theorem Rewrites.reworks (hStep : Rewrites ctx ctx' p f f') : Reworks ctx ctx' p f f' :=
  ⟨hStep.options_eq, hStep.edit⟩

end RubyWat

-- Conversions

namespace RubyWat

variable {fold : Bool} {ctx : Context}

namespace Build

open Code (Fragment NodeId Hung)
open Translation

variable {ctx' : Context} {p n : NodeId} {f : Fragment}

theorem convert_of_const (hInstr : ctx.tree.instr n = .const value)
    (kind : Conversion) (target : ValueType) (signed : Bool) :
    convert n kind target signed ctx = .ok n { ctx with
        tree := (ctx.tree.setInstr n (.const (kind.literal signed value))).setTy n target } := by
  simp only [convert, instrOf_bind, hInstr]
  rfl

theorem convert_of_not_const (hInstr : ∀ value, ctx.tree.instr n ≠ .const value)
    (kind : Conversion) (target : ValueType) (signed : Bool) :
    convert n kind target signed ctx = emitCast n kind target signed ctx := by
  simp only [convert, instrOf_bind]

/- A conversion that is carried out. -/
theorem convert_ok (hHung : Hung ctx.tree p f) (hKeep : Conversion.between f.ty target ≠ .keep)
    (hAllowed : (Conversion.between f.ty target).isAllowed)
    (hRun : convert f.id (Conversion.between f.ty target) target signed ctx = .ok n ctx') :
    ∃ g, Casts signed target f g ∧ n = g.id ∧ Rewrites ctx ctx' p f g := by
  have hInstr := hHung.held.instr
  by_cases hLiteral : ∃ value, f.instr = .const value
  · rcases hLiteral with ⟨value, hConst⟩
    rw [convert_of_const (hInstr.trans hConst)] at hRun
    cases hRun
    exact ⟨_, .literal hConst hKeep hAllowed, rfl, .setNode hHung rfl _⟩
  · have hConst : ∀ value, f.instr ≠ .const value := fun value hEq => hLiteral ⟨value, hEq⟩
    rw [convert_of_not_const (by rwa [hInstr])] at hRun
    cases hKind : Conversion.between f.ty target with
    | keep => exact absurd hKind hKeep
    | unsupported | invalid => simp [hKind, Conversion.isAllowed] at hAllowed
    | retag =>
      rw [hKind] at hRun
      cases hRun
      exact ⟨_, .retag hConst hKind, rfl, .setTy hHung _⟩
    | extend =>
      rw [hKind] at hRun
      cases hRun
      exact ⟨_, .extend hConst hKind, rfl, .insertAbove hHung _ _⟩
    | wrap =>
      rw [hKind] at hRun
      cases hRun
      exact ⟨_, .wrap hConst (.inl hKind), rfl, .insertAbove hHung _ _⟩
    | wrapRetag =>
      rw [hKind] at hRun
      cases hRun
      exact ⟨_, .wrap hConst (.inr hKind), rfl, .insertAbove hHung _ _⟩

theorem cast_ok (hHung : Hung ctx.tree p f) (hRun : cast f.id target signed span ctx = .ok n ctx') :
    ∃ g, Casts signed target f g ∧ n = g.id ∧ Rewrites ctx ctx' p f g := by
  simp only [cast, tyOf_bind, hHung.held.ty] at hRun
  cases hKind : Conversion.between f.ty target with
  | unsupported | invalid =>
    simp only [hKind, describe_bind] at hRun
    exact (Step.throw_ok hRun).elim
  | keep =>
    simp only [hKind] at hRun
    rcases Step.pure_ok hRun with ⟨rfl, rfl⟩
    exact ⟨f, .keep hKind, rfl, .refl hHung⟩
  | extend | wrap | retag | wrapRetag =>
    refine convert_ok hHung (by simp [hKind]) (by simp [hKind, Conversion.isAllowed]) ?_
    simpa only [hKind] using hRun

end Build

-- Operators On Literals

open Code (Fragment NodeId Hung Held)
open Translation

namespace Code

@[simp] theorem Fragment.folded_id (fold : Bool) (f : Fragment) : (f.folded fold).id = f.id := by
  unfold folded
  split
  · split <;> rfl
  · rfl

@[simp] theorem Fragment.folded_ty (fold : Bool) (f : Fragment) : (f.folded fold).ty = f.ty := by
  unfold folded
  split
  · split <;> rfl
  · rfl

end Code

namespace Context

variable {f : Fragment}

/- The literals among held children are those of the fragments. -/
theorem literals_eq {fs : List Fragment} (hHeld : ∀ c ∈ fs, Held ctx.tree c) :
    ((fs.map Fragment.id).mapM fun c =>
        match ctx.tree.instr c with
        | .const value => some value
        | _ => none)
      = fs.mapM Fragment.literal? := by
  induction fs with
  | nil => rfl
  | cons c rest ih =>
    have hInstr := (hHeld c (.head _)).instr
    rw [List.map_cons, List.mapM_cons, List.mapM_cons,
      ih fun d hMem => hHeld d (.tail c hMem), hInstr]
    rfl

theorem foldedValue?_eq (hHeld : Held ctx.tree f) : ctx.foldedValue? f.id = f.foldedValue? := by
  have hLiterals : ctx.literals? f.id = f.children.mapM Fragment.literal? := by
    rw [literals?, hHeld.children]
    exact literals_eq fun _ => hHeld.child
  have hFirst : ctx.tree.firstChild? f.id = f.children.head?.map (·.id) := by
    rw [Code.Tree.firstChild?, hHeld.children, List.head?_map]
  simp only [foldedValue?, Fragment.foldedValue?, hLiterals, hHeld.instr, hHeld.ty, hFirst]
  cases hHead : f.children.head? with
  | none => rfl
  | some c =>
    rcases c with ⟨n, instr, ty, fs⟩
    have hTy : ctx.tree.ty n = ty := (hHeld.child (List.mem_of_head? hHead)).ty
    subst hTy
    rfl

end Context

namespace Build

variable {ctx' : Context} {p n : NodeId} {f : Fragment}

variable (hFold : ctx.options.foldConstants = fold) (hHung : Hung ctx.tree p f)
include hFold hHung

theorem fold_ok (hRun : Build.fold f.id ctx = .ok n ctx') :
    n = f.id ∧ Rewrites ctx ctx' p f (f.folded fold) := by
  simp only [Build.fold, get_bind, hFold] at hRun
  unfold Fragment.folded
  rw [Context.foldedValue?_eq hHung.held] at hRun
  cases fold with
  | false =>
    cases hRun
    exact ⟨rfl, .refl hHung⟩
  | true =>
    cases hValue : f.foldedValue? with
    | none =>
      rw [hValue] at hRun
      cases hRun
      exact ⟨rfl, .refl hHung⟩
    | some value =>
      rw [hValue] at hRun
      cases hRun
      exact ⟨rfl, rfl, Code.Tree.edited_clear hHung rfl⟩

/- A comparison of a fragment with a literal, perhaps folded. -/
theorem compareAbove_ok (hRun : (do
        let test ← Build.insertAbove f.id (.compare op ty) .i32
        let _ ← addNode test (.const 0) (.machine ty)
        Build.fold test) ctx = .ok n ctx') :
    ∃ above zero, n = above ∧ Rewrites ctx ctx' p f (Fragment.folded fold
            ⟨above, .compare op ty, .i32, [f, .leaf zero (.const 0) (.machine ty)]⟩) := by
  rw [insertAbove_bind, addNode_bind] at hRun
  have hAbove := Rewrites.insertAbove hHung (.compare op ty) .i32
  have hAdd := Rewrites.add hAbove.hung (.const 0) (.machine ty)
  rcases fold_ok (by exact hFold) hAdd.hung hRun with ⟨hId, hStep⟩
  exact ⟨_, _, hId, (hAbove.trans hAdd).trans hStep⟩

theorem condition_ok (hRun : condition f.id ctx = .ok n ctx') :
    ∃ g, Tests fold f g ∧ n = g.id ∧ Rewrites ctx ctx' p f g := by
  simp only [condition, tyOf_bind, hHung.held.ty] at hRun
  cases hTy : f.ty with
  | none =>
    simp only [hTy, spanOf_bind] at hRun
    exact (Step.throw_ok hRun).elim
  | ref c =>
    simp only [hTy] at hRun
    cases hRun
    exact ⟨_, .ref hTy, rfl, .setTy hHung _⟩
  | machine ty =>
    cases ty with
    | i32 =>
      simp only [hTy] at hRun
      cases hRun
      exact ⟨f, .narrow hTy, rfl, .refl hHung⟩
    | i64 =>
      simp only [hTy] at hRun
      rcases compareAbove_ok hFold hHung hRun with ⟨above, zero, hId, hStep⟩
      exact ⟨_, .wide hTy, by rw [hId, Fragment.folded_id], hStep⟩
    | f32 | f64 =>
      simp only [hTy, spanOf_bind] at hRun
      exact (Step.throw_ok hRun).elim

theorem boolean_ok (hRun : boolean f.id ctx = .ok n ctx') :
    ∃ g, Decides fold f g ∧ n = g.id ∧ Rewrites ctx ctx' p f g := by
  rcases Step.bind_ok hRun with ⟨k, ctx₁, hTest, hRest⟩
  rcases condition_ok hFold hHung hTest with ⟨g, hTests, rfl, hStep⟩
  have hHung₁ := hStep.hung
  rw [instrOf_bind, hHung₁.held.instr] at hRest
  cases hBoolean : isBoolean g.instr with
  | true =>
    rw [hBoolean] at hRest
    cases hRest
    exact ⟨g, .boolean hTests hBoolean, rfl, hStep⟩
  | false =>
    rw [hBoolean] at hRest
    rcases compareAbove_ok (hStep.options_eq ▸ hFold) hHung₁ hRest with ⟨above, zero, hId, hLast⟩
    exact ⟨_, .compare hTests hBoolean, by rw [hId, Fragment.folded_id], hStep.trans hLast⟩

/- The condition of a branch is its first child. -/
theorem branchIf_ok (hRun : branchIf f.id negate ctx = .ok () ctx') :
    ∃ c c' rest, f.children = c :: rest ∧ BranchesOn fold negate c c'
      ∧ Rewrites ctx ctx' p f { f with children := c' :: rest } := by
  simp only [branchIf, tree_bind, Code.Tree.firstChild?, hHung.held.children] at hRun
  cases hChildren : f.children with
  | nil =>
    simp only [hChildren] at hRun
    exact (Step.throw_ok hRun).elim
  | cons c rest =>
    simp only [hChildren, List.map_cons, List.head?_cons] at hRun
    have hChild : c ∈ f.children := by simp [hChildren]
    have hHungC := hHung.child hChild
    rcases Step.bind_ok hRun with ⟨k, ctx₁, hTest, hRest⟩
    rcases condition_ok hFold hHungC hTest with ⟨g, hTests, rfl, hStep⟩
    cases negate with
    | false =>
      cases hRest
      exact ⟨c, g, rest, rfl, .direct hTests, .head hHung hChildren hStep⟩
    | true =>
      rw [if_pos rfl, insertAbove_bind] at hRest
      rcases Step.bind_ok hRest with ⟨_, ctx₂, hFolded, hEnd⟩
      cases hEnd
      have hAbove := Rewrites.insertAbove hStep.hung (.unary .eqz) .i32
      have hFold₁ : ctx₁.options.foldConstants = fold := by rw [hStep.options_eq, hFold]
      rcases fold_ok (by exact hFold₁) hAbove.hung hFolded with ⟨_, hLast⟩
      have hAll := (hStep.trans hAbove).trans hLast
      exact ⟨c, _, rest, rfl, .inverted hTests, .head hHung hChildren hAll⟩

end Build

end RubyWat
