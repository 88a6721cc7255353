import RubyWat.Proofs.Constants

/-
  The code of constant expressions.

  An expression whose value is known at compile time may as well stand inside of a method.
  There it is compiled to code, which computes the value when the program runs.

  Main statement: what a constant expression is evaluated to, the code of the same expression
  computes, with the same type (`constant_code_agrees`).
-/

-- Steps That Succeed

namespace RubyWat

open Code Machine Translation Lower Dump Integral List Option Nat

variable {signed : Bool} {operand : Fragment}
variable {parent : NodeId} {path : ConstPath}
variable {n node receiver : Node} {op : Binary}
variable {w : Width} {items : List (Item Node)}
variable {places : List Constants.Place} {args : List Node}
variable {t : LowerState} {u : Value} {name : String}

namespace Build

variable {ctx : Context} {p : NodeId} {f left right : Fragment}
variable {a b : Width}

/- Integers can be cast to integers. -/
theorem cast_runs (hHung : Hung ctx.tree p f) (hTy : f.ty = a.type) (signed : Bool) (span : Span) :
    ∃ n ctx', cast f.id w.type signed span ctx = .ok n ctx' := by
  simp only [cast, tyOf_bind, hHung.held.ty, hTy]
  by_cases hLiteral : ∃ raw, f.instr = .const raw
  · rcases hLiteral with ⟨raw, hConst⟩
    have hInstr := hHung.held.instr.trans hConst
    cases a <;> cases w <;>
      first
        | exact ⟨_, _, rfl⟩
        | exact ⟨_, _, convert_of_const hInstr _ _ _⟩
  · have hInstr : ∀ raw, ctx.tree.instr f.id ≠ .const raw := by
      intro raw hConst
      exact hLiteral ⟨raw, hHung.held.instr.symm.trans hConst⟩
    cases a <;> cases w <;>
      first
        | exact ⟨_, _, rfl⟩
        | exact ⟨_, _, convert_of_not_const hInstr _ _ _⟩

theorem promote_runs (hHung : Hung ctx.tree p f) (hTy : f.ty = a.type) :
    ∃ n ctx', promote f.id w.type ctx = .ok n ctx' := by
  rw [promote, spanOf_bind]
  exact cast_runs hHung hTy true _

theorem fold_runs (n : NodeId) : ∃ ctx', Build.fold n ctx = .ok n ctx' := by
  simp only [Build.fold, get_bind]
  split
  · cases ctx.foldedValue? n <;> exact ⟨_, rfl⟩
  · exact ⟨_, rfl⟩

theorem binaryOperator_runs (hOp : Binary.ofName? name = some op) (hHung : Hung ctx.tree p f)
    (hChildren : f.children = [left, right]) (hLeft : left.ty = a.type) (hRight : right.ty = b.type)
    (span : Span) : ∃ n ctx', binaryOperator f.id left.id right.id name span ctx = .ok n ctx' := by
  have hHungL := hHung.first hChildren
  have hKnown : (binaryInstr? name .i32).isNone = false := by
    rw [Binary.code_eq, hOp]
    rfl
  have hMachine : (a.join b).type.machine? = some (a.join b).machine := rfl
  rcases promote_runs (w := a.join b) hHungL hLeft with ⟨n₁, ctx₁, hFirst⟩
  rcases promote_ok hHungL hFirst with ⟨left', hCast, _, hStep⟩
  have hHung₁ := (Rewrites.head hHung hChildren hStep).hung
  rcases promote_runs (w := a.join b) (hHung₁.child (.tail _ (.head _))) hRight with
    ⟨n₂, ctx₂, hSecond⟩
  simp only [binaryOperator, tyOf_bind, hHungL.held.ty, hKnown, Bool.false_eq_true, if_false]
  rw [(hHung.second hChildren).held.ty, hLeft, hRight]
  simp only [Width.leading_types, hMachine, Width.isFloat_machine,
    Bool.false_eq_true, if_false, Binary.code_eq, hOp, map_some]
  rw [bind_of_ok hFirst, bind_of_ok hSecond, setNode_bind]
  rcases fold_runs f.id with ⟨ctx', hFold⟩
  exact ⟨f.id, ctx', hFold⟩

theorem unaryOperator_runs {op : Unary} (hOp : Unary.ofName? name = some op)
    (hHung : Hung ctx.tree p f) (hChildren : f.children = [operand]) (hTy : operand.ty = w.type)
    (span : Span) : ∃ n ctx', unaryOperator f.id operand.id name span ctx = .ok n ctx' := by
  have hMachine : w.type.machine? = some w.machine := rfl
  have hFinish : ∀ ctx₁, ∃ n ctx', Build.fold f.id ctx₁ = .ok n ctx' := by
    intro ctx₁
    rcases fold_runs f.id with ⟨ctx', hFold⟩
    exact ⟨f.id, ctx', hFold⟩
  simp only [unaryOperator, tyOf_bind, (hHung.first hChildren).held.ty, hTy, hMachine,
    Width.isFloat_machine, Bool.false_eq_true, if_false]
  unfold Unary.ofName? at hOp
  split at hOp
  · simp only [createNode_bind, modifyTree_bind, setNode_bind]
    exact hFinish _
  · simp only [addNode_bind, setNode_bind]
    exact hFinish _
  · simp only [setNode_bind]
    exact hFinish _
  · rcases map_eq_some_iff.mp hOp with ⟨native, hName, rfl⟩
    simp only [hName, setNode_bind]
    exact hFinish _

end Build

namespace Lower

variable {ctx : Context} {p : NodeId} {f : Fragment}
variable {args : List Fragment}

/- A call on an integer is an operator. -/
theorem applyMethod_eq (hHung : Hung ctx.tree p f) (hChildren : f.children = operand :: args)
    (hTy : operand.ty = w.type) (name : String) (span : Span) :
    applyMethod f.id name span ctx = match args with
        | [] => Build.unaryOperator f.id operand.id name span ctx
        | [arg] => Build.binaryOperator f.id operand.id arg.id name span ctx
        | args => .error (.argumentCount name 1 args.length span) ctx := by
  have hHungO := hHung.first hChildren
  have hFirst : ctx.tree.children f.id = operand.id :: args.map Fragment.id := by
    rw [hHung.held.children, hChildren]
    rfl
  simp only [applyMethod, Build.tree_bind, Tree.firstChild?, hFirst, head?_cons,
    Build.tyOf_bind, hHungO.held.ty, hTy, Width.type, Build.operator, Build.childrenOf_bind]
  rcases args with _ | ⟨arg, _ | ⟨other, rest⟩⟩
  · rfl
  · rfl
  · simp only [map_cons, length_cons, length_map]
    rfl

end Lower

-- Heights

namespace Dump

namespace Node

theorem height_le_of_mem (hMem : .node n ∈ items) : n.height ≤ heightBelow items := by
  induction items with
  | nil => cases hMem
  | cons item items ih =>
    rcases mem_cons.mp hMem with rfl | hRest
    · rw [heightBelow]
      exact le_max_left _ _
    have hBelow := ih hRest
    cases item with
    | node other =>
      rw [heightBelow]
      exact le_trans hBelow (le_max_right _ _)
    | _ =>
      rw [heightBelow]
      · exact hBelow
      · intro _ hNode
        cases hNode

/- A part of a node is less high than the node. -/
theorem height_lt (hMem : .node n ∈ node.items) : n.height < node.height := by
  rcases node with ⟨tag, items, span⟩
  rw [height]
  exact lt_succ_of_le (height_le_of_mem hMem)

theorem mem_items_of_filterMap (hMem : n ∈ items.filterMap Item.node?) : .node n ∈ items := by
  rcases mem_filterMap.mp hMem with ⟨item, hItem, hNode⟩
  cases item <;> cases hNode
  exact hItem

end Node

end Dump

namespace Translation

/- The receiver and the arguments of a call are parts of it. -/
theorem Sends.height_lt (hSend : Sends node (some receiver) name args) :
    receiver.height < node.height ∧ ∀ arg ∈ args, arg.height < node.height := by
  cases hSend with
  | toReceiver hTag hItems hName =>
    constructor
    · apply Node.height_lt
      rw [hItems]
      exact (.head _)
    · intro arg hMem
      have hItem := Node.mem_items_of_filterMap hMem
      exact Node.height_lt (mem_of_mem_drop hItem)

end Translation

-- Compilation

namespace Constants

/- Code that computes a value, from any state. -/
def Yields (f : Fragment) (v : Value) : Prop :=
  f.ty = (widthOf v).type ∧ ∀ (σ : Type) (h : Host σ) (depth : Nat) (P : State σ → Prop),
    Computes h depth P f (widthOf v) (pure v)

namespace Yields

variable {f g left right : Fragment} {v x : Value}
variable {fold : Bool} {n : NodeId}

theorem ty_eq (hYields : Yields f v) : f.ty = (widthOf v).type :=
  hYields.1

theorem casts (hYields : Yields f v) (hCasts : Casts signed w.type f g) :
    Yields g (castTo w signed v) := by
  rw [Yields, widthOf_castTo]
  refine ⟨hCasts.ty_eq, fun σ h depth P => ?_⟩
  have hCast := (hYields.2 σ h depth P).casts rfl hCasts
  rwa [map_pure] at hCast

theorem combines (hLeft : Yields left u) (hRight : Yields right v)
    (hCombines : Combines fold n left right op f) (hApply : op.apply u v = some x) :
    Yields f x := by
  rw [Yields, Binary.widthOf_apply hApply]
  refine ⟨hCombines.ty_eq (a := some _) (b := some _) (by rw [hLeft.1]; rfl)
    (by rw [hRight.1]; rfl), fun σ h depth P => ?_⟩
  have hBoth := (hLeft.2 σ h depth P).combines (hRight.2 σ h depth P) hCombines
  rwa [pure_bind, pure_bind, hApply] at hBoth

theorem alters {op : Unary} (hYields : Yields f v) (hAlters : Alters fold n f op g) :
    Yields g (op.apply v) := by
  rw [Yields, Unary.widthOf_apply]
  refine ⟨hAlters.ty_eq (w := some _) hYields.1, fun σ h depth P => ?_⟩
  have hOne := (hYields.2 σ h depth P).alters hAlters
  rwa [map_pure] at hOne

end Yields

/- A node whose code is put below any node inside of a method and computes a value. -/
def Compiles (unit : SourceUnit → Lower Unit) (E : Env) (p : Program)
    (node : Node) (v : Value) : Prop :=
  ∀ (fuel : Nat) (parent : NodeId) (t : LowerState),
    node.height ≤ fuel → t.ctx.program = p → Inside E t parent → ∃ f t',
        lowerNode unit fuel parent node true t = .ok (some f.id) t' ∧ Places t t' parent [f]
          ∧ t'.ctx.program = p
          ∧ Yields f v

variable {unit : SourceUnit → Lower Unit} {E : Env} {p : Program}
variable {v : Value}

/- A construct whose code is known is kept as it is. -/
theorem Compiles.of_dispatch (hDispatch : ∀ (fuel : Nat) (parent : NodeId) (t : LowerState),
        node.height ≤ fuel + 1 → t.ctx.program = p →
        Inside E t parent → ∃ f t', dispatch ⟨lowerNode unit fuel, unit⟩ parent node true t
                = .ok (some f.id) t'
              ∧ Places t t' parent [f]
              ∧ t'.ctx.program = p
              ∧ Yields f v) :
    Compiles unit E p node v := by
  intro fuel parent t hFuel hProgram hInside
  cases fuel with
  | zero =>
    rcases node with ⟨tag, items, span⟩
    rw [Node.height] at hFuel
    omega
  | succ fuel =>
    rcases hDispatch fuel parent t hFuel hProgram hInside with
      ⟨f, t', hRun, hPlaces, hSame, hYields⟩
    refine ⟨f, t', ?_, hPlaces, hSame, hYields⟩
    rw [lowerNode, bind_of_ok hRun]
    rfl

/- The value of a node that compiles. -/
theorem Compiles.value_runs (hCompiles : Compiles unit E p node v)
    (hFuel : node.height ≤ fuel) (hProgram : t.ctx.program = p) (hInside : Inside E t parent) :
    ∃ f t', value ⟨lowerNode unit fuel, unit⟩ parent node t = .ok f.id t' ∧ Places t t' parent [f]
        ∧ t'.ctx.program = p
        ∧ Yields f v := by
  rcases hCompiles fuel parent t hFuel hProgram hInside with ⟨f, t', hRun, hPlaces, hSame, hYields⟩
  refine ⟨f, t', ?_, hPlaces, hSame, hYields⟩
  have hHung := hPlaces.hung hInside.isOpen (.head _)
  have hTy : (liftM (Build.tyOf f.id) : Lower ValueType) t' = .ok (widthOf v).type t' := by
    rw [← hYields.ty_eq, ← hHung.held.ty]
    rfl
  have hSome : (widthOf v).type.isNone = false := by
    cases widthOf v <;> rfl
  rw [value, bind_of_ok hRun]
  dsimp only
  rw [bind_of_ok hTy, hSome]
  rfl

/- A node that becomes a literal. -/
theorem Compiles.of_literal (hDispatch : ∀ (d : Descent) (parent n : NodeId) (t t' : LowerState),
        t.ctx.program = p → Inside E t parent →
        build (Build.addNodeAt parent (.const v.toInt64) (widthOf v).type node.span) t = .ok n t' →
          dispatch d parent node true t = .ok (some n) t') :
    Compiles unit E p node v := by
  apply Compiles.of_dispatch
  intro fuel parent t _ hProgram hInside
  have hRun : ∃ n t', build (Build.addNodeAt parent (.const v.toInt64)
        (widthOf v).type node.span) t = .ok n t' := ⟨_, _, rfl⟩
  rcases hRun with ⟨n, t', hRun⟩
  rcases addNodeAt_ok hInside.isOpen hRun with ⟨hPlaces, hSame⟩
  refine ⟨_, t', hDispatch _ parent n t t' hProgram hInside hRun, hPlaces, hSame.trans hProgram, ?_⟩
  exact ⟨rfl, fun σ h depth P => .const rfl rfl rfl⟩

theorem compiles_int (hTag : node.tag = .int) (hInt : node.intAt 0 = .ok raw) :
    Compiles unit E p node ((Width.ofLiteral raw).value raw) := by
  apply Compiles.of_literal
  intro d parent n t t' _ hInside hRun
  have hLiteral := constOf_literal raw
  simp only [constOf, ConstValue.int.injEq] at hLiteral
  rw [hLiteral.1, hLiteral.2] at hRun
  simp only [dispatch, hTag, Lower.isExecutable, if_true,
    Lower.requireMethodScope_bind hInside, Lower.operand, hInt]
  exact map_of_ok hRun some

theorem compiles_bool (hTag : node.tag = if b then .trueLit else .falseLit) :
    Compiles unit E p node (.ofBool b) := by
  apply Compiles.of_literal
  intro d parent n t t' _ hInside hRun
  cases b <;>
    simp only [dispatch, hTag, Lower.isExecutable, Bool.false_eq_true, if_false, if_true,
      Lower.requireMethodScope_bind hInside, Lower.operand] <;>
    exact map_of_ok hRun some

/- The value of a constant inside of a method. -/
theorem constValue_eq {value : ConstValue}
    (hFind : p.findConst? path (p.method E.method).owner = some value)
    (hProgram : t.ctx.program = p) (hInside : Inside E t parent) (span : Span) :
    Build.constValue parent path span t.ctx = .ok value t.ctx := by
  subst hProgram
  simp only [Build.constValue, Build.get_bind, Context.classOf_inMethod hInside.place, hFind]
  rfl

theorem compiles_reference (hTag : node.tag = .const) (hPath : node.constPath? = some path)
    (hFind : p.findConst? path (p.method E.method).owner = some (constOf v)) :
    Compiles unit E p node v := by
  apply Compiles.of_literal
  intro d parent n t t' hProgram hInside hRun
  have hValue := constValue_eq hFind hProgram hInside node.span
  have hGet : Lower.build (Build.constGet parent path node.span) t = .ok n t' := by
    rw [← hRun]
    rcases t with ⟨ctx, loader, pending, asking⟩
    rw [Lower.build, Build.constGet, bind_of_ok hValue]
    rfl
  simp only [dispatch, hTag, Lower.isExecutable, if_true, Lower.requireMethodScope_bind hInside,
    Lower.operand, Lower.constPath, hPath, Dump.Node.require]
  exact map_of_ok hGet some

theorem compiles_sequence {inner : Node} (hTag : node.tag = .begin)
    (hNodes : node.nodes = [inner]) (hInner : Compiles unit E p inner v) :
    Compiles unit E p node v := by
  apply Compiles.of_dispatch
  intro fuel parent t hFuel hProgram hInside
  have hLess : inner.height < node.height := by
    apply Node.height_lt
    apply Node.mem_items_of_filterMap
    show inner ∈ node.nodes
    rw [hNodes]
    exact (.head _)
  simp only [dispatch, hTag, isExecutable, Bool.false_eq_true, if_false, hNodes]
  exact hInner fuel parent t (by omega) hProgram hInside

/- A step on the code tree, from syntax. -/
theorem build_of_ok {α : Type} {a : α} {step : Build α}
    (hStep : step t.ctx = .ok a ctx') : build step t = .ok a { t with ctx := ctx' } := by
  rcases t with ⟨ctx, loader, pending, asking⟩
  rw [build, hStep]

/- The name of a type that a node holds can be read off. -/
theorem typeName_eq (hText : typeText? node = some name) : typeName node t = .ok name t := by
  unfold typeText? at hText
  split at hText
  · rename_i path hTag hPath
    cases hText
    simp only [typeName, hTag, hPath]
    rfl
  · rename_i hTag
    cases hSymbol : node.symbolAt 0 with
    | ok found =>
      rw [hSymbol] at hText
      cases hText
      simp only [typeName, hTag, hSymbol]
      rfl
    | error e =>
      rw [hSymbol] at hText
      cases hText
  · cases hText

theorem typeArgument_width (hWidth : widthNamed? node = some w) :
    typeArgument parent node t = .ok w.type t := by
  rcases bind_eq_some_iff.mp hWidth with ⟨name, hText, _⟩
  have hNamed := typeNamed_width (p := t.ctx.program) (c := t.ctx.classOf parent) hWidth
  rw [TypeNamed, hText, bind_some] at hNamed
  simp only [typeArgument, context_bind]
  rw [bind_of_ok (typeName_eq hText), hNamed]
  rfl

/- A call on a receiver that is no static data. -/
theorem dispatch_send (hSend : Sends node (some receiver) name args)
    (hData : isDataRegistry receiver = false) (hInside : Inside E t parent) (d : Descent) :
    dispatch d parent node true t = (if name = "cast_to" then
          some <$> castCall d parent node receiver args
        else do
          match ← namedClass parent receiver with
          | some c => some <$> classCall d parent node c name args
          | none => some <$> valueCall d parent node receiver name args) t := by
  have hTag := hSend.tag_eq
  cases hSend with
  | toReceiver _ hItems hName =>
    simp only [dispatch, hTag, isExecutable, Bool.false_eq_true, if_false, sendNode,
      hName, hItems, receiverSend, hData]
    exact requireMethodScope_bind hInside node _

theorem compiles_cast (hSend : Sends node (some receiver) "cast_to" args)
    (hData : isDataRegistry receiver = false) (hArgs : CastArguments args tyNode signed)
    (hWidth : widthNamed? tyNode = some w) (hReceiver : Compiles unit E p receiver v) :
    Compiles unit E p node (castTo w signed v) := by
  apply Compiles.of_dispatch
  intro fuel parent t hFuel hProgram hInside
  have hLess : receiver.height ≤ fuel := by
    have := hSend.height_lt.1
    omega
  rcases hReceiver.value_runs hLess hProgram hInside with ⟨f, t₁, hValue, hPlaces, hSame, hYields⟩
  have hFound : castArguments args node.span t = .ok (tyNode, signed) t := by
    cases hArgs with
    | unsigned => rfl
    | signed hFlag => simp only [castArguments, hFlag, if_true]; rfl
  have hHung := hPlaces.hung hInside.isOpen (.head _)
  rcases Build.cast_runs (w := w) hHung hYields.ty_eq signed node.span with ⟨n, ctx', hCast⟩
  rcases Build.cast_ok hHung hCast with ⟨g, hCasts, rfl, hStep⟩
  refine ⟨g, { t₁ with ctx := ctx' }, ?_, ?_, ?_, ?_⟩
  · rw [dispatch_send hSend hData hInside, if_pos rfl]
    refine map_of_ok ?_ some
    rw [castCall, bind_of_ok hFound]
    dsimp only
    rw [bind_of_ok (typeArgument_width hWidth), bind_of_ok hValue]
    exact build_of_ok hCast
  · exact hPlaces.rework_one hInside.isOpen hStep.reworks rfl
  · exact hStep.program_eq.trans hSame
  · exact hYields.casts hCasts

/- A receiver that denotes a value names no class. -/
theorem namedClass_eq (hDenotes : Denotes places receiver v)
    (hPlace : ⟨p, (p.method E.method).owner⟩ ∈ places) (hProgram : t.ctx.program = p)
    (hInside : Inside E t parent) : namedClass parent receiver t = .ok none t := by
  cases hDenotes with
  | int hTag | trueLit hTag | falseLit hTag | sequence hTag =>
    simp only [namedClass, hTag]
    rfl
  | unary hSend | binary hSend | cast hSend =>
    simp only [namedClass, hSend.tag_eq]
    rfl
  | reference hTag hPath hFind =>
    have hHere := hFind _ hPlace
    dsimp only at hHere
    have hValue := constValue_eq hHere hProgram hInside receiver.span
    simp only [namedClass, hTag, constPath, hPath, Node.require]
    have hFound := build_of_ok hValue
    exact bind_of_ok hFound _

/- A call on a value becomes an operator on what is below it. -/
theorem compiles_valueCall (hSend : Sends node (some receiver) name args)
    (hData : isDataRegistry receiver = false) (hCast : name ≠ "cast_to")
    (hDenotes : Denotes places receiver u) (hPlace : ⟨p, (p.method E.method).owner⟩ ∈ places)
    (hOperator :
      ∀ (fuel : Nat) (call : NodeId) (t : LowerState), node.height ≤ fuel + 1 → t.ctx.program = p →
        Inside E t call → ∃ fs t',
            values ⟨lowerNode unit fuel, unit⟩ call (receiver :: args) t = .ok () t'
              ∧ Places t t' call fs
              ∧ t'.ctx.program = p
              ∧ ∀ k, Hung t'.ctx.tree k ⟨call, .nop, .none, fs⟩ →
                ∃ g ctx', applyMethod call name node.span t'.ctx = .ok g.id ctx'
                    ∧ Reworks t'.ctx ctx' k ⟨call, .nop, .none, fs⟩ g
                    ∧ ctx'.program = p
                    ∧ Yields g v) :
    Compiles unit E p node v := by
  apply Compiles.of_dispatch
  intro fuel parent t hFuel hProgram hInside
  have hRun : ∃ call t₁, placeholder parent node.span t = .ok call t₁ := ⟨_, _, rfl⟩
  rcases hRun with ⟨call, t₁, hRun⟩
  rcases placeholder_ok hInside hRun with ⟨hEmpty, hSame, hInside₁⟩
  rcases hOperator fuel call t₁ hFuel (hSame.trans hProgram) hInside₁
    with ⟨fs, t₂, hValues, hBelow, hSame₂, hFinish⟩
  rcases hEmpty.filled hInside.isOpen hBelow with ⟨hFilled, hHung⟩
  rcases hFinish parent hHung with ⟨g, ctx', hApply, hStep, hSame₃, hYields⟩
  refine ⟨g, { t₂ with ctx := ctx' }, ?_,
    hFilled.rework_one hInside.isOpen hStep rfl, hSame₃, hYields⟩
  rw [dispatch_send hSend hData hInside, if_neg hCast,
    bind_of_ok (namedClass_eq hDenotes hPlace hProgram hInside)]
  refine map_of_ok ?_ some
  rw [valueCall, bind_of_ok hRun, bind_of_ok hValues]
  exact build_of_ok hApply

theorem compiles_unary {op : Unary} (hSend : Sends node (some receiver) name [])
    (hData : isDataRegistry receiver = false) (hOp : Unary.ofName? name = some op)
    (hDenotes : Denotes places receiver v) (hPlace : ⟨p, (p.method E.method).owner⟩ ∈ places)
    (hReceiver : Compiles unit E p receiver v) : Compiles unit E p node (op.apply v) := by
  have hCast : name ≠ "cast_to" := by
    rintro rfl
    cases hOp
  refine compiles_valueCall hSend hData hCast hDenotes hPlace ?_
  intro fuel call t hFuel hProgram hInside
  have hLess : receiver.height ≤ fuel := by
    have := hSend.height_lt.1
    omega
  rcases hReceiver.value_runs hLess hProgram hInside with ⟨f, t₁, hValue, hPlaces, hSame, hYields⟩
  refine ⟨[f], t₁, ?_, hPlaces, hSame, fun k hHung => ?_⟩
  · rw [values, bind_of_ok hValue]
    rfl
  · rcases Build.unaryOperator_runs hOp hHung rfl hYields.ty_eq node.span with ⟨n, ctx', hRun⟩
    rcases Build.unaryOperator_ok rfl hHung rfl hRun with ⟨g, hOperates, rfl, hStep⟩
    rcases (alters_of_operates rfl hYields.ty_eq hOperates).2 with ⟨_, hName, hAlters⟩
    cases hOp.symm.trans hName
    refine ⟨g, ctx', ?_, hStep.reworks, hStep.program_eq.trans hSame, hYields.alters hAlters⟩
    exact (applyMethod_eq hHung rfl hYields.ty_eq name node.span).trans hRun

theorem compiles_binary
    (hSend : Sends node (some receiver) name [arg]) (hData : isDataRegistry receiver = false)
    (hOp : Binary.ofName? name = some op) (hDenotes : Denotes places receiver u)
    (hPlace : ⟨p, (p.method E.method).owner⟩ ∈ places) (hReceiver : Compiles unit E p receiver u)
    (hArg : Compiles unit E p arg v) (hApply : op.apply u v = some x) :
    Compiles unit E p node x := by
  have hCast : name ≠ "cast_to" := by
    rintro rfl
    cases hOp
  refine compiles_valueCall hSend hData hCast hDenotes hPlace ?_
  intro fuel call t hFuel hProgram hInside
  have hLess : receiver.height ≤ fuel := by
    have := hSend.height_lt.1
    omega
  have hLess' : arg.height ≤ fuel := by
    have := hSend.height_lt.2 arg (.head _)
    omega
  rcases hReceiver.value_runs hLess hProgram hInside with ⟨f, t₁, hFirst, hPlaces, hSame, hYields⟩
  rcases hArg.value_runs hLess' hSame (hInside.after hPlaces) with
    ⟨f', t₂, hSecond, hPlaces', hSame', hYields'⟩
  refine ⟨[f, f'], t₂, ?_, hPlaces.trans hInside.isOpen hPlaces', hSame', fun k hHung => ?_⟩
  · rw [values, bind_of_ok hFirst, values, bind_of_ok hSecond]
    rfl
  · rcases Build.binaryOperator_runs hOp hHung rfl hYields.ty_eq
      hYields'.ty_eq node.span with ⟨n, ctx', hRun⟩
    have hPlain : f.ty.isRef = false := by
      rw [hYields.ty_eq]
      rfl
    rcases Build.binaryOperator_ok rfl hHung rfl hPlain hRun with ⟨g, hOperates, rfl, hStep⟩
    have hHeld : f'.ty.held? = some _ := congrArg ValueType.held? hYields'.ty_eq
    rcases (combines_of_operates rfl hYields.ty_eq hHeld hOperates).2 with ⟨_, hName, hCombines⟩
    cases hOp.symm.trans hName
    refine ⟨g, ctx', ?_, hStep.reworks, hStep.program_eq.trans hSame',
      hYields.combines hYields' hCombines hApply⟩
    exact (applyMethod_eq hHung rfl hYields.ty_eq name node.span).trans hRun

/- What denotes a value is compiled to code that computes it. -/
theorem Denotes.compiles (hDenotes : Denotes places node v)
    (hPlace : ⟨p, (p.method E.method).owner⟩ ∈ places) : Compiles unit E p node v := by
  induction hDenotes with
  | int hTag hInt => exact compiles_int hTag hInt
  | trueLit hTag | falseLit hTag => exact compiles_bool hTag
  | reference hTag hPath hFind =>
    have hHere := hFind _ hPlace
    dsimp only at hHere
    exact compiles_reference hTag hPath hHere
  | sequence hTag hNodes _ ih => exact compiles_sequence hTag hNodes ih
  | unary hSend hData hOp hReceiver ih => exact compiles_unary hSend hData hOp hReceiver hPlace ih
  | binary hSend hData hOp hReceiver _ hApply ihReceiver ihArg =>
    exact compiles_binary hSend hData hOp hReceiver hPlace ihReceiver ihArg hApply
  | cast hSend hData hArgs hWidth _ ih => exact compiles_cast hSend hData hArgs hWidth ih

-- Agreement

/-
  A constant expression is compiled inside of any method, whether operators on literals are
  folded or not.  Its code has the type that the expression is evaluated to, and leaves the
  value, wherever the code is and whatever the state.
-/
theorem constant_code_agrees {σ : Type} (unit : SourceUnit → Lower Unit)
    {E : Env} {s s' t : LowerState} {scope parent : NodeId}
    {node : Node} {fuel enough : Nat} {raw : Int64} {ty : ValueType}
    (hConstant : Constant [.ofNode s.ctx scope, .ofNode t.ctx parent] node)
    (hValue : evaluate fuel scope node s = .ok (.int raw ty) s') (hInside : Inside E t parent)
    (hEnough : node.height ≤ enough) :
    ∃ f t', value ⟨lowerNode unit enough, unit⟩ parent node t = .ok f.id t' ∧ Held t'.ctx.tree f
        ∧ f.ty = ty
        ∧ ∃ v : Value, v.toInt64 = raw ∧ .machine v.type = ty
          ∧ ∀ (h : Host σ) (depth : Nat) (state : State σ),
            Held h.ctx.tree f → ∃ least, ∀ k, least ≤ k → eval h k depth f.id state
                  = .ok (some v) state := by
  rcases evaluate_denotes hConstant (.head _) hValue with ⟨_, v, hDenotes, hResult⟩
  cases hResult
  have hPlace : Place.mk t.ctx.program (t.ctx.program.method E.method).owner
        ∈ [Place.ofNode s.ctx scope, .ofNode t.ctx parent] := by
    rw [← Context.classOf_inMethod hInside.place]
    exact .tail _ (.head _)
  have hCompiles : Compiles unit E t.ctx.program node v := hDenotes.compiles hPlace
  rcases hCompiles.value_runs hEnough rfl hInside with ⟨f, t', hRun, hPlaces, _, hYields⟩
  have hHung := hPlaces.hung hInside.isOpen (.head _)
  refine ⟨f, t', hRun, hHung.held, hYields.ty_eq, v, rfl, ?_, ?_⟩
  · rw [type_widthOf]
    rfl
  · intro h depth state hHeld
    have hEnds : behaviour h depth f.id state (.ok (some v) state) := by
      refine ((hYields.2 σ h depth fun _ => True).agrees hHeld state trivial _).mpr ?_
      rw [map_pure]
      rfl
    rcases hEnds with ⟨⟨least, hEnd⟩, hReal⟩
    exact ⟨least, fun k hLe => (eval_grows h depth f.id).eq_of_le hLe hEnd hReal⟩

/- A large number, and a sum with a comparison that needs it. -/
def large : Node :=
  ⟨.int, [.int 3000000000], .generated⟩

def largeReference : Node :=
  ⟨.const, [.nil, .symbol "LARGE"], .generated⟩

def largeSum : Node :=
  let node tag items : Node := ⟨tag, items, .generated⟩
  let low := node .send [.node largeReference, .symbol "cast_to",
        .node (node .const [.nil, .symbol "I32"])]
  let test := node .send [.node low, .symbol "<", .node (node .int [.int 5])]
  node .send [.node (node .begin [.node test]), .symbol "+", .node largeReference]

/- The state before any declaration. -/
def beforeLarge : LowerState :=
  { ctx := .initial { foldConstants := false }, loader := {} }

/- A method after the declaration of the number. -/
def afterLarge : LowerState :=
  let p := beforeLarge.ctx.program
  let p :=
    match p.declareConst objectClass "LARGE" (.int 3000000000 .i64) .generated with
    | .ok (_, p) => p
    | .error _ => p
  let (m, p) := p.declareMethod objectClass "f" .onClass .generated
  let tree := (Tree.empty.add Tree.root (.function m) .none).2
  { beforeLarge with ctx := { beforeLarge.ctx with program := p, tree } }

theorem afterLarge_inside : Inside ⟨false, ⟨0⟩, none⟩ afterLarge ⟨1⟩ where
  fold_eq := rfl
  place := .function (by decide) (by decide +kernel)
  isOpen := ⟨by decide, by decide⟩

/- The reference is to a constant that was declared by a literal. -/
theorem largeReference_constant :
    Constant [.ofNode afterLarge.ctx ⟨1⟩, .ofNode afterLarge.ctx ⟨1⟩] largeReference := by
  have hFind : afterLarge.ctx.program.findConst? ⟨["LARGE"], false⟩ (afterLarge.ctx.classOf ⟨1⟩)
        = some (.int 3000000000 .i64) := by
    decide +kernel
  have hDeclared : evaluate 1 Tree.root large beforeLarge
        = .ok (.int 3000000000 .i64) beforeLarge := rfl
  refine .reference rfl rfl ?_ (.int rfl) hDeclared
  intro place hMem
  have hSame : place = .ofNode afterLarge.ctx ⟨1⟩ := by simpa using hMem
  rw [hSame]
  exact hFind

theorem largeSum_constant :
    Constant [.ofNode afterLarge.ctx ⟨1⟩, .ofNode afterLarge.ctx ⟨1⟩] largeSum :=
  .binary (.toReceiver rfl rfl rfl) rfl (.sequence rfl rfl (.binary (.toReceiver rfl rfl rfl) rfl
        (.cast (.toReceiver rfl rfl rfl) .unsigned rfl largeReference_constant) (.int rfl)))
    largeReference_constant

/- Without folding, the sum is one more than the large number. -/
theorem largeSum_code :
    evaluate 5 ⟨1⟩ largeSum afterLarge = .ok (.int 3000000001 .i64) afterLarge ∧ ∃ f t',
        value ⟨lowerNode (fun _ => pure ()) 5, fun _ => pure ()⟩ ⟨1⟩
            largeSum afterLarge = .ok f.id t'
          ∧ Held t'.ctx.tree f
          ∧ f.ty = .i64
          ∧ ∃ v : Value, v.toInt64 = 3000000001 ∧ .machine v.type = ValueType.i64
            ∧ ∀ (h : Host Unit) (depth : Nat) (state : State Unit),
              Held h.ctx.tree f → ∃ least, ∀ k, least ≤ k → eval h k depth f.id state
                    = .ok (some v) state := by
  have hValue : evaluate 5 ⟨1⟩ largeSum afterLarge = .ok (.int 3000000001 .i64) afterLarge := by
    with_unfolding_all rfl
  exact ⟨hValue,
    constant_code_agrees (fun _ => pure ()) largeSum_constant hValue afterLarge_inside (by decide)⟩

end Constants

end RubyWat
