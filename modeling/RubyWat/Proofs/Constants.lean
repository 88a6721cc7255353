import RubyWat.Proofs.Computation

/-
  Constant expressions and what they denote.

  The value of a declaration is computed while a program is compiled.  An expression denotes a
  value by rules that say nothing of how it is computed.

  Main statement: what a constant expression is evaluated to is what it denotes
  (`evaluate_denotes`).
-/

-- Constant Expressions

namespace RubyWat.Constants

open Translation Dump Wasm Step Integral Option

open Code (NodeId)
open Machine (Value)
/-
  A place from which constants are looked up: the names that are
  declared, and the class around it.
-/
structure Place where
  program : Program
  cls : ClassId

def Place.ofNode (ctx : Context) (n : NodeId) : Place :=
  ⟨ctx.program, ctx.classOf n⟩

/-
  Constant expressions of integers.  The constants that they refer to are the same from all the
  places, and got their values from such expressions.
-/
inductive Constant : List Place → Node → Prop where
  | int {node : Node} (hTag : node.tag = .int) : Constant places node
  | trueLit {node : Node} (hTag : node.tag = .trueLit) : Constant places node
  | falseLit {node : Node} (hTag : node.tag = .falseLit) : Constant places node
  | reference {node : Node} {s : LowerState} (hTag : node.tag = .const)
      (hPath : node.constPath? = some path)
      (hFind : ∀ place ∈ places, place.program.findConst? path place.cls = some (.int raw ty))
      (hBefore : Constant [.ofNode s.ctx scope] before)
      (hDeclared : Lower.evaluate fuel scope before s = .ok (.int raw ty) s') : Constant places node
  | sequence {node inner : Node} (hTag : node.tag = .begin) (hNodes : node.nodes = [inner])
      (hInner : Constant places inner) : Constant places node
  | unary (hSend : Sends node (some receiver) name []) (hOp : Unary.ofName? name = some op)
      (hReceiver : Constant places receiver) : Constant places node
  | binary (hSend : Sends node (some receiver) name [arg]) (hOp : Binary.ofName? name = some op)
      (hReceiver : Constant places receiver) (hArg : Constant places arg) : Constant places node
  | cast (hSend : Sends node (some receiver) "cast_to" args)
      (hArgs : CastArguments args tyNode signed) (hWidth : widthNamed? tyNode = some w)
      (hReceiver : Constant places receiver) : Constant places node

/- The value that an expression denotes from all the places. -/
inductive Denotes (places : List Place) : Node → Value → Prop where
  | int {node : Node} (hTag : node.tag = .int) (hInt : node.intAt 0 = .ok raw) :
      Denotes places node ((Width.ofLiteral raw).value raw)
  | trueLit {node : Node} (hTag : node.tag = .trueLit) : Denotes places node (.ofBool true)
  | falseLit {node : Node} (hTag : node.tag = .falseLit) : Denotes places node (.ofBool false)
  | reference {node : Node} {v : Value} (hTag : node.tag = .const)
      (hPath : node.constPath? = some path)
      (hFind : ∀ place ∈ places, place.program.findConst? path place.cls
            = some (.int v.toInt64 (widthOf v).type)) : Denotes places node v
  | sequence {node inner : Node} (hTag : node.tag = .begin) (hNodes : node.nodes = [inner])
      (hInner : Denotes places inner v) : Denotes places node v
  | unary (hSend : Sends node (some receiver) name [])
      (hData : Lower.isDataRegistry receiver = false) (hOp : Unary.ofName? name = some op)
      (hReceiver : Denotes places receiver v) : Denotes places node (op.apply v)
  | binary (hSend : Sends node (some receiver) name [arg])
      (hData : Lower.isDataRegistry receiver = false) (hOp : Binary.ofName? name = some op)
      (hReceiver : Denotes places receiver u) (hArg : Denotes places arg v)
      (hApply : op.apply u v = some x) : Denotes places node x
  | cast (hSend : Sends node (some receiver) "cast_to" args)
      (hData : Lower.isDataRegistry receiver = false) (hArgs : CastArguments args tyNode signed)
      (hWidth : widthNamed? tyNode = some w) (hReceiver : Denotes places receiver v) :
      Denotes places node (castTo w signed v)

-- Operators On Constants

def constOf (v : Value) : ConstValue :=
  .int v.toInt64 (widthOf v).type

theorem castConstant_eq (w : Width) (signed : Bool) (v : Value) (span : Span) :
    castConstant v.toInt64 (widthOf v).type w.type signed span
      = .ok (constOf (castTo w signed v)) := by
  rw [constOf, widthOf_castTo]
  cases w with
  | narrow =>
    have hLow : extendSigned (cut 32 v.toInt64) = (castTo .narrow signed v).toInt64 :=
      extendSigned_cut v.toInt64
    rw [← hLow]
    rfl
  | wide =>
    cases v with
    | i64 x => cases signed <;> rfl
    | i32 x =>
      cases signed with
      | true => rfl
      | false =>
        rw [castTo, Value.extend, ← cut_toInt64]
        rfl

theorem unaryConstant?_eq (hOp : Unary.ofName? name = some op) (v : Value) :
    unaryConstant? name v.toInt64 (widthOf v).type = some (constOf (op.apply v)) := by
  rw [constOf, Unary.widthOf_apply]
  unfold Unary.ofName? at hOp
  split at hOp
  · cases hOp
    simp [unaryConstant?, Width.type, ValueType.machine?, minus_apply, Unary.width]
  · cases hOp
    simp [unaryConstant?, Width.type, ValueType.machine?, complement_apply, Unary.width]
  · cases hOp
    simp [unaryConstant?, Width.type, ValueType.machine?, toInt64_eqz, Unary.width, Width.machine]
  rcases map_eq_some_iff.mp hOp with ⟨op, hName, rfl⟩
  have hApply := native_apply op v
  unfold UnaryOp.ofName? at hName
  have hNarrow : Width.narrow.machine = .i32 := rfl
  split at hName <;> cases hName <;>
    simp [unaryConstant?, Width.type, ValueType.machine?,
      UnaryOp.ofName?, hApply, Unary.width, hNarrow]

/- No relation has the name of an operator. -/
theorem relation_of_binaryOp (hOp : BinaryOp.ofName? name = some op) :
    Relation.ofName? name = none := by
  unfold BinaryOp.ofName? at hOp
  split at hOp <;> first | rfl | cases hOp

theorem binaryConstant_ok (hOp : Binary.ofName? name = some op) (hResult :
      binaryConstant name u.toInt64 v.toInt64 ((widthOf u).join (widthOf v)).type node
        = .ok result) :
    ∃ x, op.apply u v = some x ∧ result = constOf x := by
  unfold Binary.ofName? at hOp
  simp only [binaryConstant, Width.type, ValueType.machine?] at hResult
  rcases hArith : BinaryOp.ofName? name with _ | arith
  · rw [hArith] at hOp
    rcases map_eq_some_iff.mp hOp with ⟨relation, hName, rfl⟩
    rw [hName, hArith] at hResult
    cases hResult
    refine ⟨_, rfl, ?_⟩
    rw [constOf, Relation.apply]
    cases relation.holds u.toInt64 v.toInt64 <;> rfl
  · rw [hArith] at hOp
    cases hOp
    rw [relation_of_binaryOp hArith, hArith] at hResult
    dsimp only at hResult
    split at hResult
    · cases hResult
    rw [arith_apply] at hResult
    rcases hApply : (Binary.arith arith).apply u v with _ | x
    · rw [hApply] at hResult
      cases hResult
    rw [hApply] at hResult
    cases hResult
    refine ⟨x, rfl, ?_⟩
    rw [constOf, Binary.widthOf_apply hApply]
    rfl

-- Evaluation

open Lower (constantSend evaluate isDataRegistry)

/- Static data only answers with addresses. -/
theorem labelConstant_ok (hName : name ≠ "[]")
    (hRun : Lower.labelConstant name args node s = .ok result s') : False := by
  unfold Lower.labelConstant at hRun
  split at hRun
  · exact hName rfl
  · exact Lower.refuse_ok hRun

theorem integerOf_ok (hRun : Lower.integerOf node found s = .ok number s') :
    found = .int number.1 number.2 ∧ s = s' := by
  cases found with
  | int raw ty =>
    cases hRun
    exact ⟨rfl, rfl⟩
  | cls c => exact (Lower.refuse_ok hRun).elim

/- A call is evaluated on its receiver, an integer and no data. -/
theorem constantSend_ok (hSend : Sends node (some receiver) name args) (hName : name ≠ "[]")
    (hRun : constantSend operand scope node s = .ok result s') :
    isDataRegistry receiver = false ∧ ∃ left ty s₁, operand receiver s = .ok (.int left ty) s₁ ∧ (do
          if name = "cast_to" then
            let (target, signed) ← Lower.castArguments args node.span
            let target ← Lower.typeArgument scope target
            Lower.settle (castConstant left ty target signed node.span)
          else
            match args with
            | [] =>
              match unaryConstant? name left ty with
              | some value => return value
              | none => Lower.notConstant node
            | [arg] =>
              let (right, argTy) ← Lower.integerOf arg (← operand arg)
              let leading := (ValueType.leading? [ty, argTy]).getD ty
              Lower.settle (binaryConstant name left right leading node)
            | _ => Lower.notConstant node) s₁ = .ok result s' := by
  cases hSend with
  | toReceiver hTag hItems hSymbol =>
    rcases Lower.need_step hRun with ⟨found, hFound, hRest⟩
    rw [hSymbol] at hFound
    cases hFound
    have hNode : node.node? 0 = some receiver := by simp [Node.node?, hItems, Item.node?]
    simp only [hNode] at hRest
    cases hData : isDataRegistry receiver with
    | true =>
      rw [hData, if_pos rfl] at hRest
      exact (labelConstant_ok hName hRest).elim
    | false =>
      rw [hData, if_neg Bool.false_ne_true] at hRest
      rcases bind_ok hRest with ⟨found, s₁, hFound, hLast⟩
      rcases bind_ok hLast with ⟨number, _, hNumber, hLast⟩
      rcases integerOf_ok hNumber with ⟨rfl, rfl⟩
      exact ⟨rfl, _, _, s₁, hFound, hLast⟩

theorem settle_ok
    (hRun : Lower.settle outcome s = .ok result s') : outcome = .ok result ∧ s = s' := by
  cases outcome with
  | ok value =>
    cases hRun
    exact ⟨rfl, rfl⟩
  | error fault => exact (Lower.refuse_ok hRun).elim

theorem unarySend_ok (hSend : Sends node (some receiver) name [])
    (hOp : Unary.ofName? name = some op)
    (hRun : constantSend operand scope node s = .ok result s') :
    isDataRegistry receiver = false ∧ ∃ raw ty, operand receiver s = .ok (.int raw ty) s'
        ∧ unaryConstant? name raw ty = some result := by
  have hData : name ≠ "[]" := by
    rintro rfl
    cases hOp
  have hCast : name ≠ "cast_to" := by
    rintro rfl
    cases hOp
  rcases constantSend_ok hSend hData hRun with ⟨hPlain, raw, ty, s₁, hFound, hRest⟩
  simp only [if_neg hCast] at hRest
  refine ⟨hPlain, raw, ty, ?_⟩
  rcases hValue : unaryConstant? name raw ty with _ | value
  · simp only [hValue] at hRest
    exact (Lower.refuse_ok hRest).elim
  · simp only [hValue] at hRest
    cases hRest
    exact ⟨hFound, rfl⟩

theorem binarySend_ok (hSend : Sends node (some receiver) name [arg])
    (hOp : Binary.ofName? name = some op)
    (hRun : constantSend operand scope node s = .ok result s') :
    isDataRegistry receiver = false ∧ ∃ left ty s₁ right argTy,
        operand receiver s = .ok (.int left ty) s₁
        ∧ operand arg s₁ = .ok (.int right argTy) s'
        ∧ binaryConstant name left right ((ValueType.leading? [ty, argTy]).getD ty) node
          = .ok result := by
  have hData : name ≠ "[]" := by
    rintro rfl
    cases hOp
  have hCast : name ≠ "cast_to" := by
    rintro rfl
    cases hOp
  rcases constantSend_ok hSend hData hRun with ⟨hPlain, _, _, s₁, hFound, hRest⟩
  simp only [if_neg hCast] at hRest
  rcases bind_ok hRest with ⟨second, s₂, hSecond, hRest⟩
  rcases bind_ok hRest with ⟨other, _, hOther, hRest⟩
  rcases integerOf_ok hOther with ⟨rfl, rfl⟩
  rcases settle_ok hRest with ⟨hValue, rfl⟩
  exact ⟨hPlain, _, _, _, _, _, hFound, hSecond, hValue⟩

theorem castSend_ok
    (hSend : Sends node (some receiver) "cast_to" args) (hArgs : CastArguments args tyNode signed)
    (hWidth : widthNamed? tyNode = some w)
    (hRun : constantSend operand scope node s = .ok result s') :
    isDataRegistry receiver = false ∧ ∃ raw ty, operand receiver s = .ok (.int raw ty) s'
        ∧ castConstant raw ty w.type signed node.span = .ok result := by
  rcases constantSend_ok hSend (by decide) hRun with ⟨hPlain, _, _, s₁, hFound, hRest⟩
  simp only [if_true] at hRest
  rcases bind_ok hRest with ⟨⟨target, keeps⟩, _, hTarget, hRest⟩
  rcases Lower.castArguments_ok hTarget with ⟨hFoundArgs, rfl⟩
  have hSame : target = tyNode ∧ keeps = signed := by
    cases hArgs <;> cases hFoundArgs <;> exact ⟨rfl, rfl⟩
  rcases hSame with ⟨rfl, rfl⟩
  rcases bind_ok hRest with ⟨ty, _, hTy, hRest⟩
  rcases Lower.typeArgument_named hTy with ⟨hNamed, rfl⟩
  cases hNamed.symm.trans (typeNamed_width hWidth)
  rcases settle_ok hRest with ⟨hValue, rfl⟩
  exact ⟨hPlain, _, _, hFound, hValue⟩

/- A number that is written denotes itself. -/
theorem constOf_literal (raw : Int64) :
    constOf ((Width.ofLiteral raw).value raw) = .int raw (literalType raw) := by
  rw [constOf, widthOf_value, literalType_eq, Width.ofLiteral]
  split
  · rename_i hSmall
    exact congrArg (ConstValue.int · .i32) hSmall
  · rfl

theorem evaluate_pos (hRun : evaluate fuel scope node s = .ok result s') :
    ∃ less, fuel = less + 1 := by
  cases fuel with
  | zero => exact (Lower.refuse_ok hRun).elim
  | succ less => exact ⟨less, rfl⟩

/- What is evaluated is what the expression denotes. -/
theorem evaluate_denotes (hConstant : Constant places node)
    (hPlace : Place.ofNode s.ctx scope ∈ places)
    (hRun : evaluate fuel scope node s = .ok result s') :
    s' = s ∧ ∃ v, Denotes places node v ∧ result = constOf v := by
  induction hConstant generalizing fuel scope s s' result with
  | int hTag =>
    rcases evaluate_pos hRun with ⟨fuel, rfl⟩
    simp only [evaluate, hTag] at hRun
    rcases Lower.need_step hRun with ⟨raw, hInt, hRest⟩
    cases hRest
    exact ⟨rfl, _, .int hTag hInt, (constOf_literal raw).symm⟩
  | trueLit hTag =>
    rcases evaluate_pos hRun with ⟨fuel, rfl⟩
    simp only [evaluate, hTag] at hRun
    cases hRun
    exact ⟨rfl, _, .trueLit hTag, rfl⟩
  | falseLit hTag =>
    rcases evaluate_pos hRun with ⟨fuel, rfl⟩
    simp only [evaluate, hTag] at hRun
    cases hRun
    exact ⟨rfl, _, .falseLit hTag, rfl⟩
  | reference hTag hPath hFind hBefore hDeclared ih =>
    rcases ih (.head _) hDeclared with ⟨_, v, _, hValue⟩
    cases hValue
    rcases evaluate_pos hRun with ⟨fuel, rfl⟩
    simp only [evaluate, hTag] at hRun
    rcases Lower.need_step hRun with ⟨path, hFound, hRest⟩
    simp only [Lower.constPath, hPath, Node.require] at hFound
    cases hFound
    rcases Lower.lift_ok hRest with ⟨ctx', hStep, rfl⟩
    have hHere := hFind _ hPlace
    simp only [Place.ofNode] at hHere
    simp only [Build.constValue, Build.get_bind, hHere] at hStep
    cases hStep
    exact ⟨rfl, v, .reference hTag hPath hFind, rfl⟩
  | sequence hTag hNodes hInner ih =>
    rcases evaluate_pos hRun with ⟨fuel, rfl⟩
    simp only [evaluate, hTag, hNodes] at hRun
    rcases ih hPlace hRun with ⟨hSame, v, hDenotes, hValue⟩
    exact ⟨hSame, v, .sequence hTag hNodes hDenotes, hValue⟩
  | unary hSend hOp hReceiver ih =>
    rcases evaluate_pos hRun with ⟨fuel, rfl⟩
    have hTag := hSend.tag_eq
    simp only [evaluate, hTag] at hRun
    rcases unarySend_ok hSend hOp hRun with ⟨hData, raw, ty, hFound, hApply⟩
    rcases ih hPlace hFound with ⟨hSame, v, hDenotes, hValue⟩
    cases hValue
    rw [unaryConstant?_eq hOp] at hApply
    cases hApply
    exact ⟨hSame, _, .unary hSend hData hOp hDenotes, rfl⟩
  | binary hSend hOp hReceiver hArg ihReceiver ihArg =>
    rcases evaluate_pos hRun with ⟨fuel, rfl⟩
    have hTag := hSend.tag_eq
    simp only [evaluate, hTag] at hRun
    rcases binarySend_ok hSend hOp hRun with
      ⟨hData, left, ty, s₁, right, argTy, hLeft, hRight, hApply⟩
    rcases ihReceiver hPlace hLeft with ⟨rfl, u, hDenotesU, hU⟩
    cases hU
    rcases ihArg hPlace hRight with ⟨rfl, v, hDenotesV, hV⟩
    cases hV
    rw [Width.leading_types, getD_some] at hApply
    rcases binaryConstant_ok hOp hApply with ⟨x, hX, rfl⟩
    exact ⟨rfl, x, .binary hSend hData hOp hDenotesU hDenotesV hX, rfl⟩
  | cast hSend hArgs hWidth hReceiver ih =>
    rcases evaluate_pos hRun with ⟨fuel, rfl⟩
    have hTag := hSend.tag_eq
    simp only [evaluate, hTag] at hRun
    rcases castSend_ok hSend hArgs hWidth hRun with ⟨hData, raw, ty, hFound, hApply⟩
    rcases ih hPlace hFound with ⟨hSame, v, hDenotes, hValue⟩
    cases hValue
    rw [castConstant_eq] at hApply
    cases hApply
    exact ⟨hSame, _, .cast hSend hData hArgs hWidth hDenotes, rfl⟩

end RubyWat.Constants
