import RubyWat.Proofs.Integral

/-
  The code of methods that compute with integers.

  The rules of the translation are about syntax trees and about names that are declared on the
  way.  For expressions there are simpler rules, in which all variables have their widths from
  the start.

  Main statement: code that is wanted for its value has the type of the value (`emits_typed`).
-/

-- Rules

namespace RubyWat

open Code Translation Wasm Option ValueType

namespace Integral

/-
  What the code of a method depends on: all its variables, its
  result, and whether operators on literals are folded.
-/
structure Setting where
  fold : Bool
  scope : Scope
  result : ValueType

/- Two operands under an operator. -/
inductive Combines (fold : Bool) (n : NodeId) (left right : Fragment) :
    Binary → Fragment → Prop where
  | arith {a b : Width} (hLeftTy : left.ty.held? = some a.machine)
      (hRightTy : right.ty.held? = some b.machine) (hLeft : Casts true (a.join b).type left left')
      (hRight : Casts true (a.join b).type right right') :
      Combines fold n left right (.arith op) (Fragment.folded fold
          ⟨n, .binary op, (a.join b).type, [left', right']⟩)
  | relation {a b : Width} (hLeftTy : left.ty.held? = some a.machine)
      (hRightTy : right.ty.held? = some b.machine) (hLeft : Casts true (a.join b).type left left')
      (hRight : Casts true (a.join b).type right right') :
      Combines fold n left right (.relation op) (Fragment.folded fold
          ⟨n, .compare op (a.join b).machine, .i32, [left', right']⟩)

/- One operand under an operator. -/
inductive Alters (fold : Bool) (n : NodeId) (operand : Fragment) : Unary → Fragment → Prop where
  | minus {w : Width} (hTy : operand.ty = w.type) :
      Alters fold n operand .minus (Fragment.folded fold ⟨n, .binary .sub, w.type,
            [.leaf zero (.const 0) w.type, operand]⟩)
  | complement {w : Width} (hTy : operand.ty = w.type) :
      Alters fold n operand .complement (Fragment.folded fold
          ⟨n, .binary .xor, w.type, [operand, .leaf ones (.const (-1)) w.type]⟩)
  | native {w : Width} (hTy : operand.ty = w.type) :
      Alters fold n operand (.native op) (Fragment.folded fold
          ⟨n, .unary op, ((Unary.native op).width w).type, [operand]⟩)

/- A value stored in a variable, which is the value of the store where one is wanted. -/
inductive Stores (Γ : Scope) (x : String) (keep : Bool) (value : Fragment) : Fragment → Prop where
  | intro (hVar : Γ.lookup x = some w) (hCasts : Casts true w.type value value') :
      Stores Γ x keep value ⟨n, if keep then .localTee x else .localSet x,
          if keep then w.type else .none, [value']⟩

/-
  Code for an expression before an unwanted value is dropped, or
  for statements of which the last may be kept.
-/
inductive Job where
  | one (e : Expr) (keep : Bool) (f : Fragment)
  | all (es : List Expr) (keep : Bool) (fs : List Fragment)

/- The code of expressions, inside of a loop or of none. -/
inductive Emits (S : Setting) : Option (NodeId × NodeId) → Job → Prop where
  | int : Emits S L (.one (.int value) keep (.leaf n (.const value) (Width.ofLiteral value).type))
  | bool : Emits S L (.one (.bool b) keep (.leaf n (.const (if b then 1 else 0)) Width.narrow.type))
  | get (hVar : S.scope.lookup x = some w) :
      Emits S L (.one (.get x) keep (.leaf n (.localGet x) w.type))
  | set (hValue : Emits S L (.one e true f)) (hStores : Stores S.scope x keep f g) :
      Emits S L (.one (.set x e) keep g)
  | update (hVar : S.scope.lookup x = some w) (hValue : Emits S L (.one e true f))
      (hCombines : Combines S.fold n (.leaf k (.localGet x) w.type) f op g)
      (hStores : Stores S.scope x keep g g') : Emits S L (.one (.update x op e) keep g')
  | unary (hValue : Emits S L (.one e true f)) (hAlters : Alters S.fold n f op g) :
      Emits S L (.one (.unary op e) keep g)
  | binary (hLeft : Emits S L (.one a true f)) (hRight : Emits S L (.one b true f'))
      (hCombines : Combines S.fold n f f' op g) : Emits S L (.one (.binary op a b) keep g)
  | cast {w : Width} (hValue : Emits S L (.one e true f)) (hCasts : Casts signed w.type f g) :
      Emits S L (.one (.cast w signed e) keep g)
  | logical (hLeft : Emits S L (.one a true f)) (hRight : Emits S L (.one b true f'))
      (hShort : ShortCircuits S.fold ⟨n, .cond, .none, [f, f']⟩ isAnd g) :
      Emits S L (.one (if isAnd then .both a b else .either a b) keep g)
  | cond (hTest : Emits S L (.one test true c)) (hTests : Tests S.fold c c')
      (hYes : Emits S L (.all yes keep fs)) (hNo : Emits S L (.all no keep gs))
      (hElse : (∃ b, rest = [⟨b, .elseArm, .none, gs⟩]) ∨ rest = [] ∧ no = [])
      (hFinish : FinishesIf ⟨n, .cond, .none, c' :: ⟨a, .thenArm, .none, fs⟩ :: rest⟩ keep f) :
      Emits S L (.one (.cond test yes no) keep f)
  | loop (hTest : Emits S (some (loop, block)) (.one test true c))
      (hBranch : BranchesOn S.fold truth c c')
      (hBody : Emits S (some (loop, block)) (.all body false fs)) :
      Emits S L (.one (.loop truth test body) keep ⟨block, .block, .none,
            [⟨loop, .loop, .none, ⟨exit, .brIf block, .none, [c']⟩
                :: (fs ++ [.leaf back (.br loop) .none])⟩]⟩)
  | postLoop (hBody : Emits S (some (loop, block)) (.all body false fs))
      (hTest : Emits S (some (loop, block)) (.one test true c))
      (hBranch : BranchesOn S.fold (!truth) c c') :
      Emits S L (.one (.postLoop truth test body) keep ⟨block, .block, .none, [⟨loop, .loop, .none,
              fs ++ [⟨again, .brIf loop, .none, [c']⟩]⟩]⟩)
  | leave : Emits S (some (loop, block)) (.one .leave keep (.leaf n (.br block) .none))
  | again : Emits S (some (loop, block)) (.one .again keep (.leaf n (.br loop) .none))
  | ret (hResult : S.result = .none) : Emits S L (.one .ret keep ⟨n, .ret, .none, []⟩)
  | retWith (hValue : Emits S L (.one e true f)) (hResult : S.result ≠ .none)
      (hCasts : Casts true S.result f f') :
      Emits S L (.one (.retWith e) keep ⟨n, .ret, .none, [f']⟩)
  | nil : Emits S L (.all [] keep [])
  | blank : Emits S L (.all [.skip] keep [])
  | skip (hRest : Emits S L (.all (e :: es) keep gs)) : Emits S L (.all (.skip :: e :: es) keep gs)
  | last (hOne : Emits S L (.one e keep f)) (hDiscards : Discards keep f g) :
      Emits S L (.all [e] keep [g])
  | next (hOne : Emits S L (.one e false f)) (hDiscards : Discards false f g)
      (hRest : Emits S L (.all (e' :: es) keep gs)) :
      Emits S L (.all (e :: e' :: es) keep (g :: gs))

variable {fold : Bool} {f g : Fragment} {n : NodeId}
variable {op : Integral.Binary}
variable {a b w : Option Integral.Width} {p : Program} {name : String}

/- Statements before a last one. -/
theorem Emits.append (hFront : Emits S L (.all es false fs)) (hRest : Emits S L (.all es' keep fs'))
    (hSome : es' ≠ []) : Emits S L (.all (es ++ es') keep (fs ++ fs')) := by
  rcases es' with _ | ⟨e', es'⟩
  · exact absurd rfl hSome
  generalize hJob : Job.all es false fs = job at hFront
  induction hFront generalizing es fs with
  | nil =>
    cases hJob
    exact hRest
  | blank =>
    cases hJob
    exact .skip hRest
  | skip _ ih =>
    cases hJob
    exact .skip (ih hRest rfl)
  | last hOne hDiscards =>
    cases hJob
    exact .next hOne hDiscards hRest
  | next hOne hDiscards _ _ ih =>
    cases hJob
    exact .next hOne hDiscards (ih hRest rfl)
  | _ => cases hJob

-- Operators By Name

theorem Width.type_inj {a b : Width} : a.type = b.type ↔ a = b := by
  cases a <;> cases b <;> simp [type, machine]

theorem Width.machine_inj {a b : Width} : a.machine = b.machine ↔ a = b := by
  cases a <;> cases b <;> simp [machine]

theorem Width.leading_types (a b : Width) : leading? [a.type, b.type] = some (a.join b).type := by
  cases a <;> cases b <;> decide

/- A reference is promoted like the address that it is. -/
theorem Width.leading_held {a b : Width} {ty : ValueType} (hTy : ty.held? = some b.machine) :
    leading? [a.type, ty] = some (a.join b).type := by
  cases ty with
  | none => cases hTy
  | machine t =>
    cases hTy
    exact leading_types a b
  | ref c =>
    cases b with
    | narrow => cases a <;> rfl
    | wide => cases hTy

theorem Width.isFloat_machine (w : Width) : w.machine.isFloat = false := by
  cases w <;> rfl

/- The name of a width names its type everywhere. -/
theorem typeNamed_width {node : Dump.Node} {c : ClassId} {w : Width}
    (hWidth : widthNamed? node = some w) : TypeNamed p c node w.type := by
  rcases bind_eq_some_iff.mp hWidth with ⟨name, hText, hName⟩
  rcases bind_eq_some_iff.mp hName with ⟨ty, hMachine, hTy⟩
  have hType : machine ty = w.type := by
    cases ty <;> cases hTy <;> rfl
  simp [TypeNamed, hText, Program.typeOfName?, hMachine, hType]

/- The instruction of an operator with two operands of a type, and the type of its result. -/
def Binary.code (op : Binary) (ty : MachineType) : Instr × ValueType :=
  match op with
  | arith op => (.binary op, .machine ty)
  | relation op => (.compare op ty, .i32)

theorem Binary.code_eq (name : String) (ty : MachineType) :
    Build.binaryInstr? name ty = (ofName? name).map (·.code ty) := by
  unfold ofName? Build.binaryInstr?
  rcases BinaryOp.ofName? name with _ | arith
  · cases Relation.ofName? name <;> rfl
  · rfl

theorem Unary.ofName?_native {op : UnaryOp} (hOp : UnaryOp.ofName? name = some op) :
    ofName? name = some (native op) := by
  unfold UnaryOp.ofName? at hOp
  split at hOp <;> cases hOp <;> rfl

theorem Unary.resultType_eq (op : UnaryOp) (w : Width) :
    op.resultType w.machine = ((native op).width w).machine := by
  cases op <;> rfl

/- Operators that are called by the names of methods. -/
theorem combines_of_operates {p' : Program} {left right : Fragment} {a b : Width}
    (hChildren : f.children = [left, right]) (hLeft : left.ty = a.type)
    (hRight : right.ty.held? = some b.machine) (hOperates : Operates fold name p f p' g) :
    p' = p ∧ ∃ op, Binary.ofName? name = some op ∧ Combines fold f.id left right op g := by
  have hHeld : left.ty.held? = some a.machine := by rw [hLeft]; rfl
  cases hOperates with
  | binary hPair hRef hLeading hMachine hFloat hCastL hCastR hInstr =>
    cases hChildren.symm.trans hPair
    rw [hLeft, Width.leading_held hRight] at hLeading
    cases hLeading
    cases hMachine
    rw [Binary.code_eq] at hInstr
    rcases map_eq_some_iff.mp hInstr with ⟨op, hOp, hCode⟩
    refine ⟨rfl, op, hOp, ?_⟩
    cases op with
    | arith op =>
      cases hCode
      exact .arith hHeld hRight hCastL hCastR
    | relation op =>
      cases hCode
      exact .relation hHeld hRight hCastL hCastR
  | negative hSingle | complement hSingle | negation hSingle
  | unary hSingle | nullTest hSingle =>
    rw [hChildren] at hSingle
    cases hSingle
  | addressCompare hPair hTy | distance hPair hTy
  | move _ hPair hTy =>
    cases hChildren.symm.trans hPair
    rw [hLeft] at hTy
    cases hTy

theorem alters_of_operates {w : Width}
    (hChildren : f.children = [operand]) (hOperand : operand.ty = w.type)
    (hOperates : Operates fold name p f p' g) :
    p' = p ∧ ∃ op, Unary.ofName? name = some op ∧ Alters fold f.id operand op g := by
  cases hOperates with
  | negative hSingle =>
    cases hChildren.symm.trans hSingle
    rw [hOperand]
    exact ⟨rfl, .minus, rfl, .minus hOperand⟩
  | complement hSingle =>
    cases hChildren.symm.trans hSingle
    rw [hOperand]
    exact ⟨rfl, .complement, rfl, .complement hOperand⟩
  | negation hSingle =>
    rw [hChildren]
    exact ⟨rfl, .native .eqz, rfl, .native hOperand⟩
  | unary hSingle hTy hFloat hName =>
    cases hChildren.symm.trans hSingle
    rw [hOperand] at hTy
    cases hTy
    rw [hChildren, Unary.resultType_eq]
    exact ⟨rfl, _, Unary.ofName?_native hName, .native hOperand⟩
  | nullTest hSingle hTy =>
    cases hChildren.symm.trans hSingle
    rw [hOperand] at hTy
    cases hTy
  | binary hPair | addressCompare hPair | distance hPair
  | move _ hPair =>
    rw [hChildren] at hPair
    cases hPair

end Integral

-- Types Of Code

namespace Integral

/- The type of code whose value may have a width. -/
def codeType (w : Option Width) : ValueType :=
  w.elim .none Width.type

/- The type of the last value that statements leave, if any. -/
def lastTy? (fs : List Fragment) : Option ValueType :=
  (fs.getLast?.map (·.ty)).filter (!·.isNone)

theorem Width.type_ne_none (w : Width) : w.type ≠ .none := by
  cases w <;> simp [type]

theorem codeType_eq_type {a : Width} : codeType w = a.type ↔ w = some a := by
  rcases w with _ | w
  · exact ⟨fun hTy => absurd hTy.symm a.type_ne_none, by simp⟩
  · simp only [codeType, elim_some, Width.type_inj, some.injEq]

theorem codeType_held (w : Option Width) : (codeType w).held? = w.map Width.machine := by
  cases w <;> rfl

theorem Combines.ty_eq (hCombines : Combines fold n left right op f)
    (hLeft : left.ty.held? = a.map Width.machine) (hRight : right.ty.held? = b.map Width.machine) :
    f.ty = codeType (do return op.width (← a) (← b)) := by
  cases hCombines with
  | arith hLeftTy hRightTy | relation hLeftTy hRightTy =>
    rcases map_eq_some_iff.mp (hLeft.symm.trans hLeftTy) with ⟨a, rfl, hA⟩
    rcases map_eq_some_iff.mp (hRight.symm.trans hRightTy) with ⟨b, rfl, hB⟩
    cases Width.machine_inj.mp hA
    cases Width.machine_inj.mp hB
    rw [Fragment.folded_ty]
    rfl

theorem Alters.ty_eq (hAlters : Alters fold n operand op f)
    (hOperand : operand.ty = codeType w) : f.ty = codeType (w.map op.width) := by
  cases hAlters with
  | minus hTy | complement hTy | native hTy =>
    rw [hOperand, codeType_eq_type] at hTy
    subst hTy
    rw [Fragment.folded_ty]
    rfl

theorem Stores.ty_eq (hStores : Stores Γ x keep value f) :
    f.ty = codeType (Γ.lookup x) ∨ keep = false ∧ f.ty = .none := by
  cases hStores with
  | intro hVar _ =>
    cases keep with
    | true =>
      left
      rw [hVar]
      rfl
    | false => exact .inr ⟨rfl, rfl⟩

/- The type of an arm that is settled. -/
theorem joins_eq {ty : ValueType} (hJoins : Joins (a.map Width.type) (b.map Width.type) ty) :
    ty = codeType (joinArms a b) := by
  rcases a with _ | a <;> rcases b with _ | b <;>
    simp only [map_none, map_some] at hJoins
  · cases hJoins
    rfl
  · cases hJoins
    rfl
  · cases hJoins
    rfl
  generalize hA : a.type = ta at hJoins
  generalize hB : b.type = tb at hJoins
  cases hJoins with
  | same =>
    rw [← hB, Width.type_inj] at hA
    subst hA
    rw [← hB]
    cases a <;> rfl
  | leading => rw [← hA, ← hB, Width.leading_types]; rfl

/- What code for a job says about types. -/
def Job.Typed (Γ : Scope) : Job → Prop
  | .one e keep f => f.ty = codeType (typeOf Γ e) ∨ keep = false ∧ f.ty = .none
  | .all es keep fs => keep = true → lastTy? fs = (lastType Γ es).map Width.type

theorem FinishesIf.ty_eq (hYes : (Job.all yes keep fs).Typed Γ) (hNo : (Job.all no keep gs).Typed Γ)
    (hElse : (∃ b, rest = [⟨b, .elseArm, .none, gs⟩]) ∨ rest = [] ∧ no = [])
    (hFinish : FinishesIf ⟨n, .cond, .none, c :: ⟨a, .thenArm, .none, fs⟩ :: rest⟩ keep f) :
    f.ty = codeType (joinArms (lastType Γ yes) (lastType Γ no)) ∨ keep = false ∧ f.ty = .none := by
  cases hFinish with
  | statement | statementElse => exact .inr ⟨rfl, rfl⟩
  | @value _ _ _ e _ _ _ hChildren hRest hJoins =>
    cases hChildren
    left
    have hSecond : e.lastType? = (lastType Γ no).map Width.type := by
      rcases hRest with rfl | ⟨rfl, n, rfl⟩
      · rcases hElse with ⟨b, hArm⟩ | ⟨hNil, _⟩
        · cases hArm
          exact hNo rfl
        · cases hNil
      · rcases hElse with ⟨b, hArm⟩ | ⟨_, rfl⟩
        · cases hArm
        · simp only [lastType]
          rfl
    rw [hSecond] at hJoins
    exact joins_eq (hYes rfl ▸ hJoins)

theorem lastTy?_cons (f g : Fragment) (gs : List Fragment) :
    lastTy? (f :: g :: gs) = lastTy? (g :: gs) := by
  simp [lastTy?, List.getLast?_cons_cons]

theorem lastTy?_single (hTy : f.ty = codeType w) : lastTy? [f] = w.map Width.type := by
  rcases w with _ | w
  · simp [lastTy?, hTy, codeType, ValueType.isNone]
  · cases w <;> simp [lastTy?, hTy, codeType, Width.type, ValueType.isNone]

theorem emits_typed (hEmits : Emits S L job) : job.Typed S.scope := by
  induction hEmits with
  | int | bool | loop | postLoop | leave | again | ret | retWith =>
    left
    simp only [typeOf]
    rfl
  | get hVar =>
    left
    simp only [typeOf, hVar]
    rfl
  | set _ hStores | update _ _ _ hStores => simpa only [Job.Typed, typeOf] using hStores.ty_eq
  | unary _ hAlters ih =>
    left
    simp only [typeOf]
    exact hAlters.ty_eq (ih.resolve_right (by simp))
  | binary _ _ hCombines ihLeft ihRight =>
    left
    simp only [typeOf]
    refine hCombines.ty_eq ?_ ?_
    · rw [ihLeft.resolve_right (by simp), codeType_held]
    · rw [ihRight.resolve_right (by simp), codeType_held]
  | cast _ hCasts =>
    left
    rw [hCasts.ty_eq]
    simp only [typeOf]
    rfl
  | logical _ _ hShort =>
    left
    cases hShort <;> simp [typeOf] <;> rfl
  | cond _ _ _ _ hElse hFinish _ ihYes ihNo =>
    simpa only [Job.Typed, typeOf] using FinishesIf.ty_eq ihYes ihNo hElse hFinish
  | nil =>
    intro _
    simp only [lastType]
    rfl
  | blank =>
    intro _
    simp only [lastType, typeOf]
    rfl
  | skip _ ih => simpa only [Job.Typed, lastType] using ih
  | last _ hDiscards ih =>
    rintro rfl
    cases hDiscards
    simp only [lastType]
    exact lastTy?_single (ih.resolve_right (by simp))
  | @next _ _ _ _ _ _ _ gs _ hDiscards _ _ ih =>
    intro hKeep
    simp only [lastType]
    rw [← ih hKeep]
    rcases gs with _ | ⟨g, gs⟩
    · rw [lastTy?_single (w := none) hDiscards.blank]
      rfl
    · exact lastTy?_cons _ g gs

end Integral

end RubyWat
