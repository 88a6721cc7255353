import RubyWat.Lower.Unit
import RubyWat.Proofs.Surgery

/-
  The rules of the translation inside of methods.

  Key definitions: `Translation.Casts`, `Translation.Operates`, `Translation.Calls`,
    `Translation.Assigns`, `Translation.Lowers`, `Translation.Coded`.

  The compiler puts nodes into a tree and changes them again as it learns more.  The rules below
  say what comes out of that as fragments: which fragments a construct becomes, given the names
  that are declared before it, and which names are declared after it.  They do not say how new
  nodes are numbered.
-/

-- Conversions

namespace RubyWat

open Code Dump

namespace Translation

/- The value of a fragment made to have a type. -/
inductive Casts (signed : Bool) (target : ValueType) (f : Fragment) : Fragment → Prop where
  | keep (hKind : Conversion.between f.ty target = .keep) : Casts signed target f f
  | literal (hConst : f.instr = .const value) (hKeep : Conversion.between f.ty target ≠ .keep)
      (hAllowed : (Conversion.between f.ty target).isAllowed) :
      Casts signed target f { f with
          instr := .const ((Conversion.between f.ty target).literal signed value)
          ty := target }
  | retag (hConst : ∀ value, f.instr ≠ .const value)
      (hKind : Conversion.between f.ty target = .retag) :
      Casts signed target f { f with ty := target }
  | extend (hConst : ∀ value, f.instr ≠ .const value)
      (hKind : Conversion.between f.ty target = .extend) :
      Casts signed target f ⟨n, .extend signed, target, [f]⟩
  | wrap (hConst : ∀ value, f.instr ≠ .const value)
      (hKind : Conversion.between f.ty target = .wrap ∨ Conversion.between f.ty target = .wrapRetag)
      : Casts signed target f ⟨n, .wrap, target, [f]⟩

/- Several values made to have types, one for one. -/
inductive CastsAll : List Fragment → List ValueType → List Fragment → Prop where
  | nil : CastsAll [] [] []
  | cons (hFirst : Casts true ty f f') (hRest : CastsAll fs types fs') :
      CastsAll (f :: fs) (ty :: types) (f' :: fs')

/- A value that is discarded unless it is wanted. -/
inductive Discards : Bool → Fragment → Fragment → Prop where
  | keep {f : Fragment} (hKeep : keep = true ∨ f.ty = .none) : Discards keep f f
  | drop {f : Fragment} (hNone : f.ty ≠ .none) : Discards false f ⟨n, .drop, .none, [f]⟩

end Translation

-- Operators On Literals

namespace Code

namespace Fragment

/- The value of a literal. -/
def literal? (f : Fragment) : Option Int64 :=
  match f.instr with
  | .const value => some value
  | _ => none

/- The value of an operator whose operands are literals. -/
def foldedValue? (f : Fragment) : Option Int64 := do
  let operands ← f.children.mapM literal?
  match f.instr, operands with
  | .binary op, [a, b] =>
    let ty ← f.ty.machine?
    op.apply ty a b
  | .compare op _, [a, b] => some (op.apply a b)
  | .unary op, [a] =>
    let operand ← f.children.head?
    let ty ← operand.ty.machine?
    op.apply ty a
  | _, _ => none

/- An operator on literals as its value, where that is wanted. -/
def folded (fold : Bool) (f : Fragment) : Fragment :=
  if fold then
    match f.foldedValue? with
    | some value => .leaf f.id (.const value) f.ty
    | none => f
  else f

end Fragment

end Code

-- Truth

namespace Translation

/- The value of a fragment reduced to a truth value. -/
inductive Tests (fold : Bool) (f : Fragment) : Fragment → Prop where
  | narrow (hTy : f.ty = .i32) : Tests fold f f
  | ref (hTy : f.ty = .ref c) : Tests fold f { f with ty := .i32 }
  | wide (hTy : f.ty = .i64) : Tests fold f (Fragment.folded fold
          ⟨n, .compare .ne .i64, .i32, [f, .leaf zero (.const 0) .i64]⟩)

/- The value of a fragment reduced to zero or one. -/
inductive Decides (fold : Bool) : Fragment → Fragment → Prop where
  | boolean (hTests : Tests fold f g) (hBoolean : isBoolean g.instr = true) : Decides fold f g
  | compare (hTests : Tests fold f g) (hBoolean : isBoolean g.instr = false) :
      Decides fold f (Fragment.folded fold
          ⟨n, .compare .ne .i32, .i32, [g, .leaf zero (.const 0) .i32]⟩)

/- The condition of a branch, inverted if wanted. -/
inductive BranchesOn (fold : Bool) : Bool → Fragment → Fragment → Prop where
  | direct (hTests : Tests fold f g) : BranchesOn fold false f g
  | inverted (hTests : Tests fold f g) :
      BranchesOn fold true f (Fragment.folded fold ⟨n, .unary .eqz, .i32, [g]⟩)

-- Operators

/- A step of the compilation that only declares names, with the names before and after it. -/
def Names {α : Type} (step : Build α) (p : Program) (a : α) (p' : Program) : Prop :=
  ∃ ctx : Context, ctx.program = p ∧ step ctx = .ok a { ctx with program := p' }

/- An operator applied to the children of a fragment. -/
inductive Operates (fold : Bool) : String → Program → Fragment → Program → Fragment → Prop where
  | binary {f : Fragment} (hChildren : f.children = [left, right]) (hRef : left.ty.isRef = false)
      (hLeading : ValueType.leading? [left.ty, right.ty] = some leading)
      (hMachine : leading.machine? = some ty) (hFloat : ty.isFloat = false)
      (hLeft : Casts true leading left left') (hRight : Casts true leading right right')
      (hInstr : Build.binaryInstr? name ty = some (instr, result)) :
      Operates fold name p f p (Fragment.folded fold
          { f with instr, ty := result, children := [left', right'] })
  | negative {f : Fragment} (hChildren : f.children = [operand]) (hTy : operand.ty = .machine ty)
      (hFloat : ty.isFloat = false) :
      Operates fold "-@" p f p (Fragment.folded fold { f with
            instr := .binary .sub
            ty := operand.ty
            children := [.leaf zero (.const 0) operand.ty, operand] })
  | complement {f : Fragment} (hChildren : f.children = [operand]) (hTy : operand.ty = .machine ty)
      (hFloat : ty.isFloat = false) :
      Operates fold "~" p f p (Fragment.folded fold { f with
            instr := .binary .xor
            ty := operand.ty
            children := [operand, .leaf ones (.const (-1)) operand.ty] })
  | negation {f : Fragment} (hChildren : f.children = [operand]) (hTy : operand.ty = .machine ty)
      (hFloat : ty.isFloat = false) :
      Operates fold "!" p f p (Fragment.folded fold { f with instr := .unary .eqz, ty := .i32 })
  | unary {f : Fragment} (hChildren : f.children = [operand]) (hTy : operand.ty = .machine ty)
      (hFloat : ty.isFloat = false) (hOp : Wasm.UnaryOp.ofName? name = some op) :
      Operates fold name p f p (Fragment.folded fold { f with
            instr := .unary op
            ty := .machine (op.resultType ty) })
  | nullTest {f : Fragment} (hChildren : f.children = [receiver]) (hTy : receiver.ty = .ref c)
      (hName : name = "!" ∨ name = "zero?") :
      Operates fold name p f p { f with
          instr := .unary .eqz
          ty := .i32
          children := [{ receiver with ty := Build.address }] }
  | addressCompare {f : Fragment} (hChildren : f.children = [receiver, arg])
      (hTy : receiver.ty = .ref c) (hOp : Wasm.Relation.ofName? name = some op)
      (hReceiver : Casts false Build.address receiver receiver')
      (hArg : Casts false Build.address arg arg') :
      Operates fold name p f p { f with
          instr := .compare op ValueType.pointer
          ty := .i32
          children := [receiver', arg'] }
  | distance {f : Fragment} (hChildren : f.children = [receiver, arg]) (hTy : receiver.ty = .ref c)
      (hArg : arg.ty = .ref c) (hSize : Names (Build.sizeMethod c) p size p') :
      Operates fold "-" p f p' ⟨quotient, .binary .div, Build.address, [{ f with
              instr := .binary .sub
              ty := Build.address
              children :=
                [{ receiver with ty := Build.address }, { arg with ty := Build.address }] },
            .leaf call (.call size) Build.address]⟩
  | move {f : Fragment} (hName : name = "+" ∧ op = .add ∨ name = "-" ∧ op = .sub)
      (hChildren : f.children = [receiver, arg]) (hTy : receiver.ty = .ref c)
      (hArg : arg.ty.isInteger) (hSize : Names (Build.sizeMethod c) p size p')
      (hCast : Casts true Build.address arg arg') :
      Operates fold name p f p' { f with
          instr := .binary op
          ty := .ref c
          children := [receiver, ⟨scaled, .binary .mul, Build.address,
                [arg', .leaf call (.call size) Build.address]⟩] }

-- Calls

/- The receiver of a call in front of what is in its node. -/
inductive Receives (owner : ClassId) : Receiver → List Fragment → List Fragment → Prop where
  | inNode : Receives owner .inNode fs fs
  | absent : Receives owner .absent fs fs
  | current : Receives owner .current fs (.leaf n (.localGet receiverName) (.ref owner) :: fs)
  | null : Receives owner .null fs (.leaf n (.const 0) (.ref owner) :: fs)

/- The names after a call that may be the first of its target. -/
def assumed (p : Program) (m : MethodId) (types : List ValueType) : Program :=
  if (p.method m).isForward then
    p.modifyMethod m fun x => { x with params := x.params ++ Build.assumedParams types }
  else p

/- A fragment whose children are arguments turned into a call. -/
inductive Calls (m : MethodId) (receiver : Receiver) (p : Program) (f : Fragment) :
    Program → Fragment → Prop where
  | onInstance (hInstance : (p.method m).isInstance = true)
      (hReceives : Receives (p.method m).owner receiver f.children (this :: args))
      (hThis : Casts false (.ref (p.method m).owner) this this')
      (hArgs : CastsAll args (((assumed p m (args.map (·.ty))).method m).params.map (·.ty)) args') :
      Calls m receiver p f (assumed p m (args.map (·.ty))) { f with
          instr := .call m
          ty := ((assumed p m (args.map (·.ty))).method m).result
          children := this' :: args' }
  | onClass (hInstance : (p.method m).isInstance = false)
      (hReceives : Receives (p.method m).owner receiver f.children args)
      (hArgs : CastsAll args (((assumed p m (args.map (·.ty))).method m).params.map (·.ty)) args') :
      Calls m receiver p f (assumed p m (args.map (·.ty))) { f with
          instr := .call m
          ty := ((assumed p m (args.map (·.ty))).method m).result
          children := args' }

/- The method that the first child of a fragment has. -/
inductive Applies (fold : Bool) (name : String) (p : Program) (f : Fragment) :
    Program → Fragment → Prop where
  | method (hChildren : f.children = receiver :: args) (hTy : receiver.ty = .ref c)
      (hMethod : p.instanceMethod? c name = some m) (hCall : Calls m .inNode p f p' f') :
      Applies fold name p f p' f'
  | forward (hChildren : f.children = receiver :: args) (hTy : receiver.ty = .ref c)
      (hMethod : p.instanceMethod? c name = none)
      (hCall : Calls (p.declareMethod c name .onInstance span).1 .inNode
          (p.declareMethod c name .onInstance span).2 f p' f') : Applies fold name p f p' f'
  | operator (hOperates : Operates fold name p f p' f') : Applies fold name p f p' f'

end Translation

-- Control

namespace Code

namespace Fragment

/- The type of the value that the last child leaves, if any. -/
def lastType? (f : Fragment) : Option ValueType :=
  (f.children.getLast?.map (·.ty)).filter (!·.isNone)

/- Whether the last child is a branch or a return. -/
def terminates (f : Fragment) : Bool :=
  f.children.getLast?.any (·.instr.isTerminator)

end Fragment

end Code

namespace Translation

/- The common type of two arms. -/
inductive Joins : Option ValueType → Option ValueType → ValueType → Prop where
  | neither : Joins none none .none
  | first : Joins (some ty) none ty
  | second : Joins none (some ty) ty
  | same : Joins (some ty) (some ty) ty
  | leading (hNe : a ≠ b) (hFirst : a.isMachine) (hSecond : b.isMachine) :
      Joins (some a) (some b) ((ValueType.leading? [a, b]).getD a)

/- An arm made to leave a value of a type. -/
inductive Settles (result : ValueType) (arm : Fragment) : Fragment → Prop where
  | same (hTy : arm.lastType? = some result) : Settles result arm arm
  | promote (hChildren : arm.children = before ++ [last]) (hNone : last.ty ≠ .none)
      (hNe : last.ty ≠ result) (hCast : Casts true result last last') :
      Settles result arm { arm with children := before ++ [last'] }
  | zero (hTy : arm.lastType? = none) (hNone : result ≠ .none) (hEnds : arm.terminates = false) :
      Settles result arm { arm with children := arm.children ++ [.leaf n (.const 0) result] }
  | blank (hTy : arm.lastType? = none) (hNone : result = .none ∨ arm.terminates = true) :
      Settles result arm arm

/- An arm that is left out if nothing is in it. -/
def nonempty (arm : Fragment) : List Fragment :=
  if arm.children.isEmpty then [] else [arm]

/- The second arm once the type of a conditional is known. -/
def secondArm (result : ValueType) (arm : Fragment) : List Fragment :=
  if result = .none then nonempty arm else [arm]

/- A conditional whose type is settled. -/
inductive FinishesIf (f : Fragment) : Bool → Fragment → Prop where
  | value (hChildren : f.children = head :: t :: rest)
      (hElse : rest = [e] ∨ rest = [] ∧ ∃ n, e = .leaf n .elseArm .none)
      (hJoins : Joins t.lastType? e.lastType? result) (hThen : Settles result t t')
      (hSecond : Settles result e e') :
      FinishesIf f true { f with
          ty := result
          children := head :: t' :: secondArm result e' }
  | statement (hChildren : f.children = [head, t]) : FinishesIf f false { f with ty := .none }
  | statementElse (hChildren : f.children = [head, t, e]) :
      FinishesIf f false { f with ty := .none, children := head :: t :: nonempty e }

/- Two operands turned into a conjunction or a disjunction. -/
inductive ShortCircuits (fold : Bool) (f : Fragment) : Bool → Fragment → Prop where
  | conjunction (hChildren : f.children = [left, right]) (hLeft : Tests fold left left')
      (hRight : Decides fold right right') :
      ShortCircuits fold f true { f with
          ty := .i32
          children := [left', ⟨a, .thenArm, .none, [right']⟩,
              ⟨b, .elseArm, .none, [.leaf k (.const 0) .i32]⟩] }
  | disjunction (hChildren : f.children = [left, right]) (hLeft : Tests fold left left')
      (hRight : Decides fold right right') :
      ShortCircuits fold f false { f with
          ty := .i32
          children := [left', ⟨a, .thenArm, .none, [.leaf k (.const 1) .i32]⟩,
              ⟨b, .elseArm, .none, [right']⟩] }

/- A return from a method with a certain result. -/
inductive Returns (result : ValueType) (f : Fragment) : Fragment → Prop where
  | value (hChildren : f.children = v :: rest) (hResult : result ≠ .none) (hNone : v.ty ≠ .none)
      (hCast : Casts true result v v') :
      Returns result f { f with instr := .ret, ty := .none, children := v' :: rest }
  | blank (hChildren : ∀ v ∈ f.children.head?, v.ty = .none) (hResult : result = .none) :
      Returns result f { f with instr := .ret, ty := .none }

-- Variables

open Lower (VariableKind bareName)

/-
  Where code stands: the method and the innermost loop around
  it with its block.  Operators on literals may be folded.
-/
structure Env where
  fold : Bool
  method : MethodId
  loop : Option (NodeId × NodeId) := none

/- A read of a variable, its name as it is written. -/
inductive Reads (E : Env) (p : Program) (name : String) : VariableKind → Fragment → Prop where
  | localVar (hSlot : (p.method E.method).slotType? name = some ty) :
      Reads E p name .localVar (.leaf n (.localGet name) ty)
  | instanceVar (hInstance : (p.method E.method).isInstance = true)
      (hSlot : (p.cls (p.method E.method).owner).ivarSlot? (bareName name) = some slot)
      (hIvar : (p.cls (p.method E.method).owner).ivar? (bareName name) = some ivar) :
      Reads E p name .instanceVar ⟨n, .load (.layout (.offset (p.method E.method).owner slot)),
          ivar.ty, [.leaf this Build.selfGet (.ref (p.method E.method).owner)]⟩
  | classVar (hCvar : p.findCvar? (p.method E.method).owner (bareName name) = some v) :
      Reads E p name .classVar ⟨n, .load (.fixed v.address), v.ty, [.leaf base (.const 0) .i32]⟩
  | globalVar (hGlobal : p.findGlobal? (bareName name) = some g) :
      Reads E p name .globalVar (.leaf n (.globalGet (bareName name)) (p.globalVar g).ty)

/- A store, with the stored value read again if it is wanted. Memory is read at an address. -/
inductive Keeps (store : Fragment) (reload : Instr) (ty : ValueType) :
    Option Instr → Bool → Fragment → Prop where
  | dropped : Keeps store reload ty address false store
  | plain : Keeps store reload ty none true ⟨block, .block, ty, [store, .leaf load reload ty]⟩
  | addressed : Keeps store reload ty (some address) true ⟨block, .block, ty,
          [store, ⟨load, reload, ty, [.leaf base address .i32]⟩]⟩

/- A fragment whose last child is assigned to a variable. -/
inductive Assigns (E : Env) (name : String) (keep : Bool) (p : Program) (f : Fragment) :
    VariableKind → Program → Fragment → Prop where
  | localVar (hChildren : f.children = before ++ [value]) (hNone : value.ty ≠ .none)
      (hDeclare : (p.method E.method).declareLocal name value.ty = (ty, x))
      (hCast : Casts true ty value value') :
      Assigns E name keep p f .localVar (p.modifyMethod E.method fun _ => x)
        { f with
          instr := if keep then .localTee name else .localSet name
          ty := if keep then ty else .none
          children := before ++ [value'] }
  | instanceVar (hInstance : (p.method E.method).isInstance = true)
      (hChildren : f.children = before ++ [value]) (hNone : value.ty ≠ .none)
      (hDeclare : p.declareIvar (p.method E.method).owner name value.ty true = (slot, p'))
      (hTy : ty = ((p'.cls (p.method E.method).owner).ivars.getD slot default).ty)
      (hCast : Casts true ty value value')
      (hKeeps : Keeps { f with
            instr := .store ty.held (.layout (.offset (p.method E.method).owner slot))
            ty := .none
            children :=
              .leaf this Build.selfGet (.ref (p.method E.method).owner) :: (before ++ [value']) }
          (.load (.layout (.offset (p.method E.method).owner slot)))
          ty (some Build.selfGet) keep g) : Assigns E name keep p f .instanceVar p' g
  | classVar (hCvar : p.findCvar? (p.method E.method).owner name = some v)
      (hChildren : f.children = before ++ [value]) (hNone : value.ty ≠ .none)
      (hCast : Casts true v.ty value value')
      (hKeeps : Keeps { f with
            instr := .store v.ty.held (.fixed v.address)
            ty := .none
            children := .leaf base (.const 0) .i32 :: (before ++ [value']) }
          (.load (.fixed v.address)) v.ty (some (.const 0)) keep g) :
      Assigns E name keep p f .classVar p g
  | globalVar (hGlobal : p.findGlobal? name = some g) (hChildren : f.children = before ++ [value])
      (hNone : value.ty ≠ .none) (hCast : Casts true (p.globalVar g).ty value value')
      (hKeeps : Keeps { f with
            instr := .globalSet name
            ty := .none
            children := before ++ [value'] }
          (.globalGet name) (p.globalVar g).ty none keep h) : Assigns E name keep p f .globalVar p h

-- Operands

open Lower (VariableKind)

/- A call with its receiver, its name and its arguments. -/
inductive Sends (node : Node) : Option Node → String → List Node → Prop where
  | plain (hTag : node.tag = .send) (hItems : node.items = .nil :: items)
      (hName : node.symbolAt 1 = .ok name) : Sends node none name (node.nodesFrom 2)
  | toReceiver (hTag : node.tag = .send) (hItems : node.items = .node receiver :: items)
      (hName : node.symbolAt 1 = .ok name) : Sends node (some receiver) name (node.nodesFrom 2)

theorem Sends.tag_eq (hSend : Sends node receiver name args) : node.tag = .send := by
  cases hSend <;> assumption

/- Literals, variables, constants, and other code without parts. -/
inductive Operands (E : Env) (p : Program) (node : Node) : Program → Fragment → Prop where
  | int (hTag : node.tag = .int) (hInt : node.intAt 0 = .ok value) :
      Operands E p node p (.leaf n (.const value) (literalType value))
  | trueLit (hTag : node.tag = .trueLit) : Operands E p node p (.leaf n (.const 1) (literalType 1))
  | falseLit (hTag : node.tag = .falseLit) :
      Operands E p node p (.leaf n (.const 0) (literalType 0))
  | str (hTag : node.tag = .str) :
      Operands E p node { p with data } (.leaf n (.const (Int64.ofNat address)) .i32)
  | const (hTag : node.tag = .const)
      (hConst : p.findConst? path (p.method E.method).owner = some (.int value ty)) :
      Operands E p node p (.leaf n (.const value) ty)
  | selfRef (hTag : node.tag = .selfRef) (hInstance : (p.method E.method).isInstance = true) :
      Operands E p node p (.leaf n Build.selfGet (.ref (p.method E.method).owner))
  | read (hKind : VariableKind.ofRead? node.tag = some kind) (hName : node.symbolAt 0 = .ok name)
      (hReads : Reads E p name kind f) : Operands E p node p f
  | label (hSend : Sends node (some receiver) name args)
      (hData : Lower.isDataRegistry receiver = true) :
      Operands E p node p (.leaf n (.const value) (literalType value))
  | inlineText (hSend : Sends node none "inline" args) :
      Operands E p node p (.leaf n (.inline text) ty)

-- Directives

open Lower (TypedName)

/- The name of a type that a node holds. -/
def typeText? (node : Node) : Option String :=
  match node.tag, node.constPath? with
  | .const, some path => some (Lower.pathText path)
  | .sym, _ => (node.symbolAt 0).toOption
  | _, _ => none

/- The type that a node names inside of a class. -/
def TypeNamed (p : Program) (c : ClassId) (node : Node) (ty : ValueType) : Prop :=
  (typeText? node).bind (p.typeOfName? · c) = some ty

/- Names with their types, as keywords say them. -/
inductive TypedPairs (p : Program) (c : ClassId) :
    List (String × Node) → List TypedName → Prop where
  | nil : TypedPairs p c [] []
  | cons (hTy : TypeNamed p c node ty) (hRest : TypedPairs p c pairs slots) :
      TypedPairs p c ((name, node) :: pairs) (⟨name, ty, node.span⟩ :: slots)

/- Parameters of a method that get their types. -/
inductive TypesParams (m : MethodId) : List TypedName → Program → Program → Prop where
  | nil : TypesParams m [] p p
  | cons {slot : TypedName} {p : Program}
      (hSlot : (p.method m).setParamType? slot.name slot.ty = some x)
      (hRest : TypesParams m slots (p.modifyMethod m fun _ => x) p') :
      TypesParams m (slot :: slots) p p'

/- Local variables of a method that are declared. -/
inductive TypesLocals (m : MethodId) : List TypedName → Program → Program → Prop where
  | nil : TypesLocals m [] p p
  | known {slot : TypedName} {p : Program} (hSlot : (p.method m).slotType? slot.name = some slot.ty)
      (hRest : TypesLocals m slots p p') : TypesLocals m (slot :: slots) p p'
  | new {slot : TypedName} {p : Program} (hSlot : (p.method m).slotType? slot.name = none) (hRest :
        TypesLocals m slots
          (p.modifyMethod m fun _ => ((p.method m).declareLocal slot.name slot.ty).2) p') :
      TypesLocals m (slot :: slots) p p'

/- What directives inside of a method declare. -/
inductive Directs (m : MethodId) (p : Program) (node : Node) : Program → Prop where
  | arg (hSend : Sends node none "arg" [keywords]) (hPairs : keywords.pairs? = some pairs)
      (hTyped : TypedPairs p (p.method m).owner pairs slots) (hTypes : TypesParams m slots p p') :
      Directs m p node p'
  | localVar (hSend : Sends node none "local" [keywords]) (hPairs : keywords.pairs? = some pairs)
      (hTyped : TypedPairs p (p.method m).owner pairs slots) (hTypes : TypesLocals m slots p p') :
      Directs m p node p'
  | result (hSend : Sends node none "result" [tyNode])
      (hTy : TypeNamed p (p.method m).owner tyNode ty) :
      Directs m p node (p.modifyMethod m fun x =>
          { x with
            result := ty
            flags := { x.flags with declaredResult := true } })
  | exportName (hSend : Sends node none "export" args)
      (hExport : Names (Lower.exportAs (.method m) name node.span) p () p') : Directs m p node p'
  | importName (hSend : Sends node none "import" args) : Directs m p node (p.modifyMethod m fun x =>
          { x with
            binding := some binding
            flags := { x.flags with imported := true } })
  | data (hSend : Sends node (some receiver) name args)
      (hData : Lower.isDataRegistry receiver = true) : Directs m p node { p with data }

-- Constructs

/-
  What is translated: a node with or without its value, a node before an unwanted value is
  dropped, statements of which the last may be kept, or parts whose values are needed.
-/
inductive Job where
  | node (node : Node) (keep : Bool)
  | code (node : Node) (keep : Bool)
  | statements (nodes : List Node) (keep : Bool)
  | values (nodes : List Node)

/- The type that a cast names, and whether it keeps the sign. -/
inductive CastArguments : List Node → Node → Bool → Prop where
  | unsigned : CastArguments [ty] ty false
  | signed {flag : Node} (hFlag : flag.symbolLiteral? = some "signed") :
      CastArguments [ty, flag] ty true

/- The class that a receiver names inside of a method. -/
inductive NamesClass (m : MethodId) (p : Program) (receiver : Node) : Option ClassId → Prop where
  | const (hTag : receiver.tag = .const)
      (hConst : p.findConst? path (p.method m).owner = some (.cls c)) :
      NamesClass m p receiver (some c)
  | constValue (hTag : receiver.tag = .const)
      (hConst : p.findConst? path (p.method m).owner = some (.int value ty)) :
      NamesClass m p receiver none
  | ownClass (hTag : receiver.tag = .selfRef) (hInstance : (p.method m).isInstance = false) :
      NamesClass m p receiver (some (p.method m).owner)
  | ownValue (hTag : receiver.tag = .selfRef) (hInstance : (p.method m).isInstance = true) :
      NamesClass m p receiver none
  | other (hConst : receiver.tag ≠ .const) (hSelf : receiver.tag ≠ .selfRef) :
      NamesClass m p receiver none

/-
  The code of a job: the fragments that it puts behind each other, and the one that stands for
  it at the end, if there is one.
-/
inductive Lowers : Env → Job → Program → Program → List Fragment → Option Fragment → Prop where
  | something (hCode : Lowers E (.code node keep) p p' gs (some f)) (hDiscards : Discards keep f g)
      : Lowers E (.node node keep) p p' gs (some g)
  | nothing (hCode : Lowers E (.code node keep) p p' gs none) :
      Lowers E (.node node keep) p p' gs none
  | done : Lowers E (.statements [] keep) p p [] none
  | last (hNode : Lowers E (.node node keep) p p' gs out) :
      Lowers E (.statements [node] keep) p p' gs out
  | next (hNode : Lowers E (.node node false) p p₁ gs out)
      (hRest : Lowers E (.statements (next :: nodes) keep) p₁ p' hs out') :
      Lowers E (.statements (node :: next :: nodes) keep) p p' (gs ++ out.toList ++ hs) out'
  | noValues : Lowers E (.values []) p p [] none
  | value (hNode : Lowers E (.node node true) p p₁ gs (some f)) (hNone : f.ty ≠ .none)
      (hRest : Lowers E (.values nodes) p₁ p' hs none) :
      Lowers E (.values (node :: nodes)) p p' (gs ++ f :: hs) none
  | sequence {node : Node} (hTag : node.tag = .begin ∨ node.tag = .kwbegin)
      (hBody : Lowers E (.statements node.nodes keep) p p' gs out) :
      Lowers E (.code node keep) p p' gs out
  | operand (hOperand : Operands E p node p' f) : Lowers E (.code node keep) p p' [] (some f)
  | directive {E : Env} (hDirects : Directs E.method p node p') :
      Lowers E (.code node keep) p p' [] none
  | assign {node : Node} (hKind : VariableKind.ofAssignment? node.tag = some kind)
      (hName : node.symbolAt 0 = .ok name) (hNode : node.node? 1 = some valueNode)
      (hValue : Lowers E (.values [valueNode]) p p₁ cs none)
      (hAssigns : Assigns E (bareName name) keep p₁ ⟨n, .nop, .none, cs⟩ kind p' f) :
      Lowers E (.code node keep) p p' [] (some f)
  | operatorAssign {node : Node} (hTag : node.tag = .opAssign)
      (hTarget : node.nodeAt 0 = .ok target) (hOperator : node.symbolAt 1 = .ok operator)
      (hArgument : node.nodeAt 2 = .ok argument)
      (hKind : VariableKind.ofAssignment? target.tag = some kind)
      (hName : target.symbolAt 0 = .ok name) (hReads : Reads E p name kind r)
      (hValue : Lowers E (.values [argument]) p p₁ cs none)
      (hApplies : Applies E.fold operator p₁ ⟨k, .nop, .none, r :: cs⟩ p₂ g)
      (hAssigns : Assigns E (bareName name) keep p₂ ⟨n, .nop, .none, [g]⟩ kind p' f) :
      Lowers E (.code node keep) p p' [] (some f)
  | selfCall {E : Env} {p : Program} (hSend : Sends node none name args)
      (hDirective : Directive.ofName? name = none)
      (hResolve : Names (Lower.resolveSelfCall (p.method E.method).owner
            (p.method E.method).scope name node.span)
          p (m, receiver) p₁) (hArgs : Lowers E (.values args) p₁ p₂ cs none)
      (hCalls : Calls m receiver p₂ ⟨n, .nop, .none, cs⟩ p' f) :
      Lowers E (.code node keep) p p' [] (some f)
  | classCall {E : Env} (hSend : Sends node (some receiverNode) name args)
      (hData : Lower.isDataRegistry receiverNode = false) (hCast : name ≠ "cast_to")
      (hClass : NamesClass E.method p receiverNode (some c))
      (hResolve : Names (Lower.resolveClassCall c name node.span) p (m, receiver) p₁)
      (hArgs : Lowers E (.values args) p₁ p₂ cs none)
      (hCalls : Calls m receiver p₂ ⟨n, .nop, .none, cs⟩ p' f) :
      Lowers E (.code node keep) p p' [] (some f)
  | castCall {E : Env} (hSend : Sends node (some receiverNode) "cast_to" args)
      (hData : Lower.isDataRegistry receiverNode = false) (hArgs : CastArguments args tyNode signed)
      (hTy : TypeNamed p (p.method E.method).owner tyNode ty)
      (hValue : Lowers E (.node receiverNode true) p p' gs (some f)) (hNone : f.ty ≠ .none)
      (hCasts : Casts signed ty f g) : Lowers E (.code node keep) p p' gs (some g)
  | valueCall {E : Env} (hSend : Sends node (some receiverNode) name args)
      (hData : Lower.isDataRegistry receiverNode = false) (hCast : name ≠ "cast_to")
      (hClass : NamesClass E.method p receiverNode none)
      (hValues : Lowers E (.values (receiverNode :: args)) p p₁ cs none)
      (hApplies : Applies E.fold name p₁ ⟨n, .nop, .none, cs⟩ p' f) :
      Lowers E (.code node keep) p p' [] (some f)
  | negation {node : Node} (hTag : node.tag = .negation)
      (hOperand : node.nodeAt 0 = .ok operand) (hValue : Lowers E (.values [operand]) p p₁ cs none)
      (hApplies : Applies E.fold "!" p₁ ⟨n, .nop, .none, cs⟩ p' f) :
      Lowers E (.code node keep) p p' [] (some f)
  | logical {node : Node} (hTag : node.tag = if isAnd then .conj else .disj)
      (hLeft : node.nodeAt 0 = .ok left) (hRight : node.nodeAt 1 = .ok right)
      (hValues : Lowers E (.values [left, right]) p p' cs none)
      (hShort : ShortCircuits E.fold ⟨n, .cond, .none, cs⟩ isAnd f) :
      Lowers E (.code node keep) p p' [] (some f)
  | ifThen {node : Node} (hTag : node.tag = .cond) (hTest : node.nodeAt 0 = .ok test)
      (hElse : node.node? 2 = none) (hValue : Lowers E (.node test true) p p₁ gs (some c))
      (hNone : c.ty ≠ .none) (hTests : Tests E.fold c c')
      (hThen : Lowers E (.statements (node.node? 1).toList keep) p₁ p' hs out)
      (hFinish :
        FinishesIf ⟨n, .cond, .none, gs ++ [c', ⟨a, .thenArm, .none, hs ++ out.toList⟩]⟩ keep f) :
      Lowers E (.code node keep) p p' [] (some f)
  | ifThenElse {node : Node} (hTag : node.tag = .cond) (hTest : node.nodeAt 0 = .ok test)
      (hElse : node.node? 2 = some body) (hValue : Lowers E (.node test true) p p₁ gs (some c))
      (hNone : c.ty ≠ .none) (hTests : Tests E.fold c c')
      (hThen : Lowers E (.statements (node.node? 1).toList keep) p₁ p₂ hs out)
      (hSecond : Lowers E (.node body keep) p₂ p' ks out')
      (hFinish : FinishesIf ⟨n, .cond, .none, gs ++ [c', ⟨a, .thenArm, .none, hs ++ out.toList⟩,
              ⟨b, .elseArm, .none, ks ++ out'.toList⟩]⟩
          keep f) : Lowers E (.code node keep) p p' [] (some f)
  | testedLoop {node : Node} (hTag : node.tag = if isWhile then .whileLoop else .untilLoop)
      (hTest : node.nodeAt 0 = .ok test)
      (hValue : Lowers { E with loop := some (loop, block) } (.values [test]) p p₁ (c :: cs) none)
      (hBranch : BranchesOn E.fold isWhile c c')
      (hBody : Lowers { E with loop := some (loop, block) }
          (.statements (node.node? 1).toList false) p₁ p' hs out) :
      Lowers E (.code node keep) p p' [] (some ⟨block, .block, .none,
          [⟨loop, .loop, .none, ⟨exit, .brIf block, .none, c' :: cs⟩
              :: (hs ++ out.toList ++ [.leaf back (.br loop) .none])⟩]⟩)
  | postTestedLoop {node : Node} (hTag : node.tag = if isWhile then .whilePost else .untilPost)
      (hTest : node.nodeAt 0 = .ok test) (hNode : node.nodeAt 1 = .ok body)
      (hBody : Lowers { E with loop := some (loop, block) } (.node body false) p p₁ hs out)
      (hValue : Lowers { E with loop := some (loop, block) } (.values [test]) p₁ p' (c :: cs) none)
      (hBranch : BranchesOn E.fold (!isWhile) c c') :
      Lowers E (.code node keep) p p' [] (some ⟨block, .block, .none,
          [⟨loop, .loop, .none, hs ++ out.toList ++ [⟨again, .brIf loop, .none, c' :: cs⟩]⟩]⟩)
  | breakLoop {E : Env} {node : Node} (hTag : node.tag = .breakLoop) (hNodes : node.nodes = [])
      (hLoop : E.loop = some (loop, block)) :
      Lowers E (.code node keep) p p [] (some (.leaf n (.br block) .none))
  | nextLoop {E : Env} {node : Node} (hTag : node.tag = .nextLoop) (hNodes : node.nodes = [])
      (hLoop : E.loop = some (loop, block)) :
      Lowers E (.code node keep) p p [] (some (.leaf n (.br loop) .none))
  | ret {node : Node} (hTag : node.tag = .ret) (hNodes : node.nodes.length ≤ 1)
      (hValue : Lowers E (.values node.nodes) p p' cs none)
      (hReturns : Returns (p'.method E.method).result ⟨n, .nop, .none, cs⟩ f) :
      Lowers E (.code node keep) p p' [] (some f)

-- Methods

/-
  The statements of a method.  The last one keeps its value if
  the method gives one, as far as is known when it comes.
-/
inductive LowersBody (E : Env) : List Node → Program → Program → List Fragment → Prop where
  | nil : LowersBody E [] p p []
  | last {p : Program}
      (hNode : Lowers E (.node node (!(p.method E.method).result.isNone)) p p' gs out) :
      LowersBody E [node] p p' (gs ++ out.toList)
  | next (hNode : Lowers E (.node node false) p p₁ gs out)
      (hRest : LowersBody E (next :: nodes) p₁ p' hs) :
      LowersBody E (node :: next :: nodes) p p' (gs ++ out.toList ++ hs)

/- A body whose last value fits the result of its method. -/
inductive Finishes (result : ValueType) : List Fragment → List Fragment → Prop where
  | empty (hNone : result = .none) : Finishes result [] []
  | terminated {last : Fragment} (hEnds : last.instr.isTerminator = true) :
      Finishes result (before ++ [last]) (before ++ [last])
  | blank {last : Fragment} (hNone : result = .none) (hEnds : last.instr.isTerminator = false)
      (hDiscards : Discards false last last') :
      Finishes result (before ++ [last]) (before ++ [last'])
  | value {last : Fragment} (hNone : result ≠ .none) (hEnds : last.instr.isTerminator = false)
      (hCasts : Casts true result last last') :
      Finishes result (before ++ [last]) (before ++ [last'])

/-
  The address of a new object: memory from an allocator, or a
  place that all objects without fields share.
-/
inductive Allocates (c : ClassId) : Fragment → Prop where
  | shared : Allocates c (.leaf n (.const (Int64.ofNat address)) (.ref c))
  | fresh (hCalls : Calls allocator .absent p ⟨n, .nop, .none, [.leaf call (.call size) .i32]⟩ p' f)
      (hCasts : Casts false (.ref c) f g) : Allocates c g

/- The code of methods that the compiler provides under a name. -/
inductive Provides (c : ClassId) : String → MethodScope → List Fragment → Prop where
  | size : Provides c "_size_" .onClass [.leaf n (.layout (.size c)) .i32]
  | initializer : Provides c "initialize" .onInstance []
  | reader : Provides c name .onInstance
        [⟨n, .load (.layout (.offset c slot)), ty, [.leaf this Build.selfGet (.ref c)]⟩]
  | writer {ty : ValueType} (hHeld : ty.held? = some held) :
      Provides c (Build.writerName name) .onInstance
        [⟨n, .store held (.layout (.offset c slot)), .none,
          [.leaf this Build.selfGet (.ref c), .leaf value (.localGet "value") ty]⟩]
  | constructor (hObject : Allocates c object)
      (hArgs : ∀ arg ∈ args, ∃ k x ty, arg = .leaf k (.localGet x) ty)
      (hCalls : Calls init .inNode p ⟨call, .nop, .none,
            .leaf this (.localGet Build.newObject) (.ref c) :: args⟩
          p' f) (hDiscards : Discards false f g) :
      Provides c "new" .onClass [⟨assign, .localSet Build.newObject, .none, [object]⟩, g,
          .leaf n (.localGet Build.newObject) (.ref c)]

/- The code of a method, written or provided. -/
inductive Coded : List Fragment → Prop where
  | written (hBody : LowersBody ⟨fold, m, none⟩ nodes p p' gs)
      (hFinish : Finishes (p'.method m).result gs fs) : Coded fs
  | provided (hProvides : Provides c name scope fs) : Coded fs

end Translation

end RubyWat
