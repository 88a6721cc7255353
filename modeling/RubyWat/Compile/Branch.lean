import RubyWat.Compile.Operator

/-
  Conditionals, loops, branches and logical operators.

  A loop is a block around a loop.  Leaving the loop is a branch to the block, starting it anew
  is a branch to the loop, and both are found by going up from the place of the branch.
-/

-- Conditionals

namespace RubyWat

open Code

namespace Context

def armType? (ctx : Context) (arm : NodeId) : Option ValueType :=
  ((ctx.tree.lastChild? arm).map ctx.tree.ty).filter (!·.isNone)

def armTerminates (ctx : Context) (arm : NodeId) : Bool :=
  (ctx.tree.lastChild? arm).any fun n => (ctx.tree.instr n).isTerminator

end Context

namespace Build

def joinArms (first second : Option ValueType) (span : Span) : Build ValueType := do
  match first, second with
  | none, none => return .none
  | some t, none => return t
  | none, some t => return t
  | some t, some e =>
    if t = e then return t
    else if t.isMachine && e.isMachine then return (ValueType.leading? [t, e]).getD t
    else throw (.armMismatch (← describe t) (← describe e) span)

/-
  Make an arm leave a value of a type.  An arm without a value
  leaves zero, unless it never ends.
-/
def settleArm (result : ValueType) (arm : NodeId) : Build Unit := do
  let ctx ← get
  match ctx.armType? arm, ctx.tree.lastChild? arm with
  | some ty, some last => if ty ≠ result then let _ ← promote last result
  | _, _ => if !result.isNone && !ctx.armTerminates arm then let _ ← addNode arm (.const 0) result

def finishIfValue (n thenArm : NodeId) (elseArm : Option NodeId) (span : Span) :
    Build NodeId := do
  let elseArm ←
    match elseArm with
    | some e => pure e
    | none => addNode n .elseArm .none
  let ctx ← get
  let result ← joinArms (ctx.armType? thenArm) (ctx.armType? elseArm) span
  settleArm result thenArm
  settleArm result elseArm
  if result.isNone && (← childrenOf elseArm).isEmpty then modifyTree (·.detach elseArm)
  setTy n result
  return n

def finishIfStatement (n : NodeId) (elseArm : Option NodeId) : Build NodeId := do
  match elseArm with
  | some e => if (← childrenOf e).isEmpty then modifyTree (·.detach e)
  | none => pure ()
  setTy n .none
  return n

/-
  Settle the type of a conditional whose children are the
  condition, one arm and perhaps the other.
-/
def finishIf (n : NodeId) (keep : Bool) (span : Span) : Build NodeId := do
  let finish thenArm elseArm :=
    if keep then finishIfValue n thenArm elseArm span
    else finishIfStatement n elseArm
  match (← childrenOf n).drop 1 with
  | [t] => finish t none
  | [t, e] => finish t (some e)
  | _ => throw (.internal .conditionalArms)

end Build

-- Loops

namespace Context

/- The innermost loop around a node inside its method. -/
def enclosingLoop? (ctx : Context) (n : NodeId) : Option NodeId :=
  ((ctx.tree.lineage n).takeWhile fun a =>
    match ctx.tree.instr a with
    | .function _ => false
    | _ => true).find? fun a =>
    match ctx.tree.instr a with
    | .loop => true
    | _ => false

end Context

namespace Build

/- The block of a new loop, and the loop itself. -/
def loopShell (parent : NodeId) (span : Span) : Build (NodeId × NodeId) := do
  let block ← addNode parent .block .none
  let body ← addNode block .loop .none
  setSpan block span
  return (block, body)

/- Reduce the condition of a branch, inverted if wanted. -/
def branchIf (n : NodeId) (negate : Bool) : Build Unit := do
  match (← tree).firstChild? n with
  | none => throw (.internal .branchCondition)
  | some cond =>
    let cond ← condition cond
    if negate then
      let inverted ← insertAbove cond (.unary .eqz) .i32
      let _ ← fold inverted

def loopBack (body : NodeId) : Build NodeId :=
  addNode body (.br body) .none

/- The innermost loop, or a complaint about the keyword. -/
def enclosingLoop (n : NodeId) (keyword : String) (span : Span) : Build NodeId := do
  match (← get).enclosingLoop? n with
  | some body => return body
  | none => throw (.branchScope keyword span)

def breakLoop (parent : NodeId) (span : Span) : Build NodeId := do
  let body ← enclosingLoop parent "break" span
  match (← tree).parent? body with
  | none => throw (.internal .loopBlock)
  | some block => addNodeAt parent (.br block) .none span

def nextLoop (parent : NodeId) (span : Span) : Build NodeId := do
  let body ← enclosingLoop parent "next" span
  addNodeAt parent (.br body) .none span

end Build

-- Logical Operators

/- Whether an instruction gives nothing but zero and one. -/
def isBoolean : Instr → Bool
  | .compare _ _ => true
  | .unary .eqz => true
  | .const value => value == 0 || value == 1
  | _ => false

namespace Build

def boolean (n : NodeId) : Build NodeId := do
  let n ← condition n
  if isBoolean (← instrOf n) then return n
  else
    let test ← insertAbove n (.compare .ne .i32) .i32
    let _ ← addNode test (.const 0) .i32
    fold test

/-
  Turn a conditional whose children are two operands into a conjunction or a disjunction.  The
  second operand moves into the arm where it decides.
-/
def shortCircuit (n : NodeId) (isAnd : Bool) (span : Span) : Build NodeId := do
  match ← childrenOf n with
  | [left, right] =>
    let _ ← condition left
    modifyTree (·.detach right)
    let thenArm ← addNode n .thenArm .none
    let elseArm ← addNode n .elseArm .none
    let valueArm := if isAnd then thenArm else elseArm
    let constantArm := if isAnd then elseArm else thenArm
    modifyTree (·.reparent right valueArm)
    let _ ← boolean right
    let _ ← addNode constantArm (.const (if isAnd then 0 else 1)) .i32
    setTy n .i32
    setSpan n span
    return n
  | _ => throw (.internal .logicalOperands)

-- Results

def resultMismatch {α : Type} (m : MethodId) (found : ValueType) (span : Span) : Build α := do
  let p ← program
  throw (.resultMismatch (p.describeMethod m)
    (p.describe (p.method m).result) (p.describe found) span)

/- Make the value of a node fit the result of a method. -/
def fitResult (m : MethodId) (value : Option NodeId) (span : Span) : Build Unit := do
  let expected := ((← program).method m).result
  let found ←
    match value with
    | some v => tyOf v
    | none => pure .none
  match value with
  | some v =>
    if !expected.isNone && !found.isNone then let _ ← cast v expected true span
    else if !(expected.isNone && found.isNone) then resultMismatch m found span
  | none => if !expected.isNone then resultMismatch m found span

/- Turn a node, with or without a value in it, into a return. -/
def returnValue (n : NodeId) (span : Span) : Build NodeId := do
  match (← get).methodOf? n with
  | none => throw (.returnScope span)
  | some m =>
    fitResult m ((← tree).firstChild? n) span
    setNode n .ret .none
    setSpan n span
    return n

end Build

end RubyWat
