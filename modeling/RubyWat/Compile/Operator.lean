import RubyWat.Compile.Convert

/-
  Native operators, arithmetic on references, and conditions.

  Operands are promoted to their leading type first.  A reference moves by whole objects: a
  distance counts in sizes of the class it refers to.
-/

-- Operators On Literals

namespace RubyWat

open Code Wasm

namespace Context

/- The values of children that are all literals. -/
def literals? (ctx : Context) (n : NodeId) : Option (List Int64) :=
  (ctx.tree.children n).mapM fun c =>
    match ctx.tree.instr c with
    | .const value => some value
    | _ => none

/- The value of an operator whose operands are literals. -/
def foldedValue? (ctx : Context) (n : NodeId) : Option Int64 := do
  let operands ← ctx.literals? n
  match ctx.tree.instr n, operands with
  | .binary op, [a, b] =>
    let ty ← (ctx.tree.ty n).machine?
    op.apply ty a b
  | .compare op _, [a, b] => some (op.apply a b)
  | .unary op, [a] =>
    let operand ← ctx.tree.firstChild? n
    let ty ← (ctx.tree.ty operand).machine?
    op.apply ty a
  | _, _ => none

end Context

namespace Build

/- Replace an operator on literals by its value. -/
def fold (n : NodeId) : Build NodeId := do
  let ctx ← get
  if ctx.options.foldConstants then
    match ctx.foldedValue? n with
    | some value =>
      modifyTree fun t => (t.clearChildren n).setInstr n (.const value)
      return n
    | none => return n
  else return n

-- Operators On Integers

def inapplicable {α : Type} (ty : ValueType) (name : String) (span : Span) : Build α := do
  throw (.inapplicable (← describe ty) name span)

def unknownOperator {α : Type} (ty : ValueType) (name : String) (span : Span) : Build α := do
  throw (.unknownOperator (← describe ty) name span)

def binaryInstr? (name : String) (ty : MachineType) : Option (Instr × ValueType) :=
  match BinaryOp.ofName? name, Relation.ofName? name with
  | some op, _ => some (.binary op, .machine ty)
  | none, some op => some (.compare op ty, .i32)
  | none, none => none

def binaryOperator (n left right : NodeId) (name : String) (span : Span) :
    Build NodeId := do
  let leftTy ← tyOf left
  if (binaryInstr? name .i32).isNone then unknownOperator leftTy name span
  let rightTy ← tyOf right
  match ValueType.leading? [leftTy, rightTy] with
  | none => inapplicable leftTy name span
  | some leading =>
    match leading.machine? with
    | none => throw (.internal .machineOperand)
    | some ty =>
      if ty.isFloat then throw (.floatOperand name span)
      let _ ← promote left leading
      let _ ← promote right leading
      match binaryInstr? name ty with
      | some (instr, resultTy) => setNode n instr resultTy
      | none => pure ()
      fold n

def unaryOperator (n operand : NodeId) (name : String) (span : Span) : Build NodeId := do
  let ty ← tyOf operand
  match ty.machine? with
  | none => inapplicable ty name span
  | some machine =>
    if machine.isFloat then throw (.floatOperand name span)
    match name with
    | "-@" =>
      let zero ← createNode (.const 0) ty
      modifyTree (·.prependChild n zero)
      setNode n (.binary .sub) ty
    | "~" =>
      let _ ← addNode n (.const (-1)) ty
      setNode n (.binary .xor) ty
    | "!" => setNode n (.unary .eqz) .i32
    | name =>
      match UnaryOp.ofName? name with
      | some op => setNode n (.unary op) (.machine (op.resultType machine))
      | none => unknownOperator ty name span
    fold n

-- Operators On References

/- Addresses as plain integers. -/
abbrev address : ValueType :=
  .machine ValueType.pointer

/-
  The class method that gives the size of a class.  Unless the program has its own, the compiler
  provides it when the class is closed.
-/
def sizeMethod (c : ClassId) : Build MethodId := do
  let m ← declare (·.declareMethod c "_size_" .onClass .generated)
  let flags := ((← program).method m).flags
  if !flags.synthesized && !flags.implemented && !flags.imported then
    modifyMethod m fun x =>
      { x with
        flags := { x.flags with synthesized := true }
        result := .i32 }
  return m

def pointerDifference (n receiver arg : NodeId) (size : MethodId) : Build NodeId := do
  setTy receiver address
  setTy arg address
  setNode n (.binary .sub) address
  let quotient ← insertAbove n (.binary .div) address
  let _ ← addNode quotient (.call size) address
  return quotient

/- A reference moved by a number of objects. -/
def pointerMove (n arg : NodeId) (c : ClassId) (op : BinaryOp)
    (size : MethodId) (span : Span) : Build NodeId := do
  let arg ← cast arg address true span
  let scaled ← insertAbove arg (.binary .mul) address
  let _ ← addNode scaled (.call size) address
  setNode n (.binary op) (.ref c)
  return n

def pointerTest (n receiver : NodeId) (c : ClassId) (name : String) (span : Span) :
    Build NodeId := do
  if name ≠ "!" && name ≠ "zero?" then
    inapplicable (.ref c) name span
  setTy receiver address
  setNode n (.unary .eqz) .i32
  return n

def pointerCompare (n receiver arg : NodeId) (op : Relation) (span : Span) :
    Build NodeId := do
  let _ ← cast receiver address false span
  let _ ← cast arg address false span
  setNode n (.compare op ValueType.pointer) .i32
  return n

def pointerArithmetic (n receiver arg : NodeId) (c : ClassId) (op : BinaryOp)
    (name : String) (span : Span) : Build NodeId := do
  let argTy ← tyOf arg
  let size ← sizeMethod c
  if op = .sub ∧ argTy.isRef then
    if argTy ≠ .ref c then throw (.pointerDifference (← describe (.ref c)) (← describe argTy) span)
    pointerDifference n receiver arg size
  else if !argTy.isInteger then inapplicable argTy name span
  else pointerMove n arg c op size span

def pointerOperator (n receiver : NodeId) (c : ClassId) (name : String)
    (args : List NodeId) (span : Span) : Build NodeId := do
  match args with
  | [] => pointerTest n receiver c name span
  | [arg] =>
    match Relation.ofName? name with
    | some op => pointerCompare n receiver arg op span
    | none =>
      match name with
      | "+" => pointerArithmetic n receiver arg c .add name span
      | "-" => pointerArithmetic n receiver arg c .sub name span
      | _ => inapplicable (.ref c) name span
  | args => throw (.argumentCount name 1 args.length span)

/- Turn a node whose children are a receiver and arguments into an operator. -/
def operator (n : NodeId) (name : String) (span : Span) : Build NodeId := do
  match ← childrenOf n with
  | [] => throw (.internal (.operatorReceiver name))
  | receiver :: args =>
    match ← tyOf receiver with
    | .ref c => pointerOperator n receiver c name args span
    | _ =>
      match args with
      | [] => unaryOperator n receiver name span
      | [arg] => binaryOperator n receiver arg name span
      | args => throw (.argumentCount name 1 args.length span)

/- Reduce the value of a node to a truth value. -/
def condition (n : NodeId) : Build NodeId := do
  match ← tyOf n with
  | .machine .i32 => return n
  | .ref _ =>
    setTy n .i32
    return n
  | .machine .i64 =>
    let test ← insertAbove n (.compare .ne .i64) .i32
    let _ ← addNode test (.const 0) .i64
    fold test
  | .machine _ => throw (.floatOperand "condition" (← spanOf n))
  | .none => throw (.blankCondition (← spanOf n))

end Build

end RubyWat
