import RubyWat.Lower.Argument

/-
  Values known at compile time.

  Declarations take literals, constants and classes declared before, operators and casts on
  them, and the addresses of labels in static data.
-/

-- Operators On Constants

namespace RubyWat

open Dump Wasm

/- A constant made to have another type. -/
def castConstant (value : Int64) (source target : ValueType) (signed : Bool) (span : Span) :
    Except Fault ConstValue :=
  let low := cut 32 value
  match target with
  | .machine .f32 | .machine .f64 => .error (.floatConstant span)
  | .none => .error (.blankConstant span)
  | .machine .i64 =>
    if source = .i64 ∨ signed then .ok (.int value target)
    else .ok (.int (extendUnsigned low) target)
  | _ => .ok (.int (extendSigned low) target)

/- The value of an operator on one constant, and its type. -/
def unaryConstant? (name : String) (value : Int64) (ty : ValueType) : Option ConstValue := do
  let machine ← ty.machine?
  let result ←
    match name with
    | "-@" => BinaryOp.sub.apply machine 0 value
    | "~" => BinaryOp.xor.apply machine value (-1)
    | "!" => some (if value == 0 then 1 else 0)
    | name => do (← UnaryOp.ofName? name).apply machine value
  return .int result (if name = "!" ∨ name = "zero?" then .i32 else ty)

def divides : BinaryOp → Bool
  | .div | .rem => true
  | _ => false

/-
  The value of an operator on two constants of one leading type.  There is none when the type
  has no arithmetic or the name is no operator.
-/
def binaryConstant (name : String) (left right : Int64) (leading : ValueType) (node : Node) :
    Except Fault ConstValue :=
  let refused := Fault.notConstant node.tag node.span
  match leading.machine? with
  | none => .error refused
  | some machine =>
    match Relation.ofName? name, BinaryOp.ofName? name with
    | some op, _ => .ok (.int (op.apply left right) .i32)
    | none, some op =>
      if divides op && right == 0 then .error (.constantDivision node.span)
      else
        match op.apply machine left right with
        | some value => .ok (.int value leading)
        | none => .error refused
    | none, none => .error refused

-- Evaluation

namespace Lower

def notConstant {α : Type} (node : Node) : Lower α :=
  refuse (.notConstant node.tag node.span)

def settle {α : Type} (result : Except Fault α) : Lower α :=
  match result with
  | .ok a => pure a
  | .error fault => refuse fault

/- The value of a constant that has to be a number. -/
def integerOf (node : Node) : ConstValue → Lower (Int64 × ValueType)
  | .int value ty => return (value, ty)
  | .cls _ => refuse (.classArithmetic node.span)

/- The address of a label, as a constant. -/
def labelConstant (name : String) (args : List Node) (node : Node) :
    Lower ConstValue := do
  match name, args with
  | "[]", [label] =>
    let address ← labelAddress (← dataLabel label) node.span
    return .int (Int64.ofNat address) .i32
  | _, _ => notConstant node

/- An operator or a cast on constants.  The way into its operands is given. -/
def constantSend (operand : Node → Lower ConstValue) (scope : Code.NodeId) (node : Node) :
    Lower ConstValue := do
  let name ← node.symbolAt 1
  let args := node.nodesFrom 2
  match node.node? 0 with
  | none => notConstant node
  | some receiver =>
    if isDataRegistry receiver then labelConstant name args node
    else
      let (left, ty) ← integerOf receiver (← operand receiver)
      if name = "cast_to" then
        let (target, signed) ← castArguments args node.span
        let target ← typeArgument scope target
        settle (castConstant left ty target signed node.span)
      else
        match args with
        | [] =>
          match unaryConstant? name left ty with
          | some value => return value
          | none => notConstant node
        | [arg] =>
          let (right, argTy) ← integerOf arg (← operand arg)
          let leading := (ValueType.leading? [ty, argTy]).getD ty
          settle (binaryConstant name left right leading node)
        | _ => notConstant node

/- The value of a node of at most a certain height. -/
def evaluate : Nat → Code.NodeId → Node → Lower ConstValue
  | 0, _, _ => refuse (.internal .nodeHeight)
  | fuel + 1, scope, node => do
      match node.tag with
      | .int =>
        let value ← node.intAt 0
        return .int value (literalType value)
      | .str =>
        let address ← Build.stringAddress (← node.strAt 0)
        return .int (Int64.ofNat address) .i32
      | .trueLit => return .int 1 .i32
      | .falseLit => return .int 0 .i32
      | .const =>
        let path ← constPath node
        Build.constValue scope path node.span
      | .begin =>
        match node.nodes with
        | [inner] => evaluate fuel scope inner
        | _ => notConstant node
      | .send => constantSend (evaluate fuel scope) scope node
      | _ => notConstant node

def constant (scope : Code.NodeId) (node : Node) : Lower ConstValue :=
  evaluate node.height scope node

end Lower

end RubyWat
