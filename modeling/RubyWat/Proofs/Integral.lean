import RubyWat.Machine.Value
import RubyWat.Proofs.Origin

/-
  Methods that compute with integers in local variables.

  Key definitions: `Integral.Expr`, `Integral.read`, `Integral.typeOf`, `Integral.run`,
    `Integral.Method.call`.

  This is a part of the source language with a meaning of its own.  Values are integers of two
  widths.  Operands of different widths meet at the wider one, with their signs, and arithmetic
  wraps around there.  A variable has the width of the value that is first assigned to it in the
  text, and starts as zero.  Only loops need fuel.
-/

-- Widths

namespace RubyWat.Integral

open Machine Translation Lower Dump Wasm

/- The two widths of integers. -/
inductive Width where
  | narrow
  | wide
deriving DecidableEq

namespace Width

/- The number of bits. -/
def bits : Width → Nat
  | narrow => 32
  | wide => 64

/- The machine type of integers of a width. -/
def machine : Width → MachineType
  | narrow => .i32
  | wide => .i64

/- The type of integers of a width. -/
def type (w : Width) : ValueType :=
  .machine w.machine

/- The width at which two widths meet. -/
def join : Width → Width → Width
  | narrow, narrow => narrow
  | _, _ => wide

/- The value of a width that has the low bits of an integer. -/
def value : Width → Int64 → Value
  | narrow, raw => .i32 raw.toInt32
  | wide, raw => .i64 raw

/- Literals are narrow if they can be. -/
def ofLiteral (raw : Int64) : Width :=
  if raw.toInt32.toInt64 = raw then narrow else wide

/- The width of integers of a machine type. -/
def ofMachine? : MachineType → Option Width
  | .i32 => some narrow
  | .i64 => some wide
  | .f32 | .f64 => none

/- The width that a type has by name. -/
def ofName? (name : String) : Option Width :=
  (MachineType.ofName? name).bind ofMachine?

end Width

def widthOf : Value → Width
  | .i32 _ => .narrow
  | .i64 _ => .wide

def wordOf (w : Width) (v : Value) : BitVec w.bits :=
  cut w.bits v.toInt64

def ofWord (w : Width) (word : BitVec w.bits) : Value :=
  w.value (extendSigned word)

/- A value made to have a width, with its sign. -/
def resize (w : Width) (v : Value) : Value :=
  w.value v.toInt64

/- A value cast to a width, with or without its sign. -/
def castTo (w : Width) (signed : Bool) (v : Value) : Value :=
  match w with
  | .narrow => resize .narrow v
  | .wide => v.extend signed

-- Operators

/- Operators with two operands. -/
inductive Binary where
  | arith (op : BinaryOp)
  | relation (op : Relation)

namespace Binary

/- The operator that a method name stands for. -/
def ofName? (name : String) : Option Binary :=
  match BinaryOp.ofName? name with
  | some op => some (arith op)
  | none => (Relation.ofName? name).map relation

/- The width of the result, given those of the operands. -/
def width (op : Binary) (a b : Width) : Width :=
  match op with
  | arith _ => a.join b
  | relation _ => .narrow

/- The result for two values, unless a division has none. -/
def apply (op : Binary) (a b : Value) : Option Value :=
  match op with
  | arith op =>
    let w := (widthOf a).join (widthOf b)
    (op.eval (wordOf w a) (wordOf w b)).map (ofWord w)
  | relation op => some (.ofBool (op.holds a.toInt64 b.toInt64))

end Binary

/- Operators with one operand. -/
inductive Unary where
  | minus
  | complement
  | native (op : UnaryOp)

namespace Unary

/- The operator that a method name stands for. -/
def ofName? : String → Option Unary
  | "-@" => some minus
  | "~" => some complement
  | "!" => some (native .eqz)
  | name => (UnaryOp.ofName? name).map native

/- The width of the result, given that of the operand. -/
def width (op : Unary) (w : Width) : Width :=
  match op with
  | native .eqz => .narrow
  | _ => w

/- The result for a value. -/
def apply (op : Unary) (v : Value) : Value :=
  let w := widthOf v
  match op with
  | minus => ofWord w (-wordOf w v)
  | complement => ofWord w (~~~wordOf w v)
  | native op => (width (native op) w).value (Int64.ofNat (op.eval (wordOf w v)))

end Unary

-- Syntax

/-
  Expressions, of which some are statements because they have no
  value.  A loop runs while its condition has a truth value.
-/
inductive Expr where
  | skip
  | int (value : Int64)
  | bool (b : Bool)
  | get (x : String)
  | set (x : String) (e : Expr)
  | update (x : String) (op : Binary) (e : Expr)
  | unary (op : Unary) (e : Expr)
  | binary (op : Binary) (a b : Expr)
  | cast (w : Width) (signed : Bool) (e : Expr)
  | both (a b : Expr)
  | either (a b : Expr)
  | cond (test : Expr) (yes no : List Expr)
  | loop (truth : Bool) (test : Expr) (body : List Expr)
  | postLoop (truth : Bool) (test : Expr) (body : List Expr)
  | leave
  | again
  | ret
  | retWith (e : Expr)

/- The only one of some expressions. -/
def single? : List Expr → Option Expr
  | [e] => some e
  | _ => none

def widthNamed? (node : Node) : Option Width :=
  (typeText? node).bind Width.ofName?

/- The name of a local variable at a place. -/
def localName? (node : Node) (index : Nat) : Option String := do
  let x ← (node.symbolAt index).toOption
  if bareName x = x then some x else none

/- A call on a value, from the receiver and the arguments. -/
def readSend (node : Node) (receiver : Expr) (args : List Expr) : Option Expr := do
  let name ← (node.symbolAt 1).toOption
  match node.nodesFrom 2 with
  | [] => return .unary (← Unary.ofName? name) receiver
  | [arg] =>
    if name = "cast_to" then
      return .cast (← widthNamed? arg) false receiver
    else return .binary (← Binary.ofName? name) receiver (← single? args)
  | [arg, flag] =>
    if name = "cast_to" ∧ flag.symbolLiteral? = some "signed" then
      return .cast (← widthNamed? arg) true receiver
    else none
  | _ => none

/-
  What a node says, if what it holds says something.  A sequence says all that is in it, and one
  with nothing in it is a statement of its own.
-/
def readFrom (node : Node) (parts : List (Option (List Expr))) : Option (List Expr) := do
  let part (index : Nat) : Option (List Expr) := parts.getD index (some [])
  let value (index : Nat) : Option Expr := (part index).bind single?
  match node.tag with
  | .begin | .kwbegin =>
    let es ← parts.mapM id
    return if es.flatten.isEmpty then [.skip] else es.flatten
  | .int => return [.int (← (node.intAt 0).toOption)]
  | .trueLit => return [.bool true]
  | .falseLit => return [.bool false]
  | .getLocal => return [.get (← (node.symbolAt 0).toOption)]
  | .setLocal => return [.set (← localName? node 0) (← value 1)]
  | .opAssign =>
    let target ← node.node? 0
    if target.tag = .setLocal then
      let x ← localName? target 0
      let op ← Binary.ofName? (← (node.symbolAt 1).toOption)
      return [.update x op (← value 2)]
    else none
  | .send =>
    let args := ((parts.drop 2).mapM id).getD []
    return [← readSend node (← value 0) args.flatten]
  | .negation => return [.unary (.native .eqz) (← value 0)]
  | .conj => return [.both (← value 0) (← value 1)]
  | .disj => return [.either (← value 0) (← value 1)]
  | .cond => return [.cond (← value 0) (← part 1) (← part 2)]
  | .whileLoop => return [.loop true (← value 0) (← part 1)]
  | .untilLoop => return [.loop false (← value 0) (← part 1)]
  | .whilePost => return [.postLoop true (← value 0) (← part 1)]
  | .untilPost => return [.postLoop false (← value 0) (← part 1)]
  | .breakLoop => return [.leave]
  | .nextLoop => return [.again]
  | .ret =>
    match node.nodes with
    | [] => return [.ret]
    | _ =>
      let es ← parts.mapM id
      return [.retWith (← single? es.flatten)]
  | _ => none

/- The statements that a node stands for. -/
def read (node : Node) : Option (List Expr) :=
  node.fold readFrom (some [])

/- The statements that several nodes stand for. -/
def readAll (nodes : List Node) : Option (List Expr) :=
  (nodes.mapM read).map List.flatten

-- Types

/- Variables with their widths, in the order of declaration. -/
abbrev Scope :=
  List (String × Width)

/- The width of a value that comes from one of two arms. -/
def joinArms : Option Width → Option Width → Option Width
  | some a, some b => some (a.join b)
  | some a, none => some a
  | none, b => b

mutual

/- The width of the value of an expression, if it has one. -/
def typeOf (Γ : Scope) : Expr → Option Width
  | .int value => some (.ofLiteral value)
  | .bool _ | .both _ _ | .either _ _ => some .narrow
  | .get x | .set x _ | .update x _ _ => Γ.lookup x
  | .unary op e => (typeOf Γ e).map op.width
  | .binary op a b => do return op.width (← typeOf Γ a) (← typeOf Γ b)
  | .cast w _ _ => some w
  | .cond _ yes no => joinArms (lastType Γ yes) (lastType Γ no)
  | .skip | .loop _ _ _ | .postLoop _ _ _ | .leave | .again | .ret
  | .retWith _ => none

/- The width of the value of the last statement. -/
def lastType (Γ : Scope) : List Expr → Option Width
  | [] => none
  | [e] => typeOf Γ e
  | _ :: e :: es => lastType Γ (e :: es)

end

mutual

/- The assignments in an expression, as they are written. -/
def assigned : Expr → List (String × Expr)
  | .skip | .int _ | .bool _ | .get _ | .leave | .again | .ret => []
  | .set x e => assigned e ++ [(x, e)]
  | .update _ _ e | .unary _ e | .cast _ _ e | .retWith e => assigned e
  | .binary _ a b | .both a b | .either a b => assigned a ++ assigned b
  | .cond test yes no => assigned test ++ (assignedIn yes ++ assignedIn no)
  | .loop _ test body => assigned test ++ assignedIn body
  | .postLoop _ test body => assignedIn body ++ assigned test

def assignedIn : List Expr → List (String × Expr)
  | [] => []
  | e :: es => assigned e ++ assignedIn es

end

theorem assigned_set (x : String) (e : Expr) : assigned (.set x e) = assigned e ++ [(x, e)] := by
  rw [assigned]

theorem assignedIn_append (es es' : List Expr) :
    assignedIn (es ++ es') = assignedIn es ++ assignedIn es' := by
  induction es with
  | nil => simp [assignedIn]
  | cons e es ih => simp [assignedIn, ih]

/- The first assignment to a variable declares it. -/
def declare (Γ : Scope) (assignment : String × Expr) : Scope :=
  if (Γ.lookup assignment.1).isSome then Γ
  else Γ ++ [(assignment.1, (typeOf Γ assignment.2).getD .narrow)]

-- Meaning

/- Why a program stops. -/
inductive Fault where
  | divisionByZero
  | unread (x : String)
  | unwritten (x : String)
  | noValue
  | noLoop
  | noResult
deriving DecidableEq

/- How statements are left early. -/
inductive Jump where
  | leave
  | again
  | ret (v : Option Value)
  | fault (f : Fault)
  | timeout
deriving DecidableEq

/- A computation with variables. -/
abbrev Run :=
  EStateM Jump Slots

/- The value of a variable. -/
def readVar (x : String) : Run Value := do
  match (← get).lookup x with
  | some v => return v
  | none => throw (.fault (.unread x))

/- Assign to a variable, which keeps its width. -/
def writeVar (x : String) (v : Value) : Run Unit := do
  match (← get).assign? x v with
  | some frame => set frame
  | none => throw (.fault (.unwritten x))

/- A value that has to be there. -/
def need (v : Option Value) : Run Value :=
  match v with
  | some v => return v
  | none => throw (.fault .noValue)

/- The result of a division that may have none. -/
def divided (v : Option Value) : Run Value :=
  match v with
  | some v => return v
  | none => throw (.fault .divisionByZero)

/- A value as the result of an arm, which is zero without one. -/
def settle (w : Option Width) (v : Option Value) : Option Value :=
  w.map fun w => (v.map (resize w)).getD (w.value 0)

/- A value as the result of a method. -/
def finish (w : Option Width) (v : Option Value) : Option Value :=
  w.bind fun w => v.map (resize w)

/- Repeat rounds, each of which says whether to go on. -/
def rounds (round : Run Bool) : Nat → Run (Option Value)
  | 0 => throw .timeout
  | fuel + 1 => fun s =>
    match round s with
    | .ok true s | .error .again s => rounds round fuel s
    | .ok false s | .error .leave s => .ok none s
    | .error e s => .error e s

mutual

/- The meaning of an expression. -/
def run (Γ : Scope) (result : Option Width) (fuel : Nat) : Expr → Run (Option Value)
  | .skip => return none
  | .int value => return some ((Width.ofLiteral value).value value)
  | .bool b => return some (.ofBool b)
  | .get x => some <$> readVar x
  | .set x e => do
      let v ← need (← run Γ result fuel e)
      writeVar x v
      some <$> readVar x
  | .update x op e => do
      let a ← readVar x
      let b ← need (← run Γ result fuel e)
      let v ← divided (op.apply a b)
      writeVar x v
      some <$> readVar x
  | .unary op e => do
      let v ← need (← run Γ result fuel e)
      return some (op.apply v)
  | .binary op a b => do
      let a ← need (← run Γ result fuel a)
      let b ← need (← run Γ result fuel b)
      some <$> divided (op.apply a b)
  | .cast w signed e => do
      let v ← need (← run Γ result fuel e)
      return some (castTo w signed v)
  | .both a b => do
      let a ← need (← run Γ result fuel a)
      if a.isTrue then
        let b ← need (← run Γ result fuel b)
        return some (.ofBool b.isTrue)
      else return some (.ofBool false)
  | .either a b => do
      let a ← need (← run Γ result fuel a)
      if a.isTrue then return some (.ofBool true)
      else
        let b ← need (← run Γ result fuel b)
        return some (.ofBool b.isTrue)
  | .cond test yes no => do
      let c ← need (← run Γ result fuel test)
      let v ← if c.isTrue then runAll Γ result fuel yes
        else runAll Γ result fuel no
      return settle (joinArms (lastType Γ yes) (lastType Γ no)) v
  | .loop truth test body =>
    rounds (do
      let c ← need (← run Γ result fuel test)
      if c.isTrue = truth then
        let _ ← runAll Γ result fuel body
        return true
      else return false) fuel
  | .postLoop truth test body =>
    rounds (do
      let _ ← runAll Γ result fuel body
      let c ← need (← run Γ result fuel test)
      return c.isTrue == truth) fuel
  | .leave => throw .leave
  | .again => throw .again
  | .ret => throw (.ret none)
  | .retWith e => do
      let v ← need (← run Γ result fuel e)
      throw (.ret (finish result (some v)))

/- The meaning of statements, with the value of the last. -/
def runAll (Γ : Scope) (result : Option Width) (fuel : Nat) : List Expr → Run (Option Value)
  | [] => return none
  | [e] => run Γ result fuel e
  | e :: e' :: es => do
      let _ ← run Γ result fuel e
      runAll Γ result fuel (e' :: es)

end

-- Methods

/- A method: its parameters, what it gives and whether it says so, and its statements. -/
structure Method where
  params : Scope
  result : Option Width := some .narrow
  saysResult : Bool := false
  body : List Expr

/- How the calls of a method end. -/
inductive Outcome where
  | value (v : Option Value)
  | fault (f : Fault)
  | timeout
deriving DecidableEq

namespace Method

/- All variables of a method. -/
def scope (m : Method) : Scope :=
  (assignedIn m.body).foldl declare m.params

/-
  The variables at the start.  Parameters have the values of the
  arguments, as far as there are any.
-/
def frame (m : Method) (args : List Value) : Slots :=
  m.params.zipWith (fun (x, w) v => (x, resize w v)) args
    ++ (m.scope.drop m.params.length).map fun (x, w) => (x, w.value 0)

/- The end of a call with a value, which has to be there. -/
def deliver (m : Method) (v : Option Value) : Outcome :=
  match m.result, v with
  | none, _ => .value none
  | some w, some v => .value (some (resize w v))
  | some _, none => .fault .noResult

/- The end of a call from the end of the statements. -/
def outcome (m : Method) : EStateM.Result Jump Slots (Option Value) → Outcome
  | .ok v _ | .error (.ret v) _ => m.deliver v
  | .error (.fault f) _ => .fault f
  | .error .leave _ | .error .again _ => .fault .noLoop
  | .error .timeout _ => .timeout

def call (m : Method) (fuel : Nat) (args : List Value) : Outcome :=
  m.outcome (runAll m.scope m.result fuel m.body (m.frame args))

end Method

/- What directives at the head of a method declare. -/
inductive Header where
  | params (typed : List (String × Width))
  | result (w : Option Width)

/- The name of a directive without a receiver. -/
def directive? (node : Node) : Option String :=
  match node.tag, node.items with
  | .send, .nil :: _ => (node.symbolAt 1).toOption
  | _, _ => none

/- Whether a statement belongs to the head of a method. -/
def isHeader (node : Node) : Bool :=
  directive? node = some "arg" || directive? node = some "result"

/- What a method gives that names a type.  A reference to an object is a narrow integer. -/
def resultNamed? (node : Node) : Option (Option Width) := do
  let name ← typeText? node
  match MachineType.ofName? name with
  | some ty => some <$> Width.ofMachine? ty
  | none =>
    if name = "none" ∨ name = "None" ∨ name = "nil" then
      some none
    else some (some .narrow)

/- What a statement at the head of a method declares. -/
def readHeader (node : Node) : Option Header := do
  match node.nodesFrom 2 with
  | [arg] =>
    if directive? node = some "arg" then
      let pairs ← arg.pairs?
      let typed ← pairs.mapM fun (x, ty) => (widthNamed? ty).map (x, ·)
      return .params typed
    else return .result (← resultNamed? arg)
  | _ => none

/- Give a parameter a width. -/
def typeParam (Γ : Scope) (typed : String × Width) : Scope :=
  Γ.map fun (x, w) => if x = typed.1 then typed else (x, w)

/- A method after a declaration at its head. -/
def Method.headed (m : Method) : Header → Method
  | .params typed => { m with params := typed.foldl typeParam m.params }
  | .result w => { m with result := w, saysResult := true }

/-
  The method that the parts of a definition stand for, if it
  computes with integers in local variables only.
-/
def Method.read? (parts : MethodParts) : Option Method := do
  let names ← parts.params.nodes.mapM fun node => (node.symbolAt 0).toOption
  let statements := statementsOf parts.body
  let headers ← (statements.takeWhile isHeader).mapM readHeader
  let body ← readAll (statements.dropWhile isHeader)
  return headers.foldl headed { params := names.map fun x => (x, .narrow), body }

end RubyWat.Integral
