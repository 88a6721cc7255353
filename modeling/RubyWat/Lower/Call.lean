import RubyWat.Lower.Constant

/-
  Calls, casts and uses of static data.

  What a call means depends on its receiver: none is the current class, a class or a module
  answers with its class methods, and any other value with its instance methods or as an
  operand. A method that is not known yet is declared, and has to be defined before the program
  ends.
-/

-- Methods Of Values

namespace RubyWat.Lower

open Build Dump

open Code (NodeId)

def isOperator (name : String) : Bool :=
  (Wasm.BinaryOp.ofName? name).isSome
    || (Wasm.Relation.ofName? name).isSome
    || (Wasm.UnaryOp.ofName? name).isSome
    || name == "-@" || name == "!" || name == "~"

/- Finish a call whose first operand is the receiver.  Methods of a class win over operators. -/
def applyMethod (call : NodeId) (name : String) (span : Span) : Build NodeId := do
  match (← Build.tree).firstChild? call with
  | none => throw (.internal (.callReceiver name))
  | some receiver =>
    match ← Build.tyOf receiver with
    | .ref c =>
      match (← Build.program).instanceMethod? c name with
      | some m => Build.call call m .inNode span
      | none =>
        if isOperator name then Build.operator call name span
        else
          let m ← Build.declare (·.declareMethod c name .onInstance span)
          Build.call call m .inNode span
    | _ => Build.operator call name span

-- Calls Without A Receiver

/- The receiver of a class method, by how it was found. -/
def classReceiver (viaExtend : Bool) : Receiver :=
  if viaExtend then .null else .absent

def forwardReceiver : MethodScope → Receiver
  | .onInstance => .current
  | .onClass => .absent

/- The method that a name stands for inside of a method. -/
def resolveSelfCall (c : ClassId) (scope : MethodScope) (name : String) (span : Span) :
    Build (MethodId × Receiver) := do
  let p ← Build.program
  let own := if scope = .onInstance then p.instanceMethod? c name else none
  match own, p.classMethod? c name with
  | some m, _ => return (m, .current)
  | none, some (m, viaExtend) => return (m, classReceiver viaExtend)
  | none, none =>
    let m ← Build.declare (·.declareMethod c name scope span)
    return (m, forwardReceiver scope)

def callWith (d : Descent) (parent : NodeId) (m : MethodId)
    (receiver : Receiver) (args : List Dump.Node) (span : Span) : Lower NodeId := do
  let call ← placeholder parent span
  values d call args
  Build.call call m receiver span

def selfCall (d : Descent) (parent : NodeId) (node : Node)
    (name : String) (args : List Node) : Lower NodeId := do
  let ctx ← context
  match ctx.methodOf? parent with
  | none => refuse (.callScope name (ctx.describeScope parent) node.span)
  | some current =>
    let x := ctx.program.method current
    let (m, receiver) ← resolveSelfCall x.owner x.scope name node.span
    callWith d parent m receiver args node.span

-- Calls On Classes

def namedClass (parent : NodeId) (receiver : Node) : Lower (Option ClassId) := do
  match receiver.tag with
  | .const =>
    let path ← constPath receiver
    match ← constValue parent path receiver.span with
    | .cls c => return some c
    | .int _ _ => return none
  | .selfRef =>
    let ctx ← context
    return ((ctx.methodOf? parent).map ctx.program.method).bind
      fun m => if m.isInstance then none else some m.owner
  | _ => return none

def constructor (c : ClassId) (span : Span) : Build MethodId := do
  let p ← Build.program
  if (p.cls c).isModule then throw (.moduleInstance (p.classPath c) span)
  match ← Build.newMethod c with
  | some m => return m
  | none =>
    match (← Build.program).ownMethod? c "new" .onClass with
    | some m => return m
    | none => throw (.internal .constructor)

def resolveClassCall (c : ClassId) (name : String) (span : Span) : Build (MethodId × Receiver) := do
  if name = "new" then
    return (← constructor c span, .absent)
  else
    match (← Build.program).classMethod? c name with
    | some (m, viaExtend) => return (m, classReceiver viaExtend)
    | none =>
      let m ← Build.declare (·.declareMethod c name .onClass span)
      return (m, .absent)

def classCall (d : Descent) (parent : NodeId) (node : Node)
    (c : ClassId) (name : String) (args : List Node) : Lower NodeId := do
  let (m, receiver) ← resolveClassCall c name node.span
  callWith d parent m receiver args node.span

def castCall (d : Descent) (parent : NodeId) (node receiver : Node)
    (args : List Node) : Lower NodeId := do
  let (ty, signed) ← castArguments args node.span
  let ty ← typeArgument parent ty
  let n ← value d parent receiver
  cast n ty signed node.span

def valueCall (d : Descent) (parent : NodeId) (node receiver : Node)
    (name : String) (args : List Node) : Lower NodeId := do
  let call ← placeholder parent node.span
  values d call (receiver :: args)
  applyMethod call name node.span

-- Static Data

/- A value in static data: text as it is written, or a number known at compile time. -/
def dataValue (parent : NodeId) (node : Node) : Lower DataValue := do
  if node.tag = .str then return .bytes (← node.strAt 0)
  else
    match ← constant parent node with
    | .int value ty => return .int ty.held value
    | .cls _ => badArguments dataRegistry "an integer or string value" node.span

/- An address known at compile time. -/
def dataAddress (parent : NodeId) (node : Node) (what : String) : Lower Nat := do
  match ← constant parent node with
  | .int value _ =>
    if 0 ≤ value.toInt ∧ value.toInt ≤ lastAddress then return value.toInt.toNat
    else
      badArguments (dataRegistry ++ "." ++ what)
        "a non-negative address" node.span
  | .cls _ => badArguments (dataRegistry ++ "." ++ what) "an integer" node.span

def changeData (f : StaticData → StaticData) : Build Unit :=
  modifyProgram fun p => { p with data := f p.data }

/- Change static data, which may fail. -/
def tryChangeData (f : StaticData → Except Fault StaticData) : Build Unit :=
  tryDeclare fun p => (f p.data).map fun data => ((), { p with data })

def dataAccess (parent : NodeId) (node : Node) (name : String) (args : List Node) :
    Lower (Option NodeId) := do
  match name, args with
  | "[]=", [label, content] =>
    let label ← dataLabel label
    let content ← dataValue parent content
    tryChangeData fun d => (d.declare label content node.span).map (·.2)
    return none
  | "append", [label, content] =>
    let label ← dataLabel label
    let content ← dataValue parent content
    changeData fun d => (d.place label content).2
    return none
  | "align", [n] =>
    let n ← dataAddress parent n "align"
    changeData (·.align n)
    return none
  | "address=", [target] =>
    let address ← dataAddress parent target "address="
    tryChangeData (·.setCursor address node.span)
    return none
  | "[]", [label] =>
    requireMethodScope parent node
    let label ← dataLabel label
    let address ← labelAddress label node.span
    some <$> intLiteral parent (Int64.ofNat address) node.span
  | "address", [] =>
    requireMethodScope parent node
    let address := (← program).data.cursor
    some <$> intLiteral parent (Int64.ofNat address) node.span
  | _, _ =>
    badArguments (dataRegistry ++ "." ++ name)
      "one of `[]=`, `append`, `[]`, `address=`, `address` or `align`"
      node.span

end RubyWat.Lower
