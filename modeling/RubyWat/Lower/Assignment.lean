import RubyWat.Lower.Directive

/- Operands and assignments. -/

-- Operands

namespace RubyWat.Lower

open Build Dump

open Code (NodeId)

/- The receiver of the instance method around a node. -/
def selfValue (parent : NodeId) (span : Span) : Build NodeId := do
  let ctx ← get
  match (ctx.methodOf? parent).map ctx.program.method with
  | some m =>
    if m.isInstance then addNodeAt parent selfGet (.ref m.owner) span
    else throw (.selfScope (ctx.describeScope parent) span)
  | none => throw (.selfScope (ctx.describeScope parent) span)

inductive VariableKind where
  | localVar
  | instanceVar
  | classVar
  | globalVar

def VariableKind.ofRead? : Tag → Option VariableKind
  | .getLocal => some localVar
  | .getIvar => some instanceVar
  | .getCvar => some classVar
  | .getGlobal => some globalVar
  | _ => none

def VariableKind.ofAssignment? : Tag → Option VariableKind
  | .setLocal => some localVar
  | .setIvar => some instanceVar
  | .setCvar => some classVar
  | .setGlobal => some globalVar
  | _ => none

/- Read a variable, its name as it is written. -/
def readVariable (kind : VariableKind) (parent : NodeId) (name : String) (span : Span) :
    Build NodeId :=
  match kind with
  | .localVar => localGet parent name span
  | .instanceVar => ivarGet parent (bareName name) span
  | .classVar => cvarGet parent (bareName name) span
  | .globalVar => globalGet parent (bareName name) span

/- Literals, variables, constants and the receiver. -/
def operand (parent : NodeId) (node : Node) : Lower NodeId := do
  let span := node.span
  match node.tag with
  | .int => intLiteral parent (← node.intAt 0) span
  | .str => stringLiteral parent (← node.strAt 0) span
  | .trueLit => intLiteral parent 1 span
  | .falseLit => intLiteral parent 0 span
  | .const => constGet parent (← constPath node) span
  | .selfRef => selfValue parent span
  | tag =>
    match VariableKind.ofRead? tag with
    | some kind => readVariable kind parent (← node.symbolAt 0) span
    | none => refuse (.internal (.operand tag))

def declareGlobal (name : String) (value : Int64) (ty : ValueType) (span : Span) : Lower Unit := do
  let g ← tryDeclare (·.declareGlobal name (if ty.isRef then .i32 else ty) value span)
  exportPending (.globalVar g)

/- An assignment outside of methods: the declaration of a class variable or of a global variable. -/
def staticDeclaration (parent : NodeId) (node : Node) (isGlobal : Bool) : Lower Unit := do
  let written ← node.symbolAt 0
  let valueNode ← node.nodeAt 1
  match ← constant parent valueNode with
  | .cls _ => refuse (.classInitializer written valueNode.span)
  | .int value ty =>
    if isGlobal then declareGlobal (bareName written) value ty node.span
    else cvarDeclare parent (bareName written) value ty node.span

-- Assignments

/- Turn a node that holds a value into an assignment of it. -/
def finishAssignment (slot : NodeId) (kind : VariableKind) (target : Node) (keep : Bool) :
    Lower NodeId := do
  let name := bareName (← target.symbolAt 0)
  match kind with
  | .localVar => localAssign slot name keep target.span
  | .instanceVar => ivarAssign slot name keep target.span
  | .classVar => cvarAssign slot name keep target.span
  | .globalVar => globalAssign slot name keep target.span

def assignValue (d : Descent) (parent : NodeId) (kind : VariableKind)
    (node : Node) (keep : Bool) : Lower NodeId := do
  match node.node? 1 with
  | none => refuse (.unsupported .emptyAssignment node.span)
  | some valueNode =>
    let slot ← placeholder parent node.span
    let _ ← value d slot valueNode
    finishAssignment slot kind node keep

def assignment (d : Descent) (parent : NodeId) (kind : VariableKind)
    (node : Node) (keep : Bool) : Lower (Option NodeId) := do
  let inMethod := ((← context).methodOf? parent).isSome
  match kind, inMethod with
  | .classVar, false =>
    staticDeclaration parent node false
    return none
  | .globalVar, false =>
    staticDeclaration parent node true
    return none
  | .instanceVar, _ =>
    let name := bareName (← node.symbolAt 0)
    let _ ← requireInstanceMethod parent name node.span
    some <$> assignValue d parent kind node keep
  | _, _ => some <$> assignValue d parent kind node keep

/-
  An assignment with an operator: the variable is read, the
  operator applied and the result stored back.
-/
def operatorAssignment (d : Descent) (parent : NodeId) (node : Node) (keep : Bool) :
    Lower NodeId := do
  let target ← node.nodeAt 0
  let operator ← node.symbolAt 1
  let argument ← node.nodeAt 2
  match VariableKind.ofAssignment? target.tag with
  | none => refuse (.unsupported (.assignmentTarget target.tag) target.span)
  | some kind =>
    let name ← target.symbolAt 0
    let slot ← placeholder parent node.span
    let apply ← placeholder slot node.span
    let _ ← readVariable kind apply name target.span
    let _ ← value d apply argument
    let _ ← applyMethod apply operator node.span
    finishAssignment slot kind target keep

end RubyWat.Lower
