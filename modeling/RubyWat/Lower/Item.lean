import RubyWat.Lower.Directive

/- Classes, modules, methods and constants. -/

-- Classes

namespace RubyWat.Lower

open Build Dump

open Code (NodeId)

def className (parent : NodeId) (node : Node) : Lower (ClassId × String) := do
  let nameNode ← node.nodeAt 0
  let shape : Malformed := ⟨node.tag, .constantName, nameNode.span⟩
  match nameNode.constPath? with
  | none => refuse (.malformed shape)
  | some path =>
    match path.segments.getLast? with
    | none => refuse (.malformed shape)
    | some name =>
      let here := (← context).classOf parent
      let outer := path.segments.dropLast
      if outer.isEmpty then return (if path.rooted then objectClass else here, name)
      else
        let c ← classPath ⟨outer, path.rooted⟩ here nameNode.span
        return (c, name)

def superclass (parent : NodeId) (node : Node) (kind : ClassKind) :
    Lower (Option ClassId) := do
  match kind, node.node? 1 with
  | .cls, some name => some <$> classReference parent name
  | _, _ => return none

/- Where the body of a class or a module stands. -/
def bodyIndex : ClassKind → Nat
  | .cls => 2
  | .mixin => 1

def classItem (d : Descent) (parent : NodeId) (node : Node) (kind : ClassKind) :
    Lower Unit := do
  let (lexical, name) ← className parent node
  let superclass ← superclass parent node kind
  let (c, body) ← beginClassIn parent lexical name kind superclass node.span
  match node.node? (bodyIndex kind) with
  | some content => let _ ← d.node body content false
  | none => pure ()
  finishClass c body

-- Methods

structure MethodParts where
  name : String
  params : Node
  body : Option Node

def methodParts (node : Node) : Lower MethodParts := do
  return ⟨← node.symbolAt 0, ← node.nodeAt 1, node.node? 2⟩

/- The parts of a method on the class itself. -/
def singletonParts (node : Node) : Lower MethodParts := do
  let target ← node.nodeAt 0
  if target.tag ≠ .selfRef then refuse (.unsupported .foreignSingleton target.span)
  return ⟨← node.symbolAt 1, ← node.nodeAt 2, node.node? 3⟩

/- The scope of a method.  In the root scope every method belongs to the class itself. -/
def definedScope (ctx : Context) (parent : NodeId) (singleton : Bool) : MethodScope :=
  if singleton || decide (ctx.scopeOf parent = .root) then .onClass
  else .onInstance

def parameters (m : MethodId) : List Node → Lower Unit
  | [] => pure ()
  | node :: nodes => do
      if node.tag = .param then
        methodParam m (← node.symbolAt 0) node.span
        parameters m nodes
      else refuse (.unsupported (.parameter node.tag) node.span)

def bodyStatements (body : Node) : List Node :=
  if body.tag = .begin then body.nodes else [body]

/-
  The code of a method body.  The last statement keeps its value unless the method gives
  nothing, which a directive before it may still decide.
-/
def methodBody (d : Descent) (m : MethodId) (function : NodeId) : List Node → Lower Unit
  | [] => pure ()
  | [node] => do
      let keep := !((← program).method m).result.isNone
      let _ ← d.node function node keep
  | node :: nodes => do
      let _ ← d.node function node false
      methodBody d m function nodes

/- The host provides a method, so it has no code of its own. -/
def checkImported (m : MethodId) (function : NodeId) (span : Span) : Build Unit := do
  let p ← Build.program
  if (p.method m).flags.imported
      && !(← Build.childrenOf function).isEmpty then
    throw (.importedBody (p.describeMethod m) span)

def methodItem (d : Descent) (parent : NodeId) (node : Node) (singleton : Bool) :
    Lower Unit := do
  let parts ← if singleton then singletonParts node else methodParts node
  let ctx ← context
  let scope := definedScope ctx parent singleton
  let (m, function) ← beginMethod parent (ctx.classOf parent) parts.name scope node.span
  exportPending (.method m)
  parameters m parts.params.nodes
  match parts.body with
  | some body => methodBody d m function (bodyStatements body)
  | none => pure ()
  checkImported m function node.span
  finishMethod m function

def constItem (parent : NodeId) (node : Node) : Lower Unit := do
  if !node.items.head?.any Item.isNil then refuse (.unsupported .foreignConstant node.span)
  let name ← node.symbolAt 1
  let value ← constant parent (← node.nodeAt 2)
  constDeclare parent name value node.span

end RubyWat.Lower
