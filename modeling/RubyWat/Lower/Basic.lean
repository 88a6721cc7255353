import RubyWat.Compile.Definition
import RubyWat.Compile.Variable
import RubyWat.Units.Loader

/-
  From syntax to code: the state, and how productions go on.

  A production puts the code of a construct below a node of the code tree and gives the node
  that now stands for it, or none if there is no code.  A compound construct first puts an empty
  node, then the code of its parts into it, and then turns it into what it is.
-/

-- State

namespace RubyWat

open Dump

open Code (NodeId)

/- An export that waits for the next method or global. -/
structure PendingExport where
  name : Option String
  span : Span

/-
  The state of a compilation from syntax.  `asking` is the file
  of the unit that is being compiled.
-/
structure LowerState where
  ctx : Context
  loader : Loader
  pending : Option PendingExport := none
  asking : Option String := none

/- A step of a compilation from syntax. -/
abbrev Lower :=
  EStateM Failure LowerState

namespace Lower

def build {α : Type} (step : Build α) : Lower α := fun
  | ⟨ctx, loader, pending, asking⟩ =>
    match step ctx with
    | .ok a ctx => .ok a ⟨ctx, loader, pending, asking⟩
    | .error fault ctx => .error ⟨fault, none⟩ ⟨ctx, loader, pending, asking⟩

def load {α : Type} (step : Load α) : Lower α := fun
  | ⟨ctx, loader, pending, asking⟩ =>
    match step loader with
    | .ok a loader => .ok a ⟨ctx, loader, pending, asking⟩
    | .error failure loader => .error failure ⟨ctx, loader, pending, asking⟩

def refuse {α : Type} (fault : Fault) : Lower α :=
  throw ⟨fault, none⟩

/- What a syntax node has to hold. -/
def need {α : Type} (found : Except Malformed α) : Lower α :=
  match found with
  | .ok a => pure a
  | .error error => refuse (.malformed error)

instance : MonadLift Build Lower :=
  ⟨build⟩

instance : MonadLift Load Lower :=
  ⟨load⟩

instance : MonadLift (Except Malformed) Lower :=
  ⟨need⟩

def context : Lower Context :=
  return (← get).ctx

def program : Lower Program :=
  return (← get).ctx.program

/- Attribute a failure to a unit, unless it belongs to one already. -/
def inUnit {α : Type} (name : String) (step : Lower α) : Lower α := fun s =>
  match step s with
  | .ok a s => .ok a s
  | .error failure s => .error (failure.inFile name) s

-- Descent

/-
  How productions go on: into a part of the construct, with or
  without keeping its value, and into another unit.
-/
structure Descent where
  node : NodeId → Node → Bool → Lower (Option NodeId)
  unit : SourceUnit → Lower Unit

/- The code of a part whose value is needed. -/
def value (d : Descent) (parent : NodeId) (node : Node) : Lower NodeId := do
  match ← d.node parent node true with
  | some n =>
    if (← Build.tyOf n).isNone then refuse (.blankValue node.tag node.span)
    return n
  | none => refuse (.blankValue node.tag node.span)

def values (d : Descent) (parent : NodeId) : List Node → Lower Unit
  | [] => pure ()
  | node :: nodes => do
      let _ ← value d parent node
      values d parent nodes

/- The code of statements, of which the last may be kept. -/
def statements (d : Descent) (parent : NodeId) (keep : Bool) :
    List Node → Lower (Option NodeId)
  | [] => return none
  | [node] => d.node parent node keep
  | node :: nodes => do
      let _ ← d.node parent node false
      statements d parent keep nodes

/- An empty node that will become an instruction. -/
def placeholder (parent : NodeId) (span : Span) : Lower NodeId :=
  Build.addNodeAt parent .nop .none span

-- Scopes

/- Executable code is only allowed inside of methods. -/
def requireMethodScope (parent : NodeId) (node : Node) : Lower Unit := do
  let ctx ← context
  if (ctx.methodOf? parent).isNone then
    refuse (.statementScope node.tag (ctx.describeScope parent) node.span)

/- The class that a path stands for inside of a class. -/
def classPath (path : ConstPath) (lexical : ClassId) (span : Span) : Lower ClassId := do
  match (← program).resolveClass? path lexical with
  | some c => return c
  | none => refuse (.unknownClass ("::".intercalate path.segments) span)

def classReference (parent : NodeId) (node : Node) : Lower ClassId := do
  match node.constPath? with
  | none => refuse (.notConstantName node.tag node.span)
  | some path => classPath path ((← context).classOf parent) node.span

def constPath (node : Node) : Except Malformed ConstPath :=
  node.require .constantPath node.constPath?

/- A name without the signs that tell its kind. -/
def bareName (name : String) : String :=
  String.ofList (name.toList.dropWhile fun c => c == '@' || c == '$')

end Lower

end RubyWat
