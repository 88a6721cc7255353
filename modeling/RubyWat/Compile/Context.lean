import RubyWat.Code.Tree
import RubyWat.Program.Declare

/-
  The state of a compilation and the scopes in it.

  A compilation grows a code tree and a table of names.  The scope of a piece of code is not
  kept anywhere: it is the innermost method or class above it in the tree.  A step that fails
  leaves the state as it was at the failure.
-/

-- Contexts

namespace RubyWat

open Code

/-
  Options of a compilation: the least number of memory pages, whether the host sees the memory,
  the class method that provides memory for objects, where static data begins, and whether
  operators on literals are computed at once.
-/
structure Options where
  memoryPages : Nat := 1
  exportMemory : Bool := true
  allocatorClass : String := "Object"
  allocatorMethod : String := "allocate"
  dataBase : Nat := 0
  foldConstants : Bool := true
deriving DecidableEq

instance : Inhabited Options :=
  ⟨{}⟩

/- Everything that a compilation has gathered so far. -/
structure Context where
  program : Program
  tree : Tree := .empty
  options : Options := {}
  warnings : List Fault := []
  strings : Nat := 0

namespace Context

def initial (options : Options) : Context :=
  { program := .empty options.dataBase, options }

instance : Inhabited Context :=
  ⟨initial {}⟩

end Context

/- A step of a compilation. -/
abbrev Build :=
  EStateM Fault Context

-- Scopes

/- Where a piece of code stands. -/
inductive Scope where
  | root
  | inClass (c : ClassId)
  | inMethod (m : MethodId)
deriving DecidableEq

/- The scope that an instruction opens. -/
def Scope.ofInstr? : Instr → Option Scope
  | .function m => some (.inMethod m)
  | .classBody c => some (.inClass c)
  | _ => none

namespace Context

/- The innermost method or class around a node. -/
def scopeOf (ctx : Context) (n : NodeId) : Scope :=
  ((ctx.tree.lineage n).findSome? fun a => Scope.ofInstr? (ctx.tree.instr a)).getD .root

/- The class in which names are looked up from a node. -/
def classOf (ctx : Context) (n : NodeId) : ClassId :=
  match ctx.scopeOf n with
  | .root => objectClass
  | .inClass c => c
  | .inMethod m => (ctx.program.method m).owner

def methodOf? (ctx : Context) (n : NodeId) : Option MethodId :=
  match ctx.scopeOf n with
  | .inMethod m => some m
  | _ => none

def describeScope (ctx : Context) (n : NodeId) : String :=
  match ctx.scopeOf n with
  | .root => "the root scope"
  | .inClass c =>
    (ctx.program.cls c).kind.keyword ++ " `"
      ++ ctx.program.classPath c ++ "`"
  | .inMethod m => "method `" ++ ctx.program.describeMethod m ++ "`"

end Context

-- Steps

namespace Build

def tree : Build Tree :=
  return (← get).tree

def program : Build Program :=
  return (← get).program

def modifyTree (f : Tree → Tree) : Build Unit :=
  modify fun ctx => { ctx with tree := f ctx.tree }

def modifyProgram (f : Program → Program) : Build Unit :=
  modify fun ctx => { ctx with program := f ctx.program }

def modifyMethod (m : MethodId) (f : Method → Method) : Build Unit :=
  modifyProgram (·.modifyMethod m f)

def modifyFlags (m : MethodId) (f : MethodFlags → MethodFlags) : Build Unit :=
  modifyProgram (·.modifyFlags m f)

def editTree {α : Type} (f : Tree → α × Tree) : Build α :=
  modifyGet fun ctx =>
    let (a, tree) := f ctx.tree
    (a, { ctx with tree })

def declare {α : Type} (f : Program → α × Program) : Build α :=
  modifyGet fun ctx =>
    let (a, program) := f ctx.program
    (a, { ctx with program })

def tryDeclare {α : Type} (f : Program → Except Fault (α × Program)) : Build α := do
  match f (← program) with
  | .ok (a, program) =>
    modify fun ctx => { ctx with program }
    return a
  | .error fault => throw fault

def warn (w : Fault) : Build Unit :=
  modify fun ctx => { ctx with warnings := ctx.warnings ++ [w] }

/- A new node that hangs nowhere. -/
def createNode (instr : Instr) (ty : ValueType) : Build NodeId :=
  editTree (·.create instr ty)

def addNode (parent : NodeId) (instr : Instr) (ty : ValueType) : Build NodeId :=
  editTree (·.add parent instr ty)

def insertAbove (n : NodeId) (instr : Instr) (ty : ValueType) : Build NodeId :=
  editTree (·.insertAbove n instr ty)

def setNode (n : NodeId) (instr : Instr) (ty : ValueType) : Build Unit :=
  modifyTree fun t => (t.setInstr n instr).setTy n ty

def setTy (n : NodeId) (ty : ValueType) : Build Unit :=
  modifyTree (·.setTy n ty)

def setSpan (n : NodeId) (span : Span) : Build Unit :=
  modifyTree (·.setSpan n span)

def addNodeAt (parent : NodeId) (instr : Instr) (ty : ValueType) (span : Span) :
    Build NodeId := do
  let n ← addNode parent instr ty
  setSpan n span
  return n

def tyOf (n : NodeId) : Build ValueType :=
  return (← tree).ty n

def instrOf (n : NodeId) : Build Instr :=
  return (← tree).instr n

def spanOf (n : NodeId) : Build Span :=
  return (← tree).span n

def childrenOf (n : NodeId) : Build (List NodeId) :=
  return (← tree).children n

def describe (ty : ValueType) : Build String :=
  return (← program).describe ty

end Build

end RubyWat
