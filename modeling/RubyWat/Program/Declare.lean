import RubyWat.Program.Ancestry

/-
  Declarations: classes, variables, constants, methods and exports.

  A declaration that repeats an earlier one is accepted when it says the same and refused when
  it contradicts it.
-/

-- Classes

namespace RubyWat

namespace Program

def childPath (p : Program) (parent : ClassId) (name : String) : String :=
  if parent = objectClass then name
  else p.classPath parent ++ "::" ++ name

/- Open a class again, with the same kind and superclass. -/
def reopenClass (p : Program) (c : ClassId) (kind : ClassKind)
    (superclass : Option ClassId) (span : Span) : Except Fault Program :=
  let k := p.cls c
  if k.kind ≠ kind then .error (.kindMismatch k.path k.kind.keyword kind.keyword span k.span)
  else
    match superclass with
    | some s =>
      if k.superclass ≠ some s then .error (.superclassMismatch k.path (p.classPath s) span k.span)
      else .ok (p.modifyClass c fun k => { k with finalized := false })
    | none => .ok (p.modifyClass c fun k => { k with finalized := false })

/-
  Open a class or a module, creating it if its path is new.  An
  open class has no final resolution order.
-/
def defineClass (p : Program) (name : String) (lexical : ClassId) (kind : ClassKind)
    (superclass : Option ClassId) (span : Span) : Except Fault (ClassId × Program) :=
  let path := p.childPath lexical name
  match p.findClass? path with
  | some c => (p.reopenClass c kind superclass span).map (c, ·)
  | none =>
    let parent :=
      match kind with
      | .cls => some (superclass.getD objectClass)
      | .mixin => none
    let c : ClassId := ⟨p.classes.size⟩
    .ok (c,
      { p with
        classByPath := (path, c) :: p.classByPath
        classes := p.classes.push
          { name, path, kind, span
            lexicalParent := some lexical
            superclass := parent } })

-- Paths

def nested? (p : Program) (parent : ClassId) (name : String) : Option ClassId :=
  match p.findClass? (p.childPath parent name) with
  | some c => some c
  | none =>
    match (p.cls parent).const? name with
    | some (.cls c) => some c
    | _ => none

/- At most `fuel` classes on the way out of a class. -/
def outward (p : Program) : Nat → Option ClassId → List ClassId
  | 0, _ => []
  | _, none => []
  | fuel + 1, some c => c :: outward p fuel (p.cls c).lexicalParent

/- A class and those around it, ending with the root scope. -/
def lexicalChain (p : Program) (c : ClassId) : List ClassId :=
  let chain := p.outward (p.classes.size + 1) (some c)
  if chain.getLast? = some objectClass then chain
  else chain ++ [objectClass]

/- Where a name is searched from inside a class. -/
def searchScopes (p : Program) (c : ClassId) : List ClassId :=
  p.lexicalChain c ++ p.ancestors c

/- Follow a path of names from a class inward. -/
def descend? (p : Program) : ClassId → List String → Option ClassId
  | c, [] => some c
  | c, name :: rest =>
    match p.nested? c name with
    | some d => descend? p d rest
    | none => none

/- The class that a path stands for inside a class. -/
def resolveClass? (p : Program) (path : Dump.ConstPath) (lexical : ClassId) : Option ClassId :=
  match path.segments with
  | [] => none
  | first :: rest =>
    let start :=
      if path.rooted then p.nested? objectClass first
      else (p.searchScopes lexical).findSome? (p.nested? · first)
    start.bind (p.descend? · rest)

/- What a name stands for in a class itself. -/
def ownConst? (p : Program) (name : String) (c : ClassId) : Option ConstValue :=
  ((p.cls c).const? name).or ((p.nested? c name).map .cls)

/- The classes that a constant path is searched in. -/
def constOwners? (p : Program) (outer : List String) (rooted : Bool) (lexical : ClassId) :
    Option (List ClassId) :=
  if outer.isEmpty then some (if rooted then [objectClass] else p.searchScopes lexical)
  else (p.resolveClass? ⟨outer, rooted⟩ lexical).map p.ancestors

/- What a constant path stands for inside a class. -/
def findConst? (p : Program) (path : Dump.ConstPath) (lexical : ClassId) : Option ConstValue :=
  match path.segments.getLast? with
  | none => none
  | some name =>
    (p.constOwners? path.segments.dropLast path.rooted lexical).bind
      (·.findSome? (p.ownConst? name))

end Program

-- Type Names

def stripRoot : List Char → Bool × List Char
  | ':' :: ':' :: cs => (true, (stripRoot cs).2)
  | cs => (false, cs)

def splitPath : List Char → List (List Char)
  | [] => [[]]
  | ':' :: ':' :: cs => [] :: splitPath cs
  | c :: cs =>
    match splitPath cs with
    | [] => [[c]]
    | part :: parts => (c :: part) :: parts

namespace Program

def pathOfName (name : String) : Dump.ConstPath :=
  let (rooted, rest) := stripRoot name.toList
  ⟨(splitPath rest).map String.ofList, rooted⟩

def typeOfName? (p : Program) (name : String) (lexical : ClassId) : Option ValueType :=
  match Wasm.MachineType.ofName? name with
  | some ty => some (.machine ty)
  | none =>
    if name = "none" ∨ name = "None" ∨ name = "nil" then
      some .none
    else (p.resolveClass? (pathOfName name) lexical).map .ref

end Program

-- Variables And Constants

/- Whether a declaration added something. -/
inductive Declared where
  | added
  | unchanged
deriving DecidableEq

namespace Program

def declareIvar (p : Program) (c : ClassId) (name : String) (ty : ValueType) (fixed : Bool) :
    Nat × Program :=
  let (slot, k) := (p.cls c).declareIvar name ty fixed
  (slot, p.modifyClass c fun _ => k)

def cvarLabel (p : Program) (c : ClassId) (name : String) : String :=
  p.classPath c ++ "::@@" ++ name

def declareCvar (p : Program) (c : ClassId) (name : String) (value : Int64)
    (ty : ValueType) (span : Span) : Except Fault (Declared × Program) :=
  match (p.cls c).cvar? name with
  | some v =>
    if v.value = value ∧ v.ty = ty then .ok (.unchanged, p)
    else .error (.conflict .classVar name span)
  | none => do
      let (address, data) ← p.data.declare (p.cvarLabel c name) (.int ty.held value) span
      let p := { p with data }
      return (.added,
        p.modifyClass c fun k => { k with cvars := k.cvars ++ [⟨name, ty, address, value⟩] })

def findCvar? (p : Program) (c : ClassId) (name : String) : Option Cvar :=
  (p.superclasses c).findSome? fun c => (p.cls c).cvar? name

def declareConst (p : Program) (c : ClassId) (name : String) (value : ConstValue) (span : Span) :
    Except Fault (Declared × Program) :=
  match (p.cls c).const? name with
  | some found =>
    if found = value then .ok (.unchanged, p)
    else .error (.conflict .constant name span)
  | none => .ok (.added, p.modifyClass c fun k => { k with consts := k.consts ++ [(name, value)] })

def declareGlobal (p : Program) (name : String) (ty : ValueType) (init : Int64) (span : Span) :
    Except Fault (GlobalId × Program) :=
  match p.findGlobal? name with
  | some g => .error (.globalRedeclared name span (p.globalVar g).span)
  | none =>
    let g : GlobalId := ⟨p.globals.size⟩
    .ok (g,
      { p with
        globals := p.globals.push { name, ty, init, span }
        globalByName := (name, g) :: p.globalByName })

/- The method of a class under a name, created if missing. -/
def declareMethod (p : Program) (c : ClassId) (name : String) (scope : MethodScope) (span : Span) :
    MethodId × Program :=
  match p.ownMethod? c name scope with
  | some m => (m, p)
  | none =>
    let m : MethodId := ⟨p.methods.size⟩
    (m,
      { p with
        methods := p.methods.push { name, scope, span, owner := c }
        methodByName := ((c, name, scope), m) :: p.methodByName })

/- Export something under a name that nothing else has. -/
def addExport (p : Program) (target : ExportTarget) (name : String) (span : Span) :
    Except Fault Program :=
  match p.exports.find? (·.name == name) with
  | some e =>
    if e.target = target then .ok p
    else .error (.exportTaken name span)
  | none => .ok { p with exports := p.exports ++ [⟨name, target⟩] }

end Program

end RubyWat
