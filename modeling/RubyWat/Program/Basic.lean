import RubyWat.Program.Class
import RubyWat.Program.Method
import RubyWat.Program.StaticData

/-
  The names a program declares.

  Classes, methods and globals are numbered in order of declaration.  Maps beside them lead from
  the path of a class, from the owner, the name and the scope of a method, and from the name of
  a global to its number.
-/

-- Programs

namespace RubyWat

structure Global where
  name : String
  ty : ValueType
  init : Int64
  mutable : Bool := true
  span : Span := .generated
deriving Inhabited

/- What an export makes visible. -/
inductive ExportTarget where
  | method (m : MethodId)
  | globalVar (g : GlobalId)
deriving DecidableEq

/- A name that the host can use. -/
structure Export where
  name : String
  target : ExportTarget

/-
  Everything that a program declares.  The maps are lists of keys
  and numbers, the latest key first.
-/
structure Program where
  classes : Array Class
  methods : Array Method := #[]
  globals : Array Global := #[]
  classByPath : List (String × ClassId) := []
  methodByName : List ((ClassId × String × MethodScope) × MethodId) := []
  globalByName : List (String × GlobalId) := []
  data : StaticData
  exports : List Export := []

/- The class of the root scope and the superclass of classes that name none. -/
def objectClass : ClassId :=
  ⟨0⟩

namespace Program

/- A program without declarations, its data from an address on. -/
def empty (dataBase : Nat) : Program :=
  { classes :=
      #[{ name := "Object"
          path := "Object"
          kind := .cls
          finalized := true
          cachedAncestors := [objectClass] }]
    classByPath := [("Object", objectClass)]
    data := { cursor := dataBase } }

instance : Inhabited Program :=
  ⟨empty 0⟩

-- Access

def cls (p : Program) (c : ClassId) : Class :=
  p.classes.getD c.index default

def method (p : Program) (m : MethodId) : Method :=
  p.methods.getD m.index default

def globalVar (p : Program) (g : GlobalId) : Global :=
  p.globals.getD g.index default

def classIds (p : Program) : List ClassId :=
  (List.range p.classes.size).map ClassId.mk

def methodIds (p : Program) : List MethodId :=
  (List.range p.methods.size).map MethodId.mk

def modifyClass (p : Program) (c : ClassId) (f : Class → Class) : Program :=
  { p with classes := p.classes.modify c.index f }

def modifyMethod (p : Program) (m : MethodId) (f : Method → Method) : Program :=
  { p with methods := p.methods.modify m.index f }

def modifyFlags (p : Program) (m : MethodId) (f : MethodFlags → MethodFlags) : Program :=
  p.modifyMethod m fun x => { x with flags := f x.flags }

def findClass? (p : Program) (path : String) : Option ClassId :=
  p.classByPath.lookup path

def findGlobal? (p : Program) (name : String) : Option GlobalId :=
  p.globalByName.lookup name

def ownMethod? (p : Program) (c : ClassId) (name : String) (scope : MethodScope) :
    Option MethodId :=
  p.methodByName.lookup (c, name, scope)

-- Names In Words

def classPath (p : Program) (c : ClassId) : String :=
  (p.cls c).path

def describe (p : Program) (ty : ValueType) : String :=
  ty.describe p.classPath

/- The identifier of a method in emitted code. -/
def methodName (p : Program) (m : MethodId) : String :=
  let x := p.method m
  p.classPath x.owner ++ x.scope.separator ++ mangle x.name

def describeMethod (p : Program) (m : MethodId) : String :=
  let x := p.method m
  p.classPath x.owner ++ x.scope.separator ++ x.name

def defaultExportName (p : Program) (m : MethodId) : String :=
  let x := p.method m
  x.name ++ "_" ++ x.scope.letter ++ "_" ++ (p.cls x.owner).exportPath

def functionHeader (p : Program) (m : MethodId) : String :=
  let x := p.method m
  "$" ++ p.methodName m ++ x.signature ++ x.localDeclarations

def layoutValue (p : Program) : Code.Layout → Nat
  | .size c => (p.cls c).size
  | .offset c slot => (p.cls c).fieldOffset slot

end Program

end RubyWat
