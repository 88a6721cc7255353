import RubyWat.Report.Fault
import RubyWat.Units.Disk
import RubyWat.Units.Path

/-
  Finding and reading the units of a program.

  A unit is a syntax dump, held in memory or in a file.  Names are searched in memory first,
  then in the directories of the load path or next to the unit that asks.  No unit is read
  twice: a loader remembers the keys of those it has read.
-/

-- Loaders

namespace RubyWat

/- A unit that has been read, and the file it came from. -/
structure SourceUnit where
  name : String
  path : Option String
  root : Dump.Node

/-
  Where units are found, and which have been read.  A front
  end is a command that turns a source file into a dump.
-/
structure Loader where
  disk : Disk := {}
  loadPaths : List String := []
  frontend : Option String := none
  inMemory : List (String × String) := []
  loaded : List String := []
  sources : List (String × String) := []

namespace Loader

/- Hold a unit in memory, in place of one of the same name. -/
def addUnit (l : Loader) (name dump : String) : Loader :=
  { l with inMemory := (name, dump) :: l.inMemory }

def source? (l : Loader) (name : String) : Option String :=
  l.sources.lookup name

/- The unit in memory that a name stands for, with its key. -/
def findInMemory? (l : Loader) (name : String) : Option (String × String) :=
  [name, name ++ ".sexp", name ++ ".rb"].findSome? fun key =>
    (l.inMemory.lookup key).map (key, ·)

def searchDirectories (l : Loader) : List String :=
  l.loadPaths ++ ["."]

def directoryOf (asking : Option String) : String :=
  (asking.bind Path.parent?).getD "."

def directories (l : Loader) (asking : Option String) (relative : Bool) : List String :=
  if relative then [directoryOf asking] else l.searchDirectories

def candidates (l : Loader) (name directory : String) : List String :=
  let names :=
    [name, name ++ ".sexp"]
      ++ (if l.frontend.isSome then [name ++ ".rb"] else [])
  names.map (Path.join directory)

def resolve? (l : Loader) (name : String) (asking : Option String) (relative : Bool) :
    Option String :=
  ((l.directories asking relative).flatMap (l.candidates name)).find? l.disk.isFile

end Loader

-- Front Ends

/- What a front end leaves behind. -/
inductive FrontendResult where
  | notRun (fault : DiskFault)
  | failed (complaint : String)
  | printed (bytes : List UInt8)

namespace Loader

/- What `cat` says of a file that it cannot read. -/
def complaint? (l : Loader) (path : String) : Option String :=
  match l.disk.read path with
  | .ok _ => none
  | .error fault => some ("cat: " ++ path ++ ": " ++ fault.summary)

def printFiles (l : Loader) (paths : List String) : FrontendResult :=
  match paths.filterMap l.complaint? with
  | [] => .printed (paths.flatMap fun p => (l.disk.read p).toOption.getD [])
  | complaints => .failed ("\n".intercalate complaints)

/- Why a program that is not known cannot be run. -/
def programFault (l : Loader) (program : String) : DiskFault :=
  if program.toList.contains '/' then
    match l.disk.locate program with
    | .ok _ => .notPermitted
    | .error fault => fault
  else .notFound

/-
  Run a front end on files.  Two are known: one for files that already hold a dump, and one that
  refuses every file.  No file on the disk is a program.
-/
def runFrontend (l : Loader) (program : String) (paths : List String) : FrontendResult :=
  if ["cat", "/bin/cat", "/usr/bin/cat"].contains program then
    l.printFiles paths
  else if ["false", "/bin/false", "/usr/bin/false"].contains program then
    .failed ""
  else .notRun (l.programFault program)

def operands (words : List String) : List String :=
  words.filter fun w => w.toList.head? != some '-'

def frontendText (l : Loader) (command path : String) (span : Span) : Except Fault String :=
  match Text.words command with
  | [] => .error .emptyFrontend
  | program :: words =>
    match l.runFrontend program (operands words ++ [path]) with
    | .notRun fault => .error (.frontendNotRun program fault.text span)
    | .failed complaint => .error (.frontendFailed path complaint)
    | .printed bytes =>
      match Text.Utf8.decode? bytes with
      | some text => .ok text
      | none => .error (.frontendEncoding path)

/- The dump in a file, or made of it. -/
def textOf (l : Loader) (path : String) (span : Span) : Except Fault String :=
  match l.frontend, Path.extension? path with
  | some command, some "rb" => l.frontendText command path span
  | _, _ => (l.disk.readText path).mapError fun fault => .unreadableFile path fault.text span

end Loader

-- Reading Units

/- A step of loading, which may change what has been read. -/
abbrev Load :=
  EStateM Failure Loader

namespace Load

/- Remember that a unit is read, and whether that is new. -/
def mark (key : String) : Load Bool := do
  let l ← get
  if l.loaded.contains key then return false
  else
    set { l with loaded := key :: l.loaded }
    return true

/- Read the dump of a unit.  Its text is kept in any case. -/
def parse (name : String) (path : Option String) (text : String) : Load SourceUnit := do
  modify fun l => { l with sources := (name, text) :: l.sources }
  match Dump.read text with
  | .ok root => return { name, path, root }
  | .error error => throw ⟨.unreadable error, some name⟩

def readFile (path : String) (span : Span) : Load SourceUnit := do
  match (← get).textOf path span with
  | .ok text => parse path (some path) text
  | .error fault => throw ⟨fault, none⟩

/- Read a dump as the main unit. -/
def openText (name dump : String) : Load SourceUnit := do
  let _ ← mark name
  parse name none dump

/- Read the main unit, from memory or from a file. -/
def openUnit (path : String) : Load SourceUnit := do
  match (← get).inMemory.lookup path with
  | some text => openText path text
  | none =>
    let _ ← mark path
    readFile path .generated

/- Where a unit was searched in vain. -/
def searched (l : Loader) (asking : Option String) (relative : Bool) : String :=
  ", ".intercalate (l.directories asking relative)

/- Read a unit that another one asks for, unless it has been read before. -/
def require (name : String) (asking : Option String) (relative : Bool) (span : Span) :
    Load (Option SourceUnit) := do
  let l ← get
  match l.findInMemory? name with
  | some (key, text) =>
    if ← mark key then some <$> parse key none text
    else return none
  | none =>
    match l.resolve? name asking relative with
    | none => throw ⟨.unitNotFound name (searched l asking relative) span, none⟩
    | some path =>
      if ← mark path then some <$> readFile path span
      else return none

end Load

end RubyWat
