import RubyWat.Text.Blank
import RubyWat.Text.Utf8

/-
  The files that a program can see and write.

  A disk is a list of files below the working directory, and a directory exists when a file lies
  in it.  Nothing is known of what lies outside of the working directory.
-/

-- Faults

namespace RubyWat

inductive DiskFault where
  | notFound
  | notPermitted
  | notDirectory
  | isDirectory
  | nameTooLong
  | notText
deriving DecidableEq

namespace DiskFault

/- A fault without its number. -/
def summary : DiskFault → String
  | notFound => "No such file or directory"
  | notPermitted => "Permission denied"
  | notDirectory => "Not a directory"
  | isDirectory => "Is a directory"
  | nameTooLong => "File name too long"
  | notText => "stream did not contain valid UTF-8"

def number? : DiskFault → Option Nat
  | notFound => some 2
  | notPermitted => some 13
  | notDirectory => some 20
  | isDirectory => some 21
  | nameTooLong => some 36
  | notText => none

def text (f : DiskFault) : String :=
  match f.number? with
  | some n => f.summary ++ " (os error " ++ toString n ++ ")"
  | none => f.summary

end DiskFault

-- Entries

/- A file by the names that lead to it. -/
structure DiskFile where
  names : List String
  content : List UInt8
deriving DecidableEq

/- All files, in the order in which they were written. -/
structure Disk where
  files : List DiskFile := []

/- What a path leads to. -/
inductive DiskEntry where
  | directory (names : List String)
  | file (names : List String) (content : List UInt8)

namespace Disk

/- The number of bytes that a path stays below. -/
def pathLimit : Nat :=
  4096

/- The number of bytes that a name stays below. -/
def nameLimit : Nat :=
  256

def parts (path : String) : List String :=
  (Text.splitAt (· == '/') path.toList).map String.ofList

def content? (d : Disk) (names : List String) : Option (List UInt8) :=
  (d.files.find? (·.names == names)).map (·.content)

def isDirectory (d : Disk) (names : List String) : Bool :=
  d.files.any fun f => names.isPrefixOf f.names && names != f.names

/- The directory around one, which may lie outside.  There is none around the outermost one. -/
def outer (names : List String) : List String :=
  match names.getLast? with
  | none | some ".." => names ++ [".."]
  | some "/" => names
  | some _ => names.dropLast

def enter (d : Disk) (entry : DiskEntry) (part : String) : Except DiskFault DiskEntry :=
  match entry with
  | .file _ _ => .error .notDirectory
  | .directory names =>
    if part = "" ∨ part = "." then
      .ok entry
    else if part = ".." then
      .ok (.directory (outer names))
    else if nameLimit ≤ part.utf8ByteSize then .error .nameTooLong
    else
      let names := names ++ [part]
      match d.content? names with
      | some content => .ok (.file names content)
      | none =>
        if d.isDirectory names then .ok (.directory names)
        else .error .notFound

/- Where the parts of a path start: in the working directory, or outside of it. -/
def startOf (path : String) : DiskEntry :=
  match path.toList with
  | '/' :: _ => .directory ["/"]
  | _ => .directory []

def locateParts (d : Disk) (path : String) (parts : List String) : Except DiskFault DiskEntry :=
  if path = "" then
    .error .notFound
  else if pathLimit ≤ path.utf8ByteSize then .error .nameTooLong
  else parts.foldlM d.enter (startOf path)

def locate (d : Disk) (path : String) : Except DiskFault DiskEntry :=
  d.locateParts path (parts path)

-- Reading And Writing

def isFile (d : Disk) (path : String) : Bool :=
  match d.locate path with
  | .ok (.file _ _) => true
  | _ => false

def read (d : Disk) (path : String) : Except DiskFault (List UInt8) := do
  match ← d.locate path with
  | .file _ content => return content
  | .directory _ => throw .isDirectory

def readText (d : Disk) (path : String) : Except DiskFault String := do
  match Text.Utf8.decode? (← d.read path) with
  | some text => return text
  | none => throw .notText

def put (d : Disk) (names : List String) (content : List UInt8) : Disk :=
  match d.files.findIdx? (·.names == names) with
  | some i => ⟨d.files.modify i fun f => { f with content }⟩
  | none => ⟨d.files ++ [⟨names, content⟩]⟩

/-
  Write a file.  Its directory has to exist, and the path has to end in a name.  A slash behind
  the last part says that the path leads to a directory, whether there is one or not.
-/
def write (d : Disk) (path : String) (content : List UInt8) : Except DiskFault Disk := do
  let all := parts path
  let named := Text.dropEndWhile (· == "") all
  let last := named.getLastD ""
  match ← d.locateParts path named.dropLast with
  | .file _ _ => throw .notDirectory
  | .directory names =>
    if named ≠ all ∨ last = "." ∨ last = ".." then
      throw .isDirectory
    match d.enter (.directory names) last with
    | .ok (.directory _) => throw .isDirectory
    | .error .nameTooLong => throw .nameTooLong
    | _ => return d.put (names ++ [last]) content

/- The disk with these files, a later one over an earlier. -/
def ofFiles (files : List (String × List UInt8)) : Disk :=
  files.foldl
    (fun d (path, content) => d.put ((parts path).filter fun p => p ≠ "" ∧ p ≠ ".") content)
    {}

/- The files of a disk that another one has not, or otherwise. -/
def changesSince (d old : Disk) : List (String × List UInt8) :=
  (d.files.filter fun f => !old.files.contains f).map fun f => ("/".intercalate f.names, f.content)

/- The files of a disk below the working directory. -/
def inside (d : Disk) : Disk :=
  ⟨d.files.filter fun f => f.names.head? != some ".." && f.names.head? != some "/"⟩

end Disk

end RubyWat
