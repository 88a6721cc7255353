/-
  Paths of files as they are written.

  A path is a text whose parts are divided by slashes.  Parts that are empty or a single dot say
  nothing, except for a slash or a dot in front.  What is left of a path keeps the way it was
  written.
-/

-- Parts

namespace RubyWat.Path

/-
  A path whose last part has been set apart.  `start` is the slash or the dot in front, `before`
  is what stands before the slash of the last part.
-/
structure Cut where
  start : List Char
  before : List Char
  last : List Char

/- The slash or the dot in front of a path, and the rest. -/
def splitStart : List Char → List Char × List Char
  | '/' :: cs => (['/'], cs)
  | ['.'] => (['.'], [])
  | '.' :: '/' :: cs => (['.'], '/' :: cs)
  | cs => ([], cs)

def splitLast (cs : List Char) : List Char × List Char :=
  let back := cs.reverse
  (((back.dropWhile (· ≠ '/')).drop 1).reverse, (back.takeWhile (· ≠ '/')).reverse)

/- What stands before the last slash is shorter. -/
theorem length_splitLast_lt (cs : List Char) (h : cs ≠ []) :
    (splitLast cs).1.length < cs.length := by
  have hle := (List.dropWhile_sublist (l := cs.reverse) (· ≠ '/')).length_le
  have hpos := List.length_pos_iff.2 h
  simp only [splitLast, List.length_reverse, List.length_drop] at *
  omega

/- A text without parts at its end that say nothing. -/
def dropSilent (cs : List Char) : List Char :=
  if _h : cs = [] then []
  else
    let last := (splitLast cs).2
    if last = [] ∨ last = ['.'] then dropSilent (splitLast cs).1
    else cs
termination_by cs.length
decreasing_by exact length_splitLast_lt cs ‹_›

/- Set the last part of a path apart, if it has a part. -/
def cut? (path : String) : Option Cut :=
  let (start, rest) := splitStart path.toList
  let rest := dropSilent rest
  if rest = [] then none
  else
    let (before, last) := splitLast rest
    some ⟨start, before, last⟩

/- A path seen from a directory.  A path with a slash in front is the same from everywhere. -/
def join (directory path : String) : String :=
  match path.toList with
  | '/' :: _ => path
  | _ =>
    match directory.toList.getLast? with
    | none => path
    | some '/' => directory ++ path
    | some _ => directory ++ "/" ++ path

def parent? (path : String) : Option String :=
  match cut? path with
  | some c => some (String.ofList (c.start ++ dropSilent c.before))
  | none =>
    match path.toList with
    | '.' :: _ => some ""
    | _ => none

-- Extensions

def splitDot (name : List Char) : List Char × Option (List Char) :=
  let back := name.reverse
  let stem := ((back.dropWhile (· ≠ '.')).drop 1).reverse
  if stem = [] then (name, none)
  else (stem, some (back.takeWhile (· ≠ '.')).reverse)

def fileName? (path : String) : Option (List Char × List Char) :=
  match cut? path with
  | some c =>
    if c.last = ['.', '.'] then none
    else
      let (start, rest) := splitStart path.toList
      let directory := (dropSilent rest).length - c.last.length
      some (start ++ rest.take directory, c.last)
  | none => none

def extension? (path : String) : Option String :=
  (fileName? path).bind fun (_, name) => (splitDot name).2.map String.ofList

/- The path without its extension, up to the dot before it. -/
def bare (path : String) : String :=
  let size := (extension? path).elim 0 String.length
  String.ofList (path.toList.take (path.length - size))

/-
  The path with another extension.  The one it has is cut off first, and if what is left names
  no file, it stays as it is: without an extension, two dots and a word are two dots.
-/
def withExtension (path ext : String) : String :=
  match fileName? (bare path) with
  | some (front, name) => String.ofList (front ++ (splitDot name).1) ++ "." ++ ext
  | none => bare path

end RubyWat.Path
