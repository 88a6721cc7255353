import RubyWat.Lower.Node
import RubyWat.Wat.Module

/-
  Whole programs.

  A program is a main unit and the units that it asks for.  A compilation ends with the code and
  the names of the program, or with a failure and the units that were read on the way.
-/

-- Units

namespace RubyWat

namespace Lower

/-
  More units than a loader can read.  Units in memory are read once each; a file is read once
  for each path, and paths are bounded in length.
-/
def unitLimit (l : Loader) : Nat :=
  let paths := if l.disk.files.isEmpty then 0 else Nat.pow 256 Disk.pathLimit
  l.inMemory.length + paths + 1

/- Compile a step with a file as the one that asks. -/
def askingFrom (path : Option String) (step : Lower Unit) : Lower Unit := fun s =>
  let before := s.asking
  match step { s with asking := path } with
  | .ok _ s => .ok () { s with asking := before }
  | .error failure s => .error failure { s with asking := before }

def lowerUnit : Nat → SourceUnit → Lower Unit
  | 0, _ => refuse (.internal .unitCount)
  | fuel + 1, unit =>
    inUnit unit.name <| askingFrom unit.path do
      let _ ← lowerNode (lowerUnit fuel) unit.root.height Code.Tree.root unit.root false

/- Compile a unit and check that every call has a target. -/
def lowerProgram (unit : SourceUnit) : Lower Unit := do
  lowerUnit (unitLimit (← get).loader) unit
  inUnit unit.name <|
    match (← context).linkCheck with
    | .ok () => pure ()
    | .error fault => refuse fault

end Lower

-- Compilations

/- How a compilation ended, and the units that it read. -/
structure Compilation where
  result : Except Failure Context
  loader : Loader

namespace Compilation

/- Compile the main unit that a step of the loader gives. -/
def run (options : Options) (loader : Loader) (main : Load SourceUnit) : Compilation :=
  match main loader with
  | .error failure loader => ⟨.error failure, loader⟩
  | .ok unit loader =>
    match Lower.lowerProgram unit { ctx := .initial options, loader }
    with
    | .ok () s => ⟨.ok s.ctx, s.loader⟩
    | .error failure s => ⟨.error failure, s.loader⟩

end Compilation

def compileText (options : Options) (loader : Loader) (name dump : String) : Compilation :=
  .run options loader (Load.openText name dump)

def compileUnit (options : Options) (loader : Loader) (path : String) : Compilation :=
  .run options loader (Load.openUnit path)

end RubyWat
