import RubyWat.Command.Options
import RubyWat.Lower.Unit

/- What a command prints and writes. -/

-- Transcripts

namespace RubyWat.Command

/-
  Where a command runs: the files, the directories that units
  are also searched in, and whether errors go to a terminal.
-/
structure Surroundings where
  disk : Disk := {}
  searchPath : Option String := none
  isTerminal : Bool := false

/- What a command has printed and written so far. -/
structure Transcript where
  exit : Nat := 0
  out : String := ""
  err : String := ""
  disk : Disk

namespace Transcript

def say (t : Transcript) (line : String) : Transcript :=
  { t with out := t.out ++ line ++ "\n" }

def complain (t : Transcript) (line : String) : Transcript :=
  { t with err := t.err ++ line ++ "\n" }

def sayAll (t : Transcript) (lines : List String) : Transcript :=
  lines.foldl say t

def complainAll (t : Transcript) (lines : List String) : Transcript :=
  lines.foldl complain t

def fail (t : Transcript) : Transcript :=
  { t with exit := 1 }

end Transcript

-- Reports

/- The terminal that a loader's sources are shown on. -/
def terminalFor (w : Surroundings) (s : Settings) (l : Loader) (name : String) : Report.Terminal :=
  { colors := s.color.useColors w.isTerminal
    source := (l.source? name).map fun text => ⟨name, text⟩ }

namespace Transcript

/- Print diagnostics, with the lines of the units they are in. -/
def report (t : Transcript) (w : Surroundings) (s : Settings) (l : Loader)
    (main : String) (diagnostics : List Report.Diagnostic) : Transcript :=
  diagnostics.foldl
    (fun t d =>
      let terminal := terminalFor w s l (d.file.getD main)
      { t with err := t.err ++ terminal.render d })
    t

def summarize (t : Transcript) (w : Surroundings) (s : Settings) (errors warnings : Nat) :
    Transcript :=
  let terminal : Report.Terminal := { colors := s.color.useColors w.isTerminal }
  { t with err := t.err ++ terminal.summary errors warnings }

end Transcript

end RubyWat.Command
