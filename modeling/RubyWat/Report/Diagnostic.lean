import RubyWat.Report.Code
import RubyWat.Source.Span

/-
  Diagnostics: what went wrong, where, and what to do.

  A label points at a span; labels at generated code are left
  out, since there is nothing to point at.
-/

-- Diagnostics

namespace RubyWat.Report

/- How bad a diagnostic is. -/
inductive Severity where
  | error
  | warning
  | note
deriving DecidableEq, Inhabited

def Severity.text : Severity → String
  | .error => "error"
  | .warning => "warning"
  | .note => "note"

/- A span with a remark.  The primary label is the place itself. -/
structure Label where
  span : Span
  message : String
  isPrimary : Bool
deriving DecidableEq, Inhabited

structure Diagnostic where
  code : Code
  severity : Severity := .error
  message : String := ""
  labels : List Label := []
  notes : List String := []
  suggestions : List String := []
  file : Option String := none
deriving DecidableEq, Inhabited

-- Construction

namespace Diagnostic

def error (code : Code) (message : String) : Diagnostic :=
  { code, message }

def warning (code : Code) (message : String) : Diagnostic :=
  { code, message, severity := .warning }

/- Add a label, unless it points at generated code. -/
def addLabel (d : Diagnostic) (l : Label) : Diagnostic :=
  if l.span.isGenerated then d else { d with labels := d.labels ++ [l] }

def label (d : Diagnostic) (span : Span) (message : String) : Diagnostic :=
  d.addLabel ⟨span, message, true⟩

/- Point at another place that matters. -/
def secondaryLabel (d : Diagnostic) (span : Span) (message : String) : Diagnostic :=
  d.addLabel ⟨span, message, false⟩

def note (d : Diagnostic) (message : String) : Diagnostic :=
  { d with notes := d.notes ++ [message] }

def suggest (d : Diagnostic) (message : String) : Diagnostic :=
  { d with suggestions := d.suggestions ++ [message] }

/- Say which unit the spans belong to, unless it is known. -/
def inFile (d : Diagnostic) (file : String) : Diagnostic :=
  { d with file := some (d.file.getD file) }

def primarySpan? (d : Diagnostic) : Option Span :=
  (d.labels.find? (·.isPrimary)).map (·.span)

/- A label on a line of its own. -/
def labelText (l : Label) : String :=
  "\n  " ++ (if l.isPrimary then "-->" else "   ") ++ " "
    ++ l.span.text ++ ": " ++ l.message

/- A diagnostic without source lines and colours. -/
def text (d : Diagnostic) : String :=
  d.severity.text ++ "[" ++ d.code.text ++ "]: " ++ d.message
    ++ String.join (d.labels.map labelText)
    ++ String.join (d.notes.map ("\n  = note: " ++ ·))
    ++ String.join (d.suggestions.map ("\n  = help: " ++ ·))

end Diagnostic

end RubyWat.Report
