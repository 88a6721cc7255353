import RubyWat.Report.Diagnostic
import RubyWat.Text.Blank

/-
  Diagnostics as a terminal shows them.

  With the source text at hand a label shows its line with a mark under the span; without it a
  label shows the span itself.
-/

-- Colours

namespace RubyWat.Report

inductive ColorMode where
  | auto
  | always
  | never
deriving DecidableEq, Inhabited

namespace ColorMode

/- Whether colours are used, given whether a terminal is there. -/
def useColors : ColorMode → Bool → Bool
  | auto, isTerminal => isTerminal
  | always, _ => true
  | never, _ => false

def ofText? : String → Option ColorMode
  | "auto" => some auto
  | "always" => some always
  | "never" => some never
  | _ => none

end ColorMode

inductive Color where
  | error
  | warning
  | note
  | help
  | bold
  | secondary
deriving DecidableEq

def Color.escape : Color → String
  | .error => "\x1b[1;31m"
  | .warning => "\x1b[1;33m"
  | .note => "\x1b[1;36m"
  | .help => "\x1b[1;32m"
  | .bold => "\x1b[1m"
  | .secondary => "\x1b[1;34m"

def Severity.color : Severity → Color
  | .error => .error
  | .warning => .warning
  | .note => .note

-- Labels

structure SourceFile where
  path : String
  text : String

/- What a terminal shows: colours, and lines of one source. -/
structure Terminal where
  colors : Bool := false
  source : Option SourceFile := none

namespace Terminal

def paint (t : Terminal) (color : Color) (s : String) : String :=
  if t.colors then color.escape ++ s ++ "\x1b[0m" else s

def copies (n : Nat) (c : Char) : String :=
  String.ofList (List.replicate n c)

/- The source that the spans of a diagnostic refer to. -/
def sourceOf? (t : Terminal) (d : Diagnostic) : Option SourceFile :=
  t.source.filter fun s => d.file.all (· == s.path)

def spanLabel (t : Terminal) (d : Diagnostic) (marker : String) (color : Color) (l : Label) :
    String :=
  "  " ++ marker ++ " " ++ d.file.getD "<input>" ++ " "
    ++ l.span.text ++ ": " ++ t.paint color l.message ++ "\n"

/-
  A label that shows its line.  The mark is as long as the
  span, but ends with the line and is never empty.
-/
def lineLabel (t : Terminal) (source : SourceFile) (marker : String) (color : Color) (l : Label) :
    String :=
  let (line, col) := l.span.lineCol source.text
  let shown := (Text.lines source.text)[line - 1]?.getD ""
  let margin := copies (toString line).length ' '
  let width := max 1 (min l.span.length (shown.utf8ByteSize - (col - 1)))
  let mark := copies width (if l.isPrimary then '^' else '-')
  "  " ++ marker ++ " " ++ source.path ++ ":" ++ toString line
    ++ ":" ++ toString col ++ "\n"
    ++ " " ++ margin ++ " |\n"
    ++ " " ++ toString line ++ " | " ++ shown ++ "\n"
    ++ " " ++ margin ++ " | " ++ copies (col - 1) ' '
    ++ t.paint color (mark ++ " " ++ l.message) ++ "\n"

def label (t : Terminal) (d : Diagnostic) (l : Label) : String :=
  let marker := if l.isPrimary then "-->" else ":::"
  let color : Color := if l.isPrimary then .error else .secondary
  match t.sourceOf? d with
  | some source => t.lineLabel source marker color l
  | none => t.spanLabel d marker color l

end Terminal

-- Reports

namespace Terminal

def remark (t : Terminal) (color : Color) (word message : String) : String :=
  "  = " ++ t.paint color word ++ ": " ++ message ++ "\n"

/- Where a diagnostic without labels comes from. -/
def origin (d : Diagnostic) : String :=
  match d.labels, d.file with
  | [], some file => "  --> " ++ file ++ "\n"
  | _, _ => ""

/- A whole diagnostic, closed by an empty line. -/
def render (t : Terminal) (d : Diagnostic) : String :=
  t.paint d.severity.color d.severity.text
    ++ t.paint .bold ("[" ++ d.code.text ++ "]")
    ++ ": " ++ d.message ++ "\n"
    ++ String.join (d.labels.map (t.label d))
    ++ origin d
    ++ String.join (d.notes.map (t.remark .bold "note"))
    ++ String.join (d.suggestions.map (t.remark .help "help"))
    ++ "\n"

def warningCount (n : Nat) : String :=
  toString n ++ " warning" ++ (if n = 1 then "" else "s")
    ++ " emitted"

/- The last line of a run that had errors or warnings. -/
def summary (t : Terminal) (errors warnings : Nat) : String :=
  if 0 < errors then
    t.paint .error "error" ++ ": aborting due to "
      ++ (if errors = 1 then "previous error"
          else toString errors ++ " previous errors")
      ++ (if 0 < warnings then "; " ++ warningCount warnings else "")
      ++ "\n"
  else if 0 < warnings then
    t.paint .warning "warning" ++ ": " ++ warningCount warnings
      ++ "\n"
  else ""

end Terminal

end RubyWat.Report
