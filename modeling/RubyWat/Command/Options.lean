import RubyWat.Compile.Context
import RubyWat.Report.Terminal
import RubyWat.Text.Numeral

/- Options of the command line. -/

-- Settings

namespace RubyWat.Command

/- What a build writes: a module, or a listing of its code. -/
inductive Product where
  | wat
  | ir
deriving DecidableEq

namespace Product

def ofText? : String → Option Product
  | "wat" => some wat
  | "ir" => some ir
  | _ => none

def extension : Product → String
  | wat => "wat"
  | ir => "ir"

end Product

structure Settings where
  options : Options := {}
  loadPaths : List String := []
  frontend : Option String := none
  product : Product := .wat
  output : Option String := none
  color : Report.ColorMode := .auto

inductive OptionFault where
  | missingOutput
  | unknownProduct (text : String)
  | invalidPages (text : String)
  | unknownColor (text : String)
  | unknownOption (text : String)
deriving DecidableEq

def OptionFault.message : OptionFault → String
  | missingOutput => "`-o` needs a path"
  | unknownProduct text => "unknown output kind `" ++ text ++ "`; expected wat or ir"
  | invalidPages text => "invalid page count `" ++ text ++ "`"
  | unknownColor text => "unknown color mode `" ++ text ++ "`"
  | unknownOption text => "unknown option `" ++ text ++ "`"

-- Reading Options

/- What is left of a text behind another one. -/
def behind? : List Char → List Char → Option (List Char)
  | [], cs => some cs
  | _ :: _, [] => none
  | p :: ps, c :: cs => if p = c then behind? ps cs else none

def optionValue? (name arg : String) : Option String :=
  (behind? name.toList arg.toList).map String.ofList

def pageCount? (text : String) : Option Nat :=
  (Text.Numeral.unsigned? 10 text.toList).bind (Text.Numeral.below? 0x100000000)

namespace Settings

/-
  Settings changed by an option that stands alone.  There is no
  result for an argument that is no option.
-/
def withOption (s : Settings) (arg : String) : Except OptionFault (Option Settings) :=
  if let some text := optionValue? "--emit=" arg then
    match Product.ofText? text with
    | some product => .ok (some { s with product })
    | none => .error (.unknownProduct text)
  else if let some text := optionValue? "--memory-pages=" arg then
    match pageCount? text with
    | some memoryPages => .ok (some { s with options := { s.options with memoryPages } })
    | none => .error (.invalidPages text)
  else if let some path := optionValue? "--load-path=" arg then
    .ok (some { s with loadPaths := s.loadPaths ++ [path] })
  else if let some command := optionValue? "--frontend=" arg then
    .ok (some { s with frontend := some command })
  else if let some text := optionValue? "--color=" arg then
    match Report.ColorMode.ofText? text with
    | some color => .ok (some { s with color })
    | none => .error (.unknownColor text)
  else if arg = "--no-fold" then
    .ok (some { s with options := { s.options with foldConstants := false } })
  else if arg = "--no-export-memory" then
    .ok (some { s with options := { s.options with exportMemory := false } })
  else if (optionValue? "--" arg).isSome then
    .error (.unknownOption arg)
  else .ok none

/- Read arguments behind those that have been read. -/
def parseFrom (s : Settings) (positional : List String) :
    List String → Except OptionFault (Settings × List String)
  | [] => .ok (s, positional)
  | ["-o"] => .error .missingOutput
  | "-o" :: path :: args =>
    parseFrom { s with output := some path } positional args
  | arg :: args => do
      match ← s.withOption arg with
      | some s => parseFrom s positional args
      | none => parseFrom s (positional ++ [arg]) args

/- The settings that arguments give, and the other arguments. -/
def parse (args : List String) : Except OptionFault (Settings × List String) :=
  parseFrom {} [] args

end Settings

end RubyWat.Command
