import RubyWat.Command.Transcript
import RubyWat.Machine.Entry
import RubyWat.Report.Explanation

/- The commands. -/

-- Compilations

namespace RubyWat.Command

def searchDirectories (w : Surroundings) : List String :=
  match w.searchPath with
  | some path => (Text.splitAt (· == ':') path.toList).map String.ofList
  | none => []

def compileFile (w : Surroundings) (s : Settings) (path : String) : Compilation :=
  compileUnit s.options
    { disk := w.disk
      loadPaths := s.loadPaths ++ searchDirectories w
      frontend := s.frontend }
    path

def warningsOf (ctx : Context) : List Report.Diagnostic :=
  ctx.warnings.map Fault.report

-- Builds

def productText (ctx : Context) : Product → String
  | .wat => ctx.moduleText
  | .ir => ctx.tree.listing

/- How far a build has come. -/
structure Progress where
  transcript : Transcript
  built : List String := []
  errors : Nat := 0
  warnings : Nat := 0

def writeProduct (s : Settings) (input : String) (ctx : Context) (p : Progress) : Progress :=
  let output := s.output.getD (Path.withExtension input s.product.extension)
  let bytes := Text.Utf8.encode (productText ctx s.product)
  match p.transcript.disk.write output bytes with
  | .ok disk =>
    { p with
      transcript := { p.transcript with disk }
      built := p.built ++ [input ++ " -> " ++ output] }
  | .error fault =>
    { p with
      transcript := p.transcript.complain ("error: cannot write `" ++ output ++ "`: " ++ fault.text)
      errors := p.errors + 1 }

/- Report on a compiled file and write its product. -/
def finishFile (w : Surroundings) (s : Settings) (p : Progress) (file : String × Compilation) :
    Progress :=
  let (input, c) := file
  match c.result with
  | .ok ctx =>
    let warnings := warningsOf ctx
    writeProduct s input ctx
      { p with
        transcript := p.transcript.report w s c.loader input warnings
        warnings := p.warnings + warnings.length }
  | .error failure =>
    { p with
      transcript := p.transcript.report w s c.loader input [failure.report]
      errors := p.errors + 1 }

/-
  Compile files and write their products.  All files are
  compiled before the first product is written.
-/
def build (w : Surroundings) (s : Settings) (files : List String) : Transcript :=
  let start : Transcript := { disk := w.disk }
  if s.output.isSome && decide (1 < files.length) then
    (start.complain "error: `-o` can only be used with a single input file").fail
  else
    let compiled := files.map fun file => (file, compileFile w s file)
    let p := compiled.foldl (finishFile w s) { transcript := start }
    if 0 < p.errors then (p.transcript.summarize w s p.errors p.warnings).fail
    else p.transcript.sayAll p.built

-- Checks

def writtenMethods (p : Program) : Nat :=
  p.methods.toList.countP fun m => !m.flags.synthesized

def refuseFile (w : Surroundings) (s : Settings) (path : String) (l : Loader) (failure : Failure) :
    Transcript :=
  let start : Transcript := { disk := w.disk }
  ((start.report w s l path [failure.report]).summarize w s 1 0).fail

def check (w : Surroundings) (s : Settings) (path : String) : Transcript :=
  let c := compileFile w s path
  match c.result with
  | .error failure => refuseFile w s path c.loader failure
  | .ok ctx =>
    let start : Transcript := { disk := w.disk }
    (start.report w s c.loader path (warningsOf ctx)).say
      ("OK: " ++ path ++ " ("
        ++ toString ctx.program.classes.size ++ " classes, "
        ++ toString (writtenMethods ctx.program) ++ " methods, "
        ++ toString ctx.warnings.length ++ " warnings)")

-- Runs

def integers (args : List String) : Except String (List Int64) :=
  args.mapM fun arg =>
    match (Text.Numeral.signed? arg.toList).bind Text.Numeral.int64? with
    | some value => .ok value
    | none => .error arg

/- Start a compiled program and call one of its methods. -/
def evaluate (ctx : Context) (entry : String) (args : List Int64) : Machine.Outcome :=
  match Machine.start ctx () with
  | .error t => .trap t
  | .ok store => (Machine.invoke { ctx } entry args store).1

def runWith (w : Surroundings) (s : Settings) (path entry : String) (args : List Int64) :
    Transcript :=
  let c := compileFile w s path
  match c.result with
  | .error failure => refuseFile w s path c.loader failure
  | .ok ctx =>
    let start : Transcript := { disk := w.disk }
    let t := start.report w s c.loader path (warningsOf ctx)
    match evaluate ctx entry args with
    | .value (some v) => t.say v.text
    | .value none => t
    | .trap trap => (t.report w s c.loader path [trap.report]).fail
    | .outOfFuel => t.fail

def runEntry (w : Surroundings) (s : Settings) (path entry : String) (args : List String) :
    Transcript :=
  match integers args with
  | .ok values => runWith w s path entry values
  | .error arg =>
    let start : Transcript := { disk := w.disk }
    (start.complain ("error: argument `" ++ arg ++ "` is not an integer")).fail

def explain (w : Surroundings) (text : String) : Transcript :=
  let start : Transcript := { disk := w.disk }
  match Report.Code.ofText? text with
  | some code => start.sayAll [code.text ++ ": " ++ code.summary, "", code.explanation]
  | none =>
    (start.complainAll
      ["Unknown error code: " ++ text,
       "",
       "Codes have the format EXXXX (errors) or WXXXX (warnings) "
         ++ "where X is a digit.",
       "Examples: E1001, E2003, E6001, W4001"]).fail

end RubyWat.Command
