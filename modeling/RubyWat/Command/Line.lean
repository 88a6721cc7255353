import RubyWat.Command.Action

/- The command line. -/

-- Usage

namespace RubyWat.Command

def version : String :=
  "0.1.0-alpha.1"

def usage : List String :=
  ["Garnet Compiler",
   "",
   "Usage: garnetc <command> [options]",
   "",
   "Commands:",
   "  build <files...>        Compile AST dumps to WebAssembly text",
   "  check <file>            Compile without writing output",
   "  run <file> <entry> ...  Compile and evaluate one method",
   "  explain <code>          Explain an error code (e.g., E1001)",
   "  help                    Show this help message",
   "  version                 Show version information",
   "",
   "Environment:",
   "  GARNET_PATH             Extra directories searched by require",
   "  RUST_LOG                Enable tracing, e.g. "
     ++ "RUST_LOG=garnet_parse=debug"]

def buildUsage : List String :=
  ["Usage: garnetc build <file.ast>... [options]",
   "",
   "Options:",
   "  -o <path>               Output file (single input only)",
   "  --emit=<kind>           Output: wat (default), ir",
   "  --memory-pages=<n>      Initial linear memory pages (default: 1)",
   "  --load-path=<dir>       Extra directory searched by require",
   "  --frontend=<command>    Command producing AST dumps from .rb files",
   "  --no-fold               Do not fold constant expressions",
   "  --no-export-memory      Do not export the linear memory",
   "  --color=<mode>          auto, always, never"]

def checkUsage : List String :=
  ["Usage: garnetc check <file.ast> [options]"]

def runUsage : List String :=
  ["Usage: garnetc run <file.ast> <Class.method> [args...] [options]",
   "",
   "Calls a class method (Class.method) or an instance method on a new",
   "object (Class#method) with integer arguments and prints the result."]

def explainUsage : List String :=
  ["Usage: garnetc explain <error-code>",
   "Example: garnetc explain E1001"]

-- Dispatch

/- Read the options of a command and carry it out. -/
def withSettings (w : Surroundings) (args : List String)
    (action : Settings → List String → Transcript) : Transcript :=
  match Settings.parse args with
  | .ok (s, positional) => action s positional
  | .error fault =>
    let start : Transcript := { disk := w.disk }
    (start.complain ("error: " ++ fault.message)).fail

def execute (w : Surroundings) (args : List String) : Transcript :=
  let start : Transcript := { disk := w.disk }
  match args with
  | [] => start.sayAll usage
  | "build" :: args =>
    withSettings w args fun s files =>
      if files.isEmpty then (start.complainAll buildUsage).fail
      else build w s files
  | "check" :: args =>
    withSettings w args fun s files =>
      match files with
      | [path] => check w s path
      | _ => (start.complainAll checkUsage).fail
  | "run" :: args =>
    withSettings w args fun s rest =>
      match rest with
      | path :: entry :: values => runEntry w s path entry values
      | _ => (start.complainAll runUsage).fail
  | "explain" :: args =>
    match args with
    | code :: _ => explain w code
    | [] => (start.complainAll explainUsage).fail
  | command :: _ =>
    if ["help", "--help", "-h"].contains command then
      start.sayAll usage
    else if ["version", "--version", "-V"].contains command then
      start.say ("garnetc " ++ version)
    else ((start.complainAll ["Unknown command: " ++ command, ""]).sayAll usage).fail

end RubyWat.Command
