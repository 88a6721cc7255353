import RubyWat.Report.Diagnostic

/- Why an evaluation stops. -/

-- Causes

namespace RubyWat.Machine

inductive Obstacle where
  | floatValue
  | floatLoad
  | floatStore
  | floatOperator
  | localRead (name : String)
  | localWrite (name : String)
  | globalRead (name : String)
  | globalWrite (name : String)
  | missingBody (function : String)
  | missingResult
  | missingOperand
  | missingCondition
  | unaryOperand
  | binaryOperands
  | definition
  | foreignBranch
  | rawText
deriving DecidableEq

def Obstacle.text : Obstacle → String
  | floatValue => "floating point values"
  | floatLoad => "floating point loads"
  | floatStore => "floating point stores"
  | floatOperator => "a floating point operator"
  | localRead name => "read of undeclared local `" ++ name ++ "`"
  | localWrite name => "write to undeclared local `" ++ name ++ "`"
  | globalRead name => "read of unknown global `" ++ name ++ "`"
  | globalWrite name => "write to unknown global `" ++ name ++ "`"
  | missingBody function => "`" ++ function ++ "` without a body"
  | missingResult => "function ending without its result"
  | missingOperand => "an operand without a value"
  | missingCondition => "an `if` without a condition"
  | unaryOperand => "a unary instruction without one operand"
  | binaryOperands => "a binary instruction without two operands"
  | definition => "a definition inside a function body"
  | foreignBranch => "branch out of a function"
  | rawText => "inline instruction text"

inductive Cause where
  | divisionByZero
  | outOfBounds (address length size : Nat)
  | noEntry (entry : String)
  | argumentCount (entry : String) (expected found : Nat)
  | notEvaluable (what : Obstacle)
  | missingHost (moduleName function : String)
  | hostFailure (moduleName function message : String)
  | callDepth (limit : Nat)
deriving DecidableEq

namespace Cause

def code : Cause → Report.Code
  | divisionByZero => .divisionByZero
  | outOfBounds _ _ _ => .outOfBounds
  | noEntry _ | argumentCount _ _ _ => .entryNotFound
  | notEvaluable _ => .notEvaluable
  | missingHost _ _ | hostFailure _ _ _ => .missingHost
  | callDepth _ => .callDepth

/- A division by zero is reported by a code of its own. -/
theorem code_eq_iff (cause : Cause) : cause.code.text = "E6001" ↔ cause = divisionByZero := by
  cases cause <;> simp [code, Report.Code.text]

def message : Cause → String
  | divisionByZero => "integer division by zero"
  | outOfBounds address length size =>
    "access of " ++ toString length ++ " bytes at address "
      ++ toString address ++ " is outside memory of "
      ++ toString size ++ " bytes"
  | noEntry entry => "no method `" ++ entry ++ "` to run"
  | argumentCount entry expected found =>
    "`" ++ entry ++ "` takes " ++ toString expected
      ++ " argument(s) but " ++ toString found ++ " were given"
  | notEvaluable what => what.text ++ " cannot be evaluated"
  | missingHost moduleName function =>
    "no host function registered for import `" ++ moduleName ++ "."
      ++ function ++ "`"
  | hostFailure moduleName function message =>
    "host function `" ++ moduleName ++ "." ++ function
      ++ "` failed: " ++ message
  | callDepth limit => "call depth exceeded " ++ toString limit ++ " frames"

end Cause

/- A cause and the innermost function that it stopped. -/
structure Trap where
  cause : Cause
  function : Option String := none
deriving DecidableEq

namespace Trap

/- Say which function a trap stopped, unless it is known. -/
def inFunction (t : Trap) (name : String) : Trap :=
  { t with function := some (t.function.getD name) }

def text (t : Trap) : String :=
  t.cause.message ++ (match t.function with
        | some name => " (in `" ++ name ++ "`)"
        | none => "")

def report (t : Trap) : Report.Diagnostic :=
  let d := Report.Diagnostic.error t.cause.code t.cause.message
  match t.function with
  | some name => d.note ("while evaluating `" ++ name ++ "`")
  | none => d

end Trap

end RubyWat.Machine
