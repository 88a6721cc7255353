import RubyWat.Text.Blank

/-
  Codes of errors and warnings.

  A code is a letter and four digits.  The letter and the first
  digit say which family of failures the code belongs to.
-/

-- Codes

namespace RubyWat.Report

/- Every failure that the compiler and the evaluator report. -/
inductive Code where
  | unknownConstant
  | unknownVariable
  | unknownMethod
  | unknownType
  | instanceScope
  | declarationScope
  | statementScope
  | loopScope
  | unfinishedModule
  | directiveScope
  | invalidCast
  | unsupportedOperation
  | inapplicableOperator
  | resultMismatch
  | armMismatch
  | argumentCount
  | conflictingDeclaration
  | duplicateGlobal
  | duplicateLabel
  | backwardAddress
  | conflictingType
  | importedBody
  | unsupportedConstruct
  | malformedNode
  | unreadableDump
  | directiveArguments
  | unitNotFound
  | divisionByZero
  | outOfBounds
  | entryNotFound
  | notEvaluable
  | missingHost
  | callDepth
  | internal
  | redundantDeclaration
deriving DecidableEq, Inhabited

inductive Family where
  | lookup
  | scope
  | typing
  | redeclaration
  | input
  | evaluation
  | internal
  | warning
deriving DecidableEq

-- Written Form

namespace Code

def text : Code → String
  | unknownConstant => "E1001"
  | unknownVariable => "E1002"
  | unknownMethod => "E1003"
  | unknownType => "E1004"
  | instanceScope => "E2001"
  | declarationScope => "E2002"
  | statementScope => "E2003"
  | loopScope => "E2004"
  | unfinishedModule => "E2005"
  | directiveScope => "E2006"
  | invalidCast => "E3001"
  | unsupportedOperation => "E3002"
  | inapplicableOperator => "E3003"
  | resultMismatch => "E3004"
  | armMismatch => "E3005"
  | argumentCount => "E3006"
  | conflictingDeclaration => "E4001"
  | duplicateGlobal => "E4002"
  | duplicateLabel => "E4003"
  | backwardAddress => "E4004"
  | conflictingType => "E4005"
  | importedBody => "E4006"
  | unsupportedConstruct => "E5001"
  | malformedNode => "E5002"
  | unreadableDump => "E5003"
  | directiveArguments => "E5004"
  | unitNotFound => "E5005"
  | divisionByZero => "E6001"
  | outOfBounds => "E6002"
  | entryNotFound => "E6003"
  | notEvaluable => "E6004"
  | missingHost => "E6005"
  | callDepth => "E6006"
  | internal => "E9001"
  | redundantDeclaration => "W4001"

def family : Code → Family
  | unknownConstant | unknownVariable | unknownMethod
  | unknownType => .lookup
  | instanceScope | declarationScope | statementScope
  | loopScope | unfinishedModule | directiveScope => .scope
  | invalidCast | unsupportedOperation | inapplicableOperator
  | resultMismatch | armMismatch | argumentCount => .typing
  | conflictingDeclaration | duplicateGlobal | duplicateLabel
  | backwardAddress | conflictingType
  | importedBody => .redeclaration
  | unsupportedConstruct | malformedNode | unreadableDump
  | directiveArguments | unitNotFound => .input
  | divisionByZero | outOfBounds | entryNotFound
  | notEvaluable | missingHost | callDepth => .evaluation
  | internal => .internal
  | redundantDeclaration => .warning

/- One line that says what a code stands for. -/
def summary : Code → String
  | unknownConstant => "unknown constant"
  | unknownVariable => "unknown variable"
  | unknownMethod => "unknown method"
  | unknownType => "unknown class, module or type"
  | instanceScope => "instance variable used outside an instance method"
  | declarationScope => "declaration is only allowed at class or root scope"
  | statementScope => "statement is only allowed inside a method"
  | loopScope => "branch outside of a loop"
  | unfinishedModule => "module used before it is fully defined"
  | directiveScope => "directive used in the wrong scope"
  | invalidCast => "invalid cast"
  | unsupportedOperation => "operation not supported for this type"
  | inapplicableOperator => "operator not applicable to operand types"
  | resultMismatch => "method result does not match its declared type"
  | armMismatch => "conditional branches have different types"
  | argumentCount => "wrong number of arguments"
  | conflictingDeclaration => "conflicting redeclaration"
  | duplicateGlobal => "global variable already declared"
  | duplicateLabel => "data label already declared"
  | backwardAddress => "static data address cannot move backward"
  | conflictingType => "conflicting type declaration"
  | importedBody => "imported method must have an empty body"
  | unsupportedConstruct => "unsupported construct"
  | malformedNode => "malformed syntax node"
  | unreadableDump => "syntax error in AST dump"
  | directiveArguments => "invalid directive arguments"
  | unitNotFound => "source unit not found"
  | divisionByZero => "integer division by zero"
  | outOfBounds => "out-of-bounds memory access"
  | entryNotFound => "entry point not found"
  | notEvaluable => "instruction cannot be evaluated"
  | missingHost => "missing host function for import"
  | callDepth => "call depth exhausted"
  | internal => "internal compiler error"
  | redundantDeclaration => "identical redeclaration"

-- Reading

def all : List Code :=
  [unknownConstant, unknownVariable, unknownMethod, unknownType,
   instanceScope, declarationScope, statementScope, loopScope,
   unfinishedModule, directiveScope, invalidCast,
   unsupportedOperation, inapplicableOperator, resultMismatch,
   armMismatch, argumentCount, conflictingDeclaration,
   duplicateGlobal, duplicateLabel, backwardAddress,
   conflictingType, importedBody, unsupportedConstruct,
   malformedNode, unreadableDump, directiveArguments,
   unitNotFound, divisionByZero, outOfBounds, entryNotFound,
   notEvaluable, missingHost, callDepth, internal,
   redundantDeclaration]

/-
  The code with a written form, in either case and with blanks around it.  ASCII letters are the
  only ones whose capital form is a letter of a code.
-/
def ofText? (s : String) : Option Code :=
  let wanted := String.ofList ((Text.trim s).toList.map Char.toUpper)
  all.find? fun code => code.text == wanted

end Code

end RubyWat.Report
