import RubyWat.Dump.Reader
import RubyWat.Report.Diagnostic

/-
  Causes of failed compilations, and their wording.

  A fault says what went wrong with the names that matter already in words; how it is told
  stands here and nowhere else.
-/

-- Constructs And Names

namespace RubyWat

open Dump

inductive Construct where
  | singletonClass
  | floatLiteral
  | nilLiteral
  | interpolation
  | conditionalAssignment
  | arrayLiteral
  | outsideDirective (tag : Tag)
  | statementPosition (tag : Tag)
  | unknownNode (word : String)
  | branchValue (tag : Tag)
  | severalResults
  | emptyAssignment
  | classValue
  | foreignSingleton
  | parameter (tag : Tag)
  | foreignConstant
  | assignmentTarget (tag : Tag)

def Construct.text : Construct → String
  | singletonClass => "`class << self` blocks"
  | floatLiteral => "floating point literals"
  | nilLiteral => "`nil`"
  | interpolation => "interpolated strings"
  | conditionalAssignment => "`||=` and `&&=`"
  | arrayLiteral => "array literals"
  | outsideDirective tag => "`" ++ tag.text ++ "` outside of a directive"
  | statementPosition tag => "`" ++ tag.text ++ "` in statement position"
  | unknownNode word => "`" ++ word ++ "` nodes"
  | branchValue tag => "`" ++ tag.text ++ "` with a value"
  | severalResults => "returning several values"
  | emptyAssignment => "assignment without a value"
  | classValue => "a class used as a value"
  | foreignSingleton => "singleton methods on anything but `self`"
  | parameter tag => "`" ++ tag.text ++ "` parameters"
  | foreignConstant => "assigning a constant of another namespace"
  | assignmentTarget tag => "`" ++ tag.text ++ "` as an operator-assignment target"

inductive NameKind where
  | constant
  | localVar
  | instanceVar
  | classVar
  | globalVar
deriving DecidableEq

namespace NameKind

def text : NameKind → String
  | constant => "constant"
  | localVar => "local variable"
  | instanceVar => "instance variable"
  | classVar => "class variable"
  | globalVar => "global"

/- A name as it is written in a program. -/
def written (kind : NameKind) (name : String) : String :=
  match kind with
  | constant | localVar => name
  | instanceVar => "@" ++ name
  | classVar => "@@" ++ name
  | globalVar => "$" ++ name

/- The code of a name that cannot be found. -/
def code : NameKind → Report.Code
  | constant => .unknownConstant
  | _ => .unknownVariable

end NameKind

inductive VariableUse where
  | localVar
  | readClassVar
  | assignClassVar
  | assignGlobal

def VariableUse.text : VariableUse → String
  | localVar => "a local variable"
  | readClassVar => "reading a class variable"
  | assignClassVar => "assigning a class variable"
  | assignGlobal => "assigning a declared global"

/- Shapes of code that the compiler builds itself. -/
inductive Assumption where
  | operatorReceiver (name : String)
  | machineOperand
  | conditionalArms
  | branchCondition
  | loopBlock
  | logicalOperands
  | accessorType
  | initializer
  | operand (tag : Tag)
  | assignment (tag : Tag)
  | callReceiver (name : String)
  | constructor
  | nodeHeight
  | unitCount

def Assumption.text : Assumption → String
  | operatorReceiver name => "operator `" ++ name ++ "` without a receiver"
  | machineOperand => "leading type is not native"
  | conditionalArms => "`if` node without arms"
  | branchCondition => "conditional branch without a condition"
  | loopBlock => "loop without its block"
  | logicalOperands => "logical operator without two operands"
  | accessorType => "accessor without a machine type"
  | initializer => "class without `initialize`"
  | operand tag => "`" ++ tag.text ++ "` is not an operand"
  | assignment tag => "`" ++ tag.text ++ "` is not an assignment"
  | callReceiver name => "call to `" ++ name ++ "` without a receiver"
  | constructor => "class without a `new` method"
  | nodeHeight => "syntax node higher than its tree"
  | unitCount => "more units than there are"

-- Faults

inductive Fault where
  | unreadable (error : ReadError)
  | malformed (error : Malformed)
  | unsupported (what : Construct) (span : Span)
  | unknownName (kind : NameKind) (name scope : String) (span : Span)
  | unknownLabel (label : String) (span : Span)
  | unknownParameter (method name : String) (span : Span)
  | unknownOperator (type name : String) (span : Span)
  | undefinedMethod (method : String) (span declared : Span)
  | moduleInstance (path : String) (span : Span)
  | notConstantName (tag : Tag) (span : Span)
  | unknownClass (path : String) (span : Span)
  | unknownType (name : String) (span : Span)
  | notModule (how path : String) (span : Span)
  | instanceScope (name scope : String) (span : Span)
  | classInMethod (kind method : String) (span : Span)
  | methodInMethod (name method : String) (span : Span)
  | constantInMethod (name scope : String) (span : Span)
  | variableScope (use : VariableUse) (scope : String) (span : Span)
  | returnScope (span : Span)
  | statementScope (tag : Tag) (scope : String) (span : Span)
  | selfScope (scope : String) (span : Span)
  | callScope (name scope : String) (span : Span)
  | branchScope (keyword : String) (span : Span)
  | unfinishedModule (how path : String) (span defined : Span)
  | directiveScope (name scope allowed : String) (span : Span)
  | accessorScope (path : String) (span : Span)
  | invalidCast (source target : String) (span : Span)
  | unsupportedCast (source target : String) (span : Span)
  | blankCondition (span : Span)
  | blankAssignment (span : Span)
  | blankValue (tag : Tag) (span : Span)
  | classInitializer (name : String) (span : Span)
  | blankConstant (span : Span)
  | floatOperand (name : String) (span : Span)
  | floatConstant (span : Span)
  | inapplicable (type name : String) (span : Span)
  | pointerDifference (left right : String) (span : Span)
  | classArithmetic (span : Span)
  | resultMismatch (method expected found : String) (span : Span)
  | armMismatch (first second : String) (span : Span)
  | argumentCount (name : String) (expected found : Nat) (span : Span)
  | callMismatch (method : String) (span defined : Span)
  | conflict (kind : NameKind) (name : String) (span : Span)
  | exportTaken (name : String) (span : Span)
  | methodRedefined (method : String) (span first : Span)
  | duplicateParameter (name : String) (span : Span)
  | globalRedeclared (name : String) (span first : Span)
  | labelRedeclared (label : String) (address : Nat) (span : Span)
  | backwardAddress (source target : Nat) (span : Span)
  | kindMismatch (path kind wanted : String) (span first : Span)
  | superclassMismatch (path superclass : String) (span first : Span)
  | typeConflict (name type wanted : String) (span : Span)
  | importedBody (method : String) (span : Span)
  | notConstant (tag : Tag) (span : Span)
  | directiveArguments (directive expected : String) (span : Span)
  | unitNotFound (name searched : String) (span : Span)
  | unreadableFile (path reason : String) (span : Span)
  | emptyFrontend
  | frontendNotRun (command reason : String) (span : Span)
  | frontendFailed (path output : String)
  | frontendEncoding (path : String)
  | constantDivision (span : Span)
  | internal (what : Assumption)
  | redundant (kind : NameKind) (name : String) (span : Span)

-- Wording

namespace Fault

open Report.Diagnostic (error warning)

/- A text between backticks. -/
def ticked (s : String) : String :=
  "`" ++ s ++ "`"

/- What may stand outside of methods. -/
def outsideNote : String :=
  "only declarations and directives may appear at class or root "
    ++ "scope"

def report : Fault → Report.Diagnostic
  -- Lookups that find nothing.
  | unknownName kind name scope span =>
    (error kind.code ("unknown " ++ kind.text ++ " "
        ++ ticked (kind.written name) ++ " in " ++ scope)).label span
      ("no " ++ kind.text ++ " named " ++ ticked (kind.written name))
  | unknownLabel label span =>
    (error .unknownVariable ("unknown data label " ++ ticked label)).label span
      "no data declared under this label"
  | unknownParameter method name span =>
    (error .unknownVariable (ticked method ++ " has no parameter " ++ ticked name)).label
      span "not a parameter"
  | unknownOperator type name span =>
    (error .unknownMethod ("unknown method " ++ ticked name ++ " for " ++ type)).label
      span "not a native operator"
  | undefinedMethod method span declared =>
    ((error .unknownMethod ("method " ++ ticked method
        ++ " is called but never defined")).label span
      "called here").secondaryLabel declared "declared here"
  | moduleInstance path span =>
    (error .unknownMethod ("module " ++ ticked path ++ " cannot be instantiated")).label
      span "`new` called on a module"
  | notConstantName tag span =>
    (error .unknownType ("expected a class or module name, found "
        ++ ticked tag.text)).label span "not a constant"
  | unknownClass path span =>
    (error .unknownType ("unknown class or module " ++ ticked path)).label span
      "not defined at this point"
  | unknownType name span =>
    (error .unknownType ("unknown type " ++ ticked name)).label span
      "expected I32, I64, F32, F64, none or a class"
  | notModule how path span =>
    (error .unknownType ("cannot " ++ how ++ " " ++ ticked path
        ++ ": it is a class, not a module")).label span "expected a module"
  -- Constructs in the wrong place.
  | instanceScope name scope span =>
    (error .instanceScope ("instance variable " ++ ticked ("@" ++ name) ++ " used in "
        ++ scope)).label span "instance variables need an instance method"
  | classInMethod kind method span =>
    (error .declarationScope (kind ++ " definition inside a method")).label span
      ("inside " ++ ticked method)
  | methodInMethod name method span =>
    (error .declarationScope ("method " ++ ticked name
        ++ " defined inside another method")).label span ("inside " ++ ticked method)
  | constantInMethod name scope span =>
    (error .declarationScope ("constant " ++ ticked name ++ " cannot be declared in "
        ++ scope)).label span "dynamic constant assignment"
  | variableScope use scope span =>
    (error .statementScope (use.text ++ " can only be used inside a method, not in "
        ++ scope)).label span "outside of any method"
  | returnScope span =>
    (error .statementScope "`return` outside of a method").label span "not inside a method"
  | statementScope tag scope span =>
    ((error .statementScope (ticked tag.text ++ " is not allowed in " ++ scope)).label span
      "executable statement outside of a method").note outsideNote
  | selfScope scope span =>
    (error .statementScope ("`self` has no value in " ++ scope)).label span
      "only instance methods have a receiver value"
  | callScope name scope span =>
    ((error .statementScope ("call to " ++ ticked name ++ " in " ++ scope)).label span
      "calls are only allowed inside a method").note outsideNote
  | branchScope keyword span =>
    (error .loopScope (ticked keyword ++ " outside of a loop")).label span
      "not inside `while` or `until`"
  | unfinishedModule how path span defined =>
    (((error .unfinishedModule ("module " ++ ticked path
        ++ " is used before it is fully defined")).label span
      (how ++ " used here")).secondaryLabel defined "module defined here").note
      "define the module completely before mixing it in"
  | directiveScope name scope allowed span =>
    (error .directiveScope (ticked name ++ " used in " ++ scope)).label span
      (ticked name ++ " is only allowed " ++ allowed)
  | accessorScope path span =>
    (error .directiveScope "accessors can only be declared in a class").label span
      (ticked path ++ " is a module")
  -- Values, operands and results of the wrong type.
  | invalidCast source target span =>
    (error .invalidCast ("cannot cast " ++ source ++ " to " ++ target)).label span
      ("this is " ++ source)
  | unsupportedCast source target span =>
    ((error .unsupportedOperation ("cast from " ++ source ++ " to " ++ target
        ++ " is not supported")).label span (source ++ " value here")).note
      "floating point conversions are not implemented"
  | blankCondition span =>
    (error .invalidCast "condition has no value").label span "this expression produces nothing"
  | blankAssignment span =>
    (error .invalidCast "cannot assign an expression that produces no value").label
      span "this produces nothing"
  | blankValue tag span =>
    (error .invalidCast (ticked tag.text ++ " produces no value")).label span
      "a value is needed here"
  | classInitializer name span =>
    (error .invalidCast ("a class cannot initialize " ++ ticked name)).label span
      "this is a class, not a value"
  | blankConstant span =>
    (error .invalidCast "cannot cast a constant to `none`").label span
      "a constant always has a value"
  | floatOperand name span =>
    (error .unsupportedOperation
      (ticked name ++ " on floating point values is not supported")).label span
      "floating point operand"
  | floatConstant span =>
    (error .unsupportedOperation "floating point constants are not supported").label span
      "cast to a floating point type"
  | inapplicable type name span =>
    (error .inapplicableOperator ("operator " ++ ticked name ++ " is not applicable to "
        ++ type)).label span ("receiver is " ++ type)
  | pointerDifference left right span =>
    (error .inapplicableOperator ("cannot subtract " ++ right ++ " from " ++ left)).label span
      "pointer difference needs two references of the same class"
  | classArithmetic span =>
    (error .inapplicableOperator "a class cannot be used in arithmetic").label span
      "this is a class"
  | resultMismatch method expected found span =>
    ((error .resultMismatch ("method " ++ ticked method ++ " returns " ++ expected
        ++ " but its body produces " ++ found)).label span ("this produces " ++ found)).suggest
      ("declare the result type with " ++ ticked ("result :" ++ found))
  | armMismatch first second span =>
    (error .armMismatch ("`if` arms have different types: " ++ first ++ " and "
        ++ second)).label span "both arms must produce the same type"
  | argumentCount name expected found span =>
    (error .argumentCount (ticked name ++ " takes " ++ toString expected ++ " argument"
        ++ (if expected = 1 then "" else "s") ++ ", " ++ toString found ++ " given")).label span
      "wrong number of arguments"
  | callMismatch method span defined =>
    (((error .argumentCount ("call does not match the definition of " ++ ticked method)).label span
      ("called before the definition with different "
        ++ "arguments")).secondaryLabel defined "defined here").suggest
      ("declare the method before calling it, or declare its types " ++ "with `result` and `arg`")
  -- Declarations that contradict earlier ones.
  | conflict kind name span =>
    (error .conflictingDeclaration (kind.text ++ " " ++ ticked (kind.written name)
        ++ " is already declared with a different value")).label span "conflicting declaration"
  | exportTaken name span =>
    (error .conflictingDeclaration ("export name " ++ ticked name ++ " is already used")).label
      span "exported again here"
  | methodRedefined method span first =>
    ((error .conflictingDeclaration ("method " ++ ticked method ++ " is already defined")).label
      span "redefined here").secondaryLabel first "first defined here"
  | duplicateParameter name span =>
    (error .conflictingDeclaration ("duplicate parameter " ++ ticked name)).label span
      "declared twice"
  | globalRedeclared name span first =>
    ((error .duplicateGlobal ("global " ++ ticked ("$" ++ name)
        ++ " is already declared")).label span "declared again here").secondaryLabel first
      "first declared here"
  | labelRedeclared label address span =>
    ((error .duplicateLabel ("data label " ++ ticked label ++ " already declared at address "
        ++ toString address)).label span "redeclared here").suggest
      ("use " ++ ticked ("DAta.append(:" ++ label ++ ", ...)") ++ " to extend it")
  | backwardAddress source target span =>
    (error .backwardAddress ("cannot move data address back from " ++ toString source
        ++ " to " ++ toString target)).label span "address already in use"
  | kindMismatch path kind wanted span first =>
    ((error .conflictingType (ticked path ++ " is a " ++ kind ++ ", not a " ++ wanted)).label
      span ("reopened as a " ++ wanted)).secondaryLabel first "first defined here"
  | superclassMismatch path superclass span first =>
    ((error .conflictingType ("superclass mismatch for class " ++ ticked path)).label span
      ("declared with superclass " ++ ticked superclass)).secondaryLabel first "first defined here"
  | typeConflict name type wanted span =>
    (error .conflictingType (ticked name ++ " already has type " ++ type)).label span
      ("declared as " ++ wanted)
  | importedBody method span =>
    (error .importedBody ("imported method " ++ ticked method ++ " has a body")).label
      span "only directives may appear in an imported method"
  | redundant kind name span =>
    (warning .redundantDeclaration (kind.text ++ " " ++ ticked (kind.written name)
        ++ " is declared again with the same value")).label span "redundant declaration"
  -- Input that cannot be found, read or taken.
  | unreadable e =>
    (error .unreadableDump ("cannot read AST dump: " ++ e.fault.text)).label e.span e.fault.text
  | malformed e =>
    (error .malformedNode ("malformed " ++ ticked e.tag.text
        ++ " node: expected " ++ e.expected.text)).label e.span "in this node"
  | unsupported what span =>
    (error .unsupportedConstruct ("unsupported construct: " ++ what.text)).label span
      "not supported by the compiler"
  | notConstant tag span =>
    ((error .unsupportedConstruct (ticked tag.text ++ " is not a compile-time constant")).label
      span "declarations need a value known at compile time").note
      ("use literals, constants, operators on them, `cast_to` or " ++ "`DAta[:label]`")
  | directiveArguments directive expected span =>
    (error .directiveArguments ("invalid arguments to " ++ ticked directive ++ ": expected "
        ++ expected)).label span "in this directive"
  | unitNotFound name searched span =>
    ((error .unitNotFound ("cannot find unit " ++ ticked name)).label span
      "required here").note ("searched: " ++ searched)
  | unreadableFile path reason span =>
    (error .unitNotFound ("cannot read " ++ ticked path ++ ": " ++ reason)).label span
      "required here"
  | emptyFrontend => error .unitNotFound "empty front-end command"
  | frontendNotRun command reason span =>
    (error .unitNotFound ("cannot run front end " ++ ticked command ++ ": "
        ++ reason)).label span "required here"
  | frontendFailed path output =>
    (error .unreadableDump ("front end failed on " ++ ticked path)).note output
  | frontendEncoding path =>
    error .unreadableDump ("front end output for " ++ ticked path ++ " is not UTF-8")
  | constantDivision span =>
    (error .divisionByZero "division by zero in a constant expression").label span "divisor is zero"
  -- Assumptions of the compiler that turn out wrong.
  | internal what =>
    (error .internal what.text).note "this is a bug in the compiler"

end Fault

/- A fault and the unit it belongs to, once that is known. -/
structure Failure where
  fault : Fault
  file : Option String := none

namespace Failure

/- Say which unit a failure belongs to, unless it is known. -/
def inFile (f : Failure) (file : String) : Failure :=
  { f with file := some (f.file.getD file) }

def report (f : Failure) : Report.Diagnostic :=
  { f.fault.report with file := f.file }

end Failure

end RubyWat
