import RubyWat.Report.Code

/- Long explanations of codes. -/

-- Explanations

namespace RubyWat.Report

namespace Code

def explanation : Code → String
  | unknownConstant =>
    "A constant was referenced that is not defined in the current class, any lexically enclosing "
      ++ "class or module, or at the root.\n\nConstants must be assigned (`C = 10`) before they "
      ++ "are read. Paths such as `A::B::C` are resolved segment by segment starting from the "
      ++ "innermost scope."
  | unknownVariable =>
    "A variable was read before anything assigned or declared it.\n\nLocals are created by their "
      ++ "first assignment or by `local name: :Type`. Class variables and globals must be declared "
      ++ "at class or root scope before methods read them."
  | unknownMethod =>
    "A method was called that no class in the receiver's ancestry defines.\n\nLookup searches "
      ++ "prepended modules, the class itself, included modules and then the superclass chain. "
      ++ "Class methods also search extended modules. The error is also raised after parsing when "
      ++ "a called method was declared (for instance by a forward `result` directive) but never "
      ++ "implemented or imported."
  | unknownType =>
    "A class, module or type name could not be resolved.\n\nType names are `:I32`, `:I64`, `:F32`, "
      ++ "`:F64`, `:none` or the path of a class defined earlier in the unit."
  | instanceScope =>
    "Instance variables (`@x`) only exist inside instance methods, where the receiver `self` gives "
      ++ "them an address."
  | declarationScope =>
    "Constants, class variables and globals are declared at class or root scope, with a "
      ++ "compile-time constant initializer. Inside a method they can only be read or updated."
  | statementScope =>
    "Only declarations and directives may appear directly in a class body or at the root of a "
      ++ "unit. Executable code belongs inside a method."
  | loopScope =>
    "`break` and `next` must appear inside a `while` or `until` loop."
  | unfinishedModule =>
    "A module passed to `include`, `prepend` or `extend` must be completely defined before the "
      ++ "class body that uses it. Move the module definition (or its `require`) above the class."
  | directiveScope =>
    "A compiler directive was used where it has no meaning, for example `arg` outside a method or "
      ++ "`attr_reader` outside a class."
  | invalidCast =>
    "The two types have no conversion between them. Native integers convert to and from class "
      ++ "references (pointer arithmetic); blank values convert to nothing."
  | unsupportedOperation =>
    "The operation is representable but not implemented. Floating point values may be declared and "
      ++ "stored, but arithmetic and conversions on them are not supported."
  | inapplicableOperator =>
    "The operator cannot be applied to these operands. On class references only `+`, `-` and the "
      ++ "relational operators are defined, and native operators take exactly one argument."
  | resultMismatch =>
    "The value produced by the method body does not match the declared result type. A method whose "
      ++ "last expression produces no value must declare `result :none`."
  | armMismatch =>
    "Both branches of a conditional used as a value must have the same type."
  | argumentCount =>
    "The number of arguments does not match the method's parameter list."
  | conflictingDeclaration =>
    "A constant or class variable was assigned again with a different value. Assigning the same "
      ++ "value again only produces a warning."
  | duplicateGlobal =>
    "A global variable can be declared only once per compilation unit."
  | duplicateLabel =>
    "A static data label was declared twice. Use `DAta.append(:label, value)` to add more values "
      ++ "under an existing label."
  | backwardAddress =>
    "`DAta.address = n` may only move the static data cursor forward; moving it backward would "
      ++ "overlap data that is already placed."
  | conflictingType =>
    "A variable or attribute was given two different types. A slot's type is fixed by its first "
      ++ "declaration or assignment."
  | importedBody =>
    "A method marked with `import` is provided by the host; its body may contain only directives."
  | unsupportedConstruct =>
    "The input contains a construct the compiler cannot translate, such as `nil`, floating point "
      ++ "literals, string interpolation, `||=` or singleton class bodies."
  | malformedNode =>
    "A syntax node does not have the children the compiler expects. This usually means the AST "
      ++ "dump was produced by an incompatible parser."
  | unreadableDump =>
    "The AST dump could not be read: unbalanced parentheses, a bad string escape or an unexpected "
      ++ "character."
  | directiveArguments =>
    "A compiler directive received arguments of the wrong shape, for example `arg x: 5` instead of "
      ++ "`arg x: :I64`."
  | unitNotFound =>
    "A `require` or `require_relative` target was not found on the load path."
  | divisionByZero =>
    "The evaluated program divided an integer by zero."
  | outOfBounds =>
    "The evaluated program read or wrote outside its linear memory."
  | entryNotFound =>
    "The method named as entry point does not exist in the compiled unit."
  | notEvaluable =>
    "The evaluator cannot execute this instruction (for example an inline instruction escape)."
  | missingHost =>
    "The program calls an imported function but no host function was registered for it."
  | callDepth =>
    "The evaluated program recursed deeper than the evaluator allows."
  | internal =>
    "The compiler reached a state it considers impossible. Please report it with the input that "
      ++ "triggered it."
  | redundantDeclaration =>
    "A constant or class variable was assigned again with the value it already has. The second "
      ++ "assignment has no effect."
end Code

end RubyWat.Report
