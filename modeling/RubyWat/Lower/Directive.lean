import RubyWat.Lower.Call

/- Directives: calls that the compiler carries out itself. -/

-- Directives

namespace RubyWat

open Build Dump

open Code (NodeId)

/- Which accessors a directive declares. -/
inductive Accessor where
  | reader
  | writer
  | both

/- What a call without a receiver may direct. -/
inductive Directive where
  | arg
  | localVar
  | result
  | exportName
  | importName
  | accessor (which : Accessor)
  | attrType
  | inlineText
  | mixin (how : Mixin)
  | require (relative : Bool)

namespace Directive

def ofName? : String → Option Directive
  | "arg" => some arg
  | "local" => some localVar
  | "result" => some result
  | "export" => some exportName
  | "import" => some importName
  | "attr_reader" => some (accessor .reader)
  | "attr_writer" => some (accessor .writer)
  | "attr_accessor" => some (accessor .both)
  | "attr_type" => some attrType
  | "inline" => some inlineText
  | "include" => some (mixin .include)
  | "prepend" => some (mixin .prepend)
  | "extend" => some (mixin .extend)
  | "require" => some (require false)
  | "require_relative" => some (require true)
  | _ => none

end Directive

-- Scopes

namespace Lower

def wrongScope {α : Type} (parent : NodeId) (name allowed : String) (span : Span) :
    Lower α := do
  refuse (.directiveScope name ((← context).describeScope parent) allowed span)

def directiveMethod (parent : NodeId) (name : String) (span : Span) : Lower MethodId := do
  match (← context).methodOf? parent with
  | some m => return m
  | none => wrongScope parent name "inside a method" span

def directiveClass (parent : NodeId) (name : String) (span : Span) : Lower ClassId := do
  match (← context).scopeOf parent with
  | .inClass c => return c
  | _ => wrongScope parent name "in a class body" span

/- A directive that may not stand in a method. -/
def directiveOutside (parent : NodeId) (name : String) (span : Span) : Lower Unit := do
  if ((← context).methodOf? parent).isSome then wrongScope parent name "at class or root scope" span

-- Types Of Slots And Results

def typeParameter (m : MethodId) (slot : TypedName) : Build Unit := do
  let p ← Build.program
  match (p.method m).setParamType? slot.name slot.ty with
  | some x => Build.modifyMethod m fun _ => x
  | none => throw (.unknownParameter (p.describeMethod m) slot.name slot.span)

def typeLocal (m : MethodId) (slot : TypedName) : Build Unit := do
  match ((← Build.program).method m).slotType? slot.name with
  | some found =>
    if found ≠ slot.ty then
      throw (.typeConflict slot.name (← Build.describe found) (← Build.describe slot.ty) slot.span)
  | none => let _ ← Build.declareLocal m slot.name slot.ty

/- The method that a result is declared ahead for. -/
def forwardMethod (parent : NodeId) (name : String) (span : Span) : Build MethodId := do
  let ctx ← get
  let c := ctx.classOf parent
  match name.toList with
  | 's' :: 'e' :: 'l' :: 'f' :: '.' :: rest =>
    declare (·.declareMethod c (String.ofList rest) .onClass span)
  | _ =>
    let scope :=
      if ctx.scopeOf parent = .root then MethodScope.onClass
      else .onInstance
    declare (·.declareMethod c name scope span)

/- The method and the type that a result directive names. -/
def resultTarget (parent : NodeId) (args : List Node) (span : Span) :
    Lower (MethodId × ValueType) := do
  match (← context).scopeOf parent, args with
  | .inMethod m, [ty] => return (m, ← typeArgument parent ty)
  | .inMethod _, _ => badArguments "result" "a type" span
  | _, [name, ty] =>
    let name ← nameArgument "result" name
    let ty ← typeArgument parent ty
    return (← forwardMethod parent name span, ty)
  | _, _ => badArguments "result" "a method name and a type" span

def resultDirective (parent : NodeId) (args : List Node) (span : Span) : Lower Unit := do
  let (m, ty) ← resultTarget parent args span
  modifyMethod m fun x =>
    { x with
      result := ty
      flags := { x.flags with declaredResult := true } }

-- Exports And Imports

def defaultName (p : Program) : ExportTarget → String
  | .method m => p.defaultExportName m
  | .globalVar g => (p.globalVar g).name

def exportAs (target : ExportTarget) (name : Option String) (span : Span) : Build Unit := do
  let name := name.getD (defaultName (← Build.program) target)
  Build.tryDeclare fun p => (p.addExport target name span).map fun p => ((), p)
  match target with
  | .method m => Build.modifyFlags m ({ · with exported := true })
  | .globalVar _ => pure ()

def exportPending (target : ExportTarget) : Lower Unit := do
  match (← get).pending with
  | none => pure ()
  | some pending =>
    modify fun s => { s with pending := none }
    exportAs target pending.name pending.span

def exportDirective (parent : NodeId) (args : List Node) (span : Span) : Lower Unit := do
  let name ←
    match args with
    | [] => pure none
    | [name] => some <$> nameArgument "export" name
    | _ => badArguments "export" "at most one export name" span
  match (← context).methodOf? parent with
  | some m => exportAs (.method m) name span
  | none =>
    if (← get).pending.isSome then
      badArguments "export"
        "a definition between two `export` directives" span
    modify fun s => { s with pending := some ⟨name, span⟩ }

def importDirective (m : MethodId) (args : List Node) (span : Span) : Lower Unit := do
  match args with
  | [moduleName, function] =>
    let moduleName ← nameArgument "import" moduleName
    let function ← nameArgument "import" function
    modifyMethod m fun x =>
      { x with
        binding := some (moduleName, function)
        flags := { x.flags with imported := true } }
  | _ => badArguments "import" "a module and a function name" span

-- Accessors And Mixins

def accessorDirective (c : ClassId) (name : String) (which : Accessor)
    (args : List Node) (span : Span) : Lower Unit := do
  if args.isEmpty then badArguments name "at least one attribute name" span
  let (reader, writer) :=
    match which with
    | .reader => (true, false)
    | .writer => (false, true)
    | .both => (true, true)
  for arg in args do
    let attr ← nameArgument name arg
    declareAttr c attr reader writer arg.span

def mixinDirective (parent : NodeId) (how : Mixin) (args : List Node) (span : Span) :
    Lower Unit := do
  directiveOutside parent how.keyword span
  if args.isEmpty then badArguments how.keyword "a module" span
  let c := (← context).classOf parent
  for arg in args do
    let mixed ← classReference parent arg
    tryDeclare fun p => (p.mixIn c mixed how arg.span).map fun p => ((), p)

-- Raw Text And Units

/- What the keywords of raw text say. -/
structure InlineText where
  text : Option String := none
  ty : ValueType := .none

/- Read the keywords of raw text in order. -/
def inlineKeywords (parent : NodeId) :
    List (String × Node) → InlineText → Lower InlineText
  | [], found => return found
  | (key, node) :: rest, found => do
      match key with
      | "wat" =>
        let text := Text.Utf8.decodeLossy (← node.strAt 0)
        inlineKeywords parent rest { found with text := some text }
      | "wtype" =>
        let ty ← typeArgument parent node
        inlineKeywords parent rest { found with ty }
      | "ruby" => inlineKeywords parent rest found
      | _ => badArguments "inline" "`wat:` and `wtype:` keywords" node.span

def inlineDirective (parent : NodeId) (args : List Node) (span : Span) :
    Lower NodeId := do
  let _ ← directiveMethod parent "inline" span
  let pairs :=
    match args with
    | [keywords] => keywords.pairs?
    | _ => none
  match pairs with
  | none => badArguments "inline" "`wat:` and `wtype:` keywords" span
  | some pairs =>
    let found ← inlineKeywords parent pairs {}
    match found.text with
    | none => badArguments "inline" "a `wat:` string" span
    | some text => addNodeAt parent (.inline text) found.ty span

/- Compile another unit first, unless that has been done. -/
def requireDirective (d : Descent) (parent : NodeId) (name : String)
    (relative : Bool) (args : List Node) (span : Span) : Lower Unit := do
  directiveOutside parent name span
  match args with
  | [unitName] =>
    let unitName ← nameArgument name unitName
    let asking := (← get).asking
    match ← Load.require unitName asking relative span with
    | some unit => d.unit unit
    | none => pure ()
  | _ => badArguments name "a unit name" span

-- Dispatch

/- Carry out a directive.  Only raw text leaves a node. -/
def directive (d : Descent) (parent : NodeId) (which : Directive)
    (name : String) (args : List Node) (span : Span) : Lower (Option NodeId) := do
  match which with
  | .arg =>
    let m ← directiveMethod parent name span
    for slot in ← typedNames parent name args span do
      typeParameter m slot
    return none
  | .localVar =>
    let m ← directiveMethod parent name span
    for slot in ← typedNames parent name args span do
      typeLocal m slot
    return none
  | .result =>
    resultDirective parent args span
    return none
  | .exportName =>
    exportDirective parent args span
    return none
  | .importName =>
    let m ← directiveMethod parent name span
    importDirective m args span
    return none
  | .accessor which =>
    let c ← directiveClass parent name span
    accessorDirective c name which args span
    return none
  | .attrType =>
    let c ← directiveClass parent name span
    for slot in ← typedNames parent name args span do
      attrType c slot.name slot.ty slot.span
    return none
  | .inlineText => some <$> inlineDirective parent args span
  | .mixin how =>
    mixinDirective parent how args span
    return none
  | .require relative =>
    requireDirective d parent name relative args span
    return none

end Lower

end RubyWat
