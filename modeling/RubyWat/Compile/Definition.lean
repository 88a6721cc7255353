import RubyWat.Compile.Branch
import RubyWat.Compile.Call

/-
  Class bodies, method definitions and provided methods.

  Closing a class provides the methods that every class has unless the program wrote them: its
  size, an initializer that does nothing, a constructor, and the accessors of its attributes.
  Closing it again provides them anew, so that they see the final layout.
-/

-- Class Bodies

namespace RubyWat.Build

open Code (NodeId)

/- Open the body of a class that lies in a given class. -/
def beginClassIn (parent : NodeId) (lexical : ClassId) (name : String)
    (kind : ClassKind) (superclass : Option ClassId) (span : Span) :
    Build (ClassId × NodeId) := do
  let ctx ← get
  match ctx.methodOf? parent with
  | some m => throw (.classInMethod kind.keyword (ctx.program.describeMethod m) span)
  | none =>
    let c ← tryDeclare (·.defineClass name lexical kind superclass span)
    let body ← addNodeAt parent (.classBody c) .none span
    return (c, body)

/- Open the body of a class that lies where it stands. -/
def beginClass (parent : NodeId) (name : String) (kind : ClassKind)
    (superclass : Option ClassId) (span : Span) : Build (ClassId × NodeId) := do
  beginClassIn parent ((← get).classOf parent) name kind superclass span

-- Method Definitions

def discardBody (m : MethodId) : Build Unit := do
  match ((← program).method m).body with
  | some old =>
    modifyMethod m fun x => { x with body := none }
    modifyTree (·.detach old)
  | none => pure ()

/- Forget what the compiler provided for a method. -/
def forgetProvided (m : MethodId) : Build Unit := do
  if ((← program).method m).flags.synthesized then
    discardBody m
    modifyMethod m fun x => { x with flags := {}, result := .i32 }

/-
  A method in the state that its definition starts from.  An
  initializer gives nothing unless its result is declared.
-/
def startedMethod (node : NodeId) (span : Span) (m : Method) : Method :=
  { m with
    params := []
    locals := []
    body := some node
    span
    flags := { m.flags with implemented := true }
    result :=
      if m.name = "initialize" ∧ m.isInstance
          ∧ !m.flags.declaredResult then
        .none
      else m.result }

/-
  Start the definition of a method.  What declarations say of
  its result stays; parameters that calls made up do not.
-/
def beginMethod (parent : NodeId) (c : ClassId) (name : String)
    (scope : MethodScope) (span : Span) : Build (MethodId × NodeId) := do
  let ctx ← get
  match ctx.methodOf? parent with
  | some outer => throw (.methodInMethod name (ctx.program.describeMethod outer) span)
  | none =>
    let m ← declare (·.declareMethod c name scope span)
    let p ← program
    let x := p.method m
    if x.flags.implemented && !x.flags.synthesized then
      throw (.methodRedefined (p.describeMethod m) span x.span)
    forgetProvided m
    let node ← addNodeAt parent (.function m) .none span
    modifyMethod m (startedMethod node span)
    return (m, node)

def methodParam (m : MethodId) (name : String) (span : Span) : Build Unit := do
  let x := (← program).method m
  if (x.param? name).isSome || name == receiverName then throw (.duplicateParameter name span)
  modifyMethod m (·.addParam name .i32)

def dropImportedBody (m : MethodId) (node : NodeId) : Build Unit := do
  modifyTree (·.detach node)
  modifyMethod m fun x =>
    { x with
      body := none
      flags := { x.flags with implemented := false } }

/- Make the last value of a body fit the result. -/
def fitLast (m : MethodId) (last : NodeId) : Build Unit := do
  let expected := ((← program).method m).result
  let found ← tyOf last
  let span ← spanOf last
  if expected.isNone then let _ ← keepOrDrop last false
  else if (Conversion.between found expected).isAllowed then let _ ← cast last expected true span
  else resultMismatch m found span

def finishMethod (m : MethodId) (node : NodeId) : Build Unit := do
  let x := (← program).method m
  if x.flags.imported then dropImportedBody m node
  else
    match (← tree).lastChild? node with
    | none => if !x.result.isNone then resultMismatch m .none (← spanOf node)
    | some last => if !(← instrOf last).isTerminator then fitLast m last

-- Provided Methods

/- Declare a method that the compiler provides, unless the program has its own. -/
def declareProvided (c : ClassId) (name : String) (scope : MethodScope) (span : Span) :
    Build (Option MethodId) := do
  let m ← declare (·.declareMethod c name scope span)
  let flags := ((← program).method m).flags
  if !flags.synthesized && (flags.implemented || flags.imported) then return none
  else
    modifyFlags m ({ · with synthesized := true })
    return some m

/- An empty new body for a provided method. -/
def regenerate (m : MethodId) (classBody : NodeId) : Build NodeId := do
  discardBody m
  let node ← addNode classBody (.function m) .none
  modifyMethod m fun x =>
    { x with
      body := some node
      flags := { x.flags with implemented := true, synthesized := true } }
  return node

/- The method of a class itself if the compiler provides it. -/
def provided? (c : ClassId) (name : String) (scope : MethodScope) : Build (Option MethodId) := do
  let p ← program
  return (p.ownMethod? c name scope).filter fun m => (p.method m).flags.synthesized

def provideSize (c : ClassId) (body : NodeId) : Build Unit := do
  let m ← sizeMethod c
  if ((← program).method m).flags.synthesized then
    modifyMethod m fun x => { x with result := .i32 }
    let node ← regenerate m body
    let _ ← addNode node (.layout (.size c)) .i32

def inheritsInitializer (c : ClassId) : Build Bool := do
  let p ← program
  return (p.instanceMethod? c "initialize").any
    fun m => (p.method m).owner ≠ c

def provideInitialize (c : ClassId) (body : NodeId) : Build Unit := do
  if !(← inheritsInitializer c) then
    match ← declareProvided c "initialize" .onInstance .generated with
    | none => pure ()
    | some m =>
      if !((← program).method m).flags.implemented then
        modifyMethod m fun x => { x with result := .none }
        let _ ← regenerate m body

-- Accessors

def writerName (name : String) : String :=
  name ++ "="

def typeReader (m : MethodId) (ty : ValueType) : Build Unit :=
  modifyMethod m fun x => { x with result := ty }

def typeWriter (m : MethodId) (ty : ValueType) : Build Unit :=
  modifyMethod m fun x => { x with result := .none, params := [⟨"value", ty⟩] }

def refreshAccessorTypes (c : ClassId) (name : String) : Build Unit := do
  match ((← program).cls c).ivar? name with
  | none => pure ()
  | some ivar =>
    match ← provided? c name .onInstance with
    | some m => typeReader m ivar.ty
    | none => pure ()
    match ← provided? c (writerName name) .onInstance with
    | some m => typeWriter m ivar.ty
    | none => pure ()

def declareAttr (c : ClassId) (name : String) (reader writer : Bool) (span : Span) :
    Build Unit := do
  let p ← program
  if (p.cls c).isModule then throw (.accessorScope (p.classPath c) span)
  let _ ← declare (·.declareIvar c name .i32 false)
  modifyProgram (·.modifyClass c (·.declareAttr name reader writer))
  if reader then let _ ← declareProvided c name .onInstance span
  if writer then let _ ← declareProvided c (writerName name) .onInstance span
  refreshAccessorTypes c name

def attrType (c : ClassId) (name : String) (ty : ValueType) (span : Span) : Build Unit := do
  match ((← program).cls c).ivar? name with
  | some ivar =>
    if ivar.fixed && decide (ivar.ty ≠ ty) then
      throw (.typeConflict ("@" ++ name) (← describe ivar.ty) (← describe ty)
        span)
  | none => pure ()
  let _ ← declare (·.declareIvar c name ty true)
  refreshAccessorTypes c name

def provideReader (c : ClassId) (body : NodeId) (m : MethodId) (slot : Nat) (ty : ValueType) :
    Build Unit := do
  typeReader m ty
  let node ← regenerate m body
  let load ← addNode node (.load (.layout (.offset c slot))) ty
  let _ ← addNode load (.localGet receiverName) (.ref c)

def provideWriter (c : ClassId) (body : NodeId) (m : MethodId) (slot : Nat) (ty : ValueType) :
    Build Unit := do
  match ty.held? with
  | none => throw (.internal .accessorType)
  | some held =>
    typeWriter m ty
    let node ← regenerate m body
    let store ← addNode node (.store held (.layout (.offset c slot))) .none
    let _ ← addNode store (.localGet receiverName) (.ref c)
    let _ ← addNode store (.localGet "value") ty

def provideAccessors (c : ClassId) (body : NodeId) (attr : Attr) : Build Unit := do
  let k := (← program).cls c
  match k.ivarSlot? attr.name, k.ivar? attr.name with
  | some slot, some ivar =>
    let reader ← provided? c attr.name .onInstance
    let writer ← provided? c (writerName attr.name) .onInstance
    match reader.filter fun _ => attr.reader with
    | some m => provideReader c body m slot ivar.ty
    | none => pure ()
    match writer.filter fun _ => attr.writer with
    | some m => provideWriter c body m slot ivar.ty
    | none => pure ()
  | _, _ => pure ()

-- Constructors

/- The local variable of a constructor that holds the object. -/
def newObject : String :=
  "_obj_"

/-
  The constructor of a class, with the parameters that its
  initializer has now, unless the program wrote its own.
-/
def newMethod (c : ClassId) : Build (Option MethodId) := do
  match ← declareProvided c "new" .onClass .generated with
  | none => return none
  | some m =>
    let p ← program
    let params :=
      match p.instanceMethod? c "initialize" with
      | some init => (p.method init).params
      | none => []
    modifyMethod m fun x => { x with params, result := .ref c }
    return some m

def allocator : Build MethodId := do
  let ctx ← get
  let name := ctx.options.allocatorMethod
  let c := (ctx.program.findClass? ctx.options.allocatorClass).getD objectClass
  match ctx.program.classMethod? c name with
  | some (m, _) => return m
  | none =>
    let m ← declare (·.declareMethod c name .onClass .generated)
    modifyMethod m (·.addParam "nbytes" .i32)
    return m

/- The address of a new object.  Objects without fields share a place in static data. -/
def allocate (c : ClassId) (assign : NodeId) : Build Unit := do
  if ((← program).cls c).size = 0 then
    let address ← declare fun p =>
      let data := p.data.align 4
      (data.cursor, { p with data })
    let _ ← addNode assign (.const (Int64.ofNat address)) (.ref c)
  else
    let provider ← allocator
    let alloc ← addNode assign .nop .none
    let size ← sizeMethod c
    let _ ← addNode alloc (.call size) .i32
    let _ ← call alloc provider .absent .generated
    let _ ← cast alloc (.ref c) false .generated

def initializeObject (c : ClassId) (node : NodeId) (params : List Slot) : Build Unit := do
  match (← program).instanceMethod? c "initialize" with
  | none => throw (.internal .initializer)
  | some init =>
    let n ← addNode node .nop .none
    let _ ← addNode n (.localGet newObject) (.ref c)
    for p in params do
      let _ ← addNode n (.localGet p.name) p.ty
    let _ ← call n init .inNode .generated
    let _ ← keepOrDrop n false

def provideNew (c : ClassId) (body : NodeId) : Build Unit := do
  match ← newMethod c with
  | none => pure ()
  | some m =>
    modifyMethod m fun x => { x with locals := [⟨newObject, .ref c⟩] }
    let node ← regenerate m body
    let assign ← addNode node (.localSet newObject) .none
    allocate c assign
    initializeObject c node ((← program).method m).params
    let _ ← addNode node (.localGet newObject) (.ref c)

/-
  Close a class: its resolution order is final, and it gets the
  methods that the compiler provides.
-/
def finishClass (c : ClassId) (body : NodeId) : Build Unit := do
  modifyProgram (·.finalize c)
  let k := (← program).cls c
  for attr in k.attrs do
    provideAccessors c body attr
  if !k.isModule then
    provideSize c body
    provideInitialize c body
    provideNew c body

end RubyWat.Build
