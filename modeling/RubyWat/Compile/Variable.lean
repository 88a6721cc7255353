import RubyWat.Compile.Convert

/-
  Literals, variables and constants.

  A local variable gets the type of the first value assigned to it, and so does an instance
  variable whose type nothing has fixed.  All later values are converted.
-/

-- Literals

namespace RubyWat

open Code

/- The narrowest integer type that holds a literal. -/
def literalType (value : Int64) : ValueType :=
  if Wasm.extendSigned (Wasm.cut 32 value) = value then .i32 else .i64

namespace Build

def intLiteral (parent : NodeId) (value : Int64) (span : Span) : Build NodeId :=
  addNodeAt parent (.const value) (literalType value) span

/- Put text into static data, with a zero byte at its end. -/
def stringAddress (bytes : List UInt8) : Build Nat := do
  let ctx ← get
  let label := "str" ++ toString ctx.strings
  modify fun ctx => { ctx with strings := ctx.strings + 1 }
  declare fun p =>
    let (address, data) := p.data.place label (.bytes (bytes ++ [0]))
    (address, { p with data })

/- Text in the code: the address where it lies. -/
def stringLiteral (parent : NodeId) (bytes : List UInt8) (span : Span) :
    Build NodeId := do
  let address ← stringAddress bytes
  addNodeAt parent (.const (Int64.ofNat address)) .i32 span

-- Requirements

def requireMethod (n : NodeId) (use : VariableUse) (span : Span) : Build MethodId := do
  let ctx ← get
  match ctx.methodOf? n with
  | some m => return m
  | none => throw (.variableScope use (ctx.describeScope n) span)

/- The instance method around a use of an instance variable. -/
def requireInstanceMethod (n : NodeId) (name : String) (span : Span) : Build MethodId := do
  let ctx ← get
  match ctx.methodOf? n with
  | some m =>
    if (ctx.program.method m).isInstance then return m
    else throw (.instanceScope name (ctx.describeScope n) span)
  | none => throw (.instanceScope name (ctx.describeScope n) span)

/- Nothing has this name in the scope of a node. -/
def unknownName {α : Type} (n : NodeId) (kind : NameKind) (name : String) (span : Span) :
    Build α := do
  throw (.unknownName kind name ((← get).describeScope n) span)

def assignedValue (n : NodeId) (span : Span) : Build NodeId := do
  match (← tree).lastChild? n with
  | none => throw (.unsupported .emptyAssignment span)
  | some value =>
    if (← tyOf value).isNone then throw (.blankAssignment (← spanOf value))
    return value

def selfGet : Instr :=
  .localGet receiverName

/- Put a block around a store that reads the stored value again. -/
def keepStored (store : NodeId) (reload : Instr)
    (address : Option Instr) (ty : ValueType) : Build NodeId := do
  let block ← insertAbove store .block ty
  let load ← addNode block reload ty
  match address with
  | some instr => let _ ← addNode load instr .i32
  | none => pure ()
  return block

-- Local Variables

def localGet (parent : NodeId) (name : String) (span : Span) : Build NodeId := do
  let m ← requireMethod parent .localVar span
  match ((← program).method m).slotType? name with
  | none => unknownName parent .localVar name span
  | some ty => addNodeAt parent (.localGet name) ty span

def declareLocal (m : MethodId) (name : String) (ty : ValueType) : Build ValueType :=
  declare fun p =>
    let (ty, x) := (p.method m).declareLocal name ty
    (ty, p.modifyMethod m fun _ => x)

def localAssign (n : NodeId) (name : String) (keep : Bool) (span : Span) :
    Build NodeId := do
  let m ← requireMethod n .localVar span
  let value ← assignedValue n span
  let ty ← declareLocal m name (← tyOf value)
  let _ ← cast value ty true span
  if keep then setNode n (.localTee name) ty
  else setNode n (.localSet name) .none
  return n

-- Instance Variables

def ivarGet (parent : NodeId) (name : String) (span : Span) : Build NodeId := do
  let m ← requireInstanceMethod parent name span
  let p ← program
  let c := (p.method m).owner
  match (p.cls c).ivarSlot? name, (p.cls c).ivar? name with
  | some slot, some ivar =>
    let load ← addNodeAt parent (.load (.layout (.offset c slot))) ivar.ty span
    let _ ← addNode load selfGet (.ref c)
    return load
  | _, _ => unknownName parent .instanceVar name span

def fieldType (c : ClassId) (slot : Nat) : Build ValueType :=
  return (((← program).cls c).ivars.getD slot default).ty

def ivarAssign (n : NodeId) (name : String) (keep : Bool) (span : Span) :
    Build NodeId := do
  let m ← requireInstanceMethod n name span
  let c := ((← program).method m).owner
  let value ← assignedValue n span
  let valueTy ← tyOf value
  let slot ← declare (·.declareIvar c name valueTy true)
  let ty ← fieldType c slot
  let _ ← cast value ty true span
  let this ← createNode selfGet (.ref c)
  modifyTree (·.prependChild n this)
  let offset := Offset.layout (.offset c slot)
  setNode n (.store ty.held offset) .none
  if keep then keepStored n (.load offset) (some selfGet) ty
  else return n

-- Class Variables

def cvarDeclare (n : NodeId) (name : String) (value : Int64) (ty : ValueType) (span : Span) :
    Build Unit := do
  let c := (← get).classOf n
  match ← tryDeclare (·.declareCvar c name value ty span) with
  | .added => pure ()
  | .unchanged => warn (.redundant .classVar name span)

def findCvar (n : NodeId) (name : String) (span : Span) : Build Cvar := do
  let ctx ← get
  match ctx.program.findCvar? (ctx.classOf n) name with
  | some v => return v
  | none => unknownName n .classVar name span

def cvarGet (parent : NodeId) (name : String) (span : Span) : Build NodeId := do
  let _ ← requireMethod parent .readClassVar span
  let v ← findCvar parent name span
  let load ← addNodeAt parent (.load (.fixed v.address)) v.ty span
  let _ ← addNode load (.const 0) .i32
  return load

def cvarAssign (n : NodeId) (name : String) (keep : Bool) (span : Span) :
    Build NodeId := do
  let _ ← requireMethod n .assignClassVar span
  let v ← findCvar n name span
  let value ← assignedValue n span
  let _ ← cast value v.ty true span
  let base ← createNode (.const 0) .i32
  modifyTree (·.prependChild n base)
  let offset := Offset.fixed v.address
  setNode n (.store v.ty.held offset) .none
  if keep then keepStored n (.load offset) (some (.const 0)) v.ty
  else return n

def globalType (n : NodeId) (name : String) (span : Span) : Build ValueType := do
  let p ← program
  match p.findGlobal? name with
  | some g => return (p.globalVar g).ty
  | none => unknownName n .globalVar name span

def globalGet (parent : NodeId) (name : String) (span : Span) : Build NodeId := do
  let ty ← globalType parent name span
  addNodeAt parent (.globalGet name) ty span

def globalAssign (n : NodeId) (name : String) (keep : Bool) (span : Span) :
    Build NodeId := do
  let _ ← requireMethod n .assignGlobal span
  let ty ← globalType n name span
  let value ← assignedValue n span
  let _ ← cast value ty true span
  setNode n (.globalSet name) .none
  if keep then keepStored n (.globalGet name) none ty
  else return n

-- Constants

def constDeclare (n : NodeId) (name : String) (value : ConstValue) (span : Span) :
    Build Unit := do
  let ctx ← get
  if (ctx.methodOf? n).isSome then throw (.constantInMethod name (ctx.describeScope n) span)
  match ← tryDeclare (·.declareConst (ctx.classOf n) name value span)
  with
  | .added => pure ()
  | .unchanged => warn (.redundant .constant name span)

/- What a constant path stands for at a node. -/
def constValue (n : NodeId) (path : Dump.ConstPath) (span : Span) : Build ConstValue := do
  let ctx ← get
  match ctx.program.findConst? path (ctx.classOf n) with
  | some value => return value
  | none => unknownName n .constant ("::".intercalate path.segments) span

def constGet (parent : NodeId) (path : Dump.ConstPath) (span : Span) : Build NodeId := do
  match ← constValue parent path span with
  | .int value ty => addNodeAt parent (.const value) ty span
  | .cls _ => throw (.unsupported .classValue span)

end Build

end RubyWat
