import RubyWat.Code.Instr
import RubyWat.Source.Span

/-
  Methods and the slots they own.

  An instance method takes its receiver as an additional first parameter.
-/

-- Methods

namespace RubyWat

def receiverName : String :=
  "_self_"

/- Whether a method belongs to instances or to the class. -/
inductive MethodScope where
  | onInstance
  | onClass
deriving DecidableEq, Inhabited

namespace MethodScope

def separator : MethodScope → String
  | onInstance => "#"
  | onClass => "::"

/- The letter of a scope in default export names. -/
def letter : MethodScope → String
  | onInstance => "i"
  | onClass => "c"

end MethodScope

/-
  What is known about a method: its result was declared, it has a body, the compiler provides
  it, the host provides it, or the host may call it.
-/
structure MethodFlags where
  declaredResult : Bool := false
  implemented : Bool := false
  synthesized : Bool := false
  imported : Bool := false
  exported : Bool := false
deriving DecidableEq, Inhabited

/- A parameter or a local variable. -/
structure Slot where
  name : String
  ty : ValueType
deriving DecidableEq, Inhabited

structure Method where
  name : String
  owner : ClassId
  scope : MethodScope
  result : ValueType := .i32
  flags : MethodFlags := {}
  params : List Slot := []
  locals : List Slot := []
  body : Option Code.NodeId := none
  binding : Option (String × String) := none
  span : Span := .generated
deriving Inhabited

-- Slots

namespace Method

def isInstance (m : Method) : Bool :=
  m.scope == .onInstance

def receiver (m : Method) : List Slot :=
  if m.isInstance then [⟨receiverName, .ref m.owner⟩] else []

def allParams (m : Method) : List Slot :=
  m.receiver ++ m.params

def arity (m : Method) : Nat :=
  m.allParams.length

def param? (m : Method) (name : String) : Option Slot :=
  m.params.find? (·.name == name)

/- The type of the receiver, a parameter or a local variable. -/
def slotType? (m : Method) (name : String) : Option ValueType :=
  ((m.allParams ++ m.locals).find? (·.name == name)).map (·.ty)

def addParam (m : Method) (name : String) (ty : ValueType) : Method :=
  { m with params := m.params ++ [⟨name, ty⟩] }

/- Give the first parameter with a name another type. -/
def setParamType? (m : Method) (name : String) (ty : ValueType) : Option Method :=
  (m.params.findIdx? (·.name == name)).map fun i =>
    { m with params := m.params.modify i fun s => { s with ty } }

/- The type of a slot, created as a local variable if missing. -/
def declareLocal (m : Method) (name : String) (ty : ValueType) : ValueType × Method :=
  match m.slotType? name with
  | some found => (found, m)
  | none => (ty, { m with locals := m.locals ++ [⟨name, ty⟩] })

end Method

-- Written Form

/- A declaration of a slot in a function header. -/
def Slot.declaration (s : Slot) (keyword : String) : String :=
  " (" ++ keyword ++ " $" ++ s.name ++ " " ++ s.ty.held.mnemonic ++ ")"

namespace Method

def signature (m : Method) : String :=
  String.join (m.allParams.map (·.declaration "param"))
    ++ (if m.result.isNone then ""
        else " (result " ++ m.result.held.mnemonic ++ ")")

def localDeclarations (m : Method) : String :=
  String.join (m.locals.map (·.declaration "local"))

end Method

/- A method name without characters that an identifier lacks. -/
def mangle (name : String) : String :=
  match name with
  | "[]" => "_aref_"
  | "[]=" => "_aset_"
  | name =>
    String.ofList <| name.toList.map fun c => if "[](),;\"".toList.contains c then '_' else c

end RubyWat
