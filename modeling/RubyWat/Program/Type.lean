import RubyWat.Wasm.Type

/-
  Types of values in a program.

  A value has a machine type or refers to an object of a class. A reference is the address of
  the object and is held like an `i32`.  Code that leaves no value has the type `none`.
-/

-- Identities

namespace RubyWat

/- A class or a module, numbered in order of definition. -/
structure ClassId where
  index : Nat
deriving DecidableEq, Inhabited

/- A method, numbered in order of declaration. -/
structure MethodId where
  index : Nat
deriving DecidableEq, Inhabited

/- A global variable, numbered in order of declaration. -/
structure GlobalId where
  index : Nat
deriving DecidableEq, Inhabited

-- Value Types

/- The type of what an expression leaves behind. -/
inductive ValueType where
  | none
  | machine (ty : Wasm.MachineType)
  | ref (c : ClassId)
deriving DecidableEq, Inhabited

namespace ValueType

/- Integers of 32 bits, the type of values that declare none. -/
abbrev i32 : ValueType :=
  machine .i32

abbrev i64 : ValueType :=
  machine .i64

/- The machine type that addresses are held in. -/
abbrev pointer : Wasm.MachineType :=
  .i32

def isNone : ValueType → Bool
  | none => true
  | _ => false

def isMachine : ValueType → Bool
  | machine _ => true
  | _ => false

def isRef : ValueType → Bool
  | ref _ => true
  | _ => false

def isInteger : ValueType → Bool
  | machine ty => !ty.isFloat
  | _ => false

def isFloat : ValueType → Bool
  | machine ty => ty.isFloat
  | _ => false

def machine? : ValueType → Option Wasm.MachineType
  | machine ty => some ty
  | _ => Option.none

def class? : ValueType → Option ClassId
  | ref c => some c
  | _ => Option.none

def held? : ValueType → Option Wasm.MachineType
  | none => Option.none
  | machine ty => some ty
  | ref _ => some pointer

/- The machine type of a value, that of addresses by default. -/
def held (ty : ValueType) : Wasm.MachineType :=
  ty.held?.getD pointer

def size (ty : ValueType) : Nat :=
  match ty.held? with
  | some t => t.size
  | Option.none => 0

/- A type in words, given the names of classes. -/
def describe (className : ClassId → String) : ValueType → String
  | none => "none"
  | machine ty => ty.text
  | ref c => className c

/- A type in listings, where classes are numbers. -/
def text : ValueType → String :=
  describe fun c => "class#" ++ toString c.index

def rank? (ty : ValueType) : Option Nat :=
  ty.machine?.map (·.rank)

/- The first machine type of the highest rank among the given types. -/
def leading? : List ValueType → Option ValueType
  | [] => Option.none
  | ty :: rest =>
    match ty.rank?, leading? rest with
    | Option.none, best => best
    | some _, Option.none => some ty
    | some rank, some best => if rank < best.rank?.getD 0 then some best else some ty

end ValueType

end RubyWat
