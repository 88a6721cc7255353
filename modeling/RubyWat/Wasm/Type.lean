/-
  Value types of the target machine.

  Machine types are ordered by rank: a value of a lower rank
  can take part in an operation at a higher one.
-/

-- Machine Types

namespace RubyWat.Wasm

inductive MachineType where
  | i32
  | i64
  | f32
  | f64
deriving DecidableEq, Inhabited

namespace MachineType

/- The number of bytes of a value. -/
def size : MachineType → Nat
  | i32 | f32 => 4
  | i64 | f64 => 8

/- The place of a type in the order of promotion. -/
def rank : MachineType → Nat
  | i32 => 0
  | i64 => 1
  | f32 => 2
  | f64 => 3

def mnemonic : MachineType → String
  | i32 => "i32"
  | i64 => "i64"
  | f32 => "f32"
  | f64 => "f64"

def text : MachineType → String
  | i32 => "I32"
  | i64 => "I64"
  | f32 => "F32"
  | f64 => "F64"

def isFloat : MachineType → Bool
  | f32 | f64 => true
  | i32 | i64 => false

def ofName? : String → Option MachineType
  | "I32" | "i32" => some i32
  | "I64" | "i64" => some i64
  | "F32" | "f32" => some f32
  | "F64" | "f64" => some f64
  | _ => none

end MachineType

end RubyWat.Wasm
