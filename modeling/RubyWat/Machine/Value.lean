import RubyWat.Machine.Trap
import RubyWat.Program.Type
import RubyWat.Wasm.Operator

/-
  Values of the machine.

  Values are integers of two widths.  A reference is a narrow
  integer, and addresses are read without a sign.
-/

-- Values

namespace RubyWat.Machine

inductive Value where
  | i32 (v : Int32)
  | i64 (v : Int64)
deriving DecidableEq

namespace Value

def type : Value → Wasm.MachineType
  | i32 _ => .i32
  | i64 _ => .i64

/- A value as a wide integer with its sign. -/
def toInt64 : Value → Int64
  | i32 v => v.toInt64
  | i64 v => v

def address : Value → Nat
  | i32 v => v.toBitVec.toNat
  | i64 v => v.toBitVec.toNat

def isTrue (v : Value) : Bool :=
  v.toInt64 != 0

def text (v : Value) : String :=
  toString v.toInt64.toInt

def narrow (raw : Int64) : Value :=
  i32 raw.toInt32

/- The value of a machine type that an integer stands for. -/
def ofType (ty : Wasm.MachineType) (raw : Int64) : Except Trap Value :=
  match ty with
  | .i32 => .ok (narrow raw)
  | .i64 => .ok (i64 raw)
  | .f32 | .f64 => .error ⟨.notEvaluable .floatValue, none⟩

def ofBool (b : Bool) : Value :=
  i32 (if b then 1 else 0)

/- A value that replaces another and keeps its type. -/
def replacing (old new : Value) : Value :=
  match old with
  | i32 _ => narrow new.toInt64
  | i64 _ => i64 new.toInt64

/- A narrow value widened, with or without its sign. -/
def extend (signed : Bool) (v : Value) : Value :=
  match v with
  | i32 w =>
    if signed then i64 w.toInt64
    else i64 (Wasm.extendUnsigned w.toBitVec)
  | i64 w => i64 w

end Value

-- Named Values

/- Values by name, each name once. -/
abbrev Slots :=
  List (String × Value)

namespace Slots

/- Give a name a value, in place of the one it has. -/
def insert (slots : Slots) (name : String) (v : Value) : Slots :=
  match slots with
  | [] => [(name, v)]
  | (key, old) :: rest =>
    if key = name then (key, v) :: rest
    else (key, old) :: insert rest name v

/- Give a name a value unless it has one. -/
def insertNew (slots : Slots) (name : String) (v : Value) : Slots :=
  if (slots.lookup name).isSome then slots else slots.insert name v

/- Assign to a name, which keeps its type.  There is no result if the name has no value. -/
def assign? (slots : Slots) (name : String) (v : Value) : Option Slots :=
  match slots with
  | [] => none
  | (key, old) :: rest =>
    if key = name then some ((key, old.replacing v) :: rest)
    else (assign? rest name v).map ((key, old) :: ·)

end Slots

end RubyWat.Machine
