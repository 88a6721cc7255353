import RubyWat.Machine.Value
import RubyWat.Program.StaticData
import Std.Data.HashMap

/-
  Linear memory.

  Memory is a sequence of bytes of a fixed length.  Only bytes that were written are kept; all
  others are zero.  Integers lie in memory with their lowest byte first.
-/

-- Bytes

namespace RubyWat.Machine

/- A memory of a size, with the bytes that were written. -/
structure Memory where
  size : Nat
  written : Std.HashMap Nat UInt8

namespace Memory

def byte (m : Memory) (address : Nat) : UInt8 :=
  m.written.getD address 0

/- Bytes written from an address on, without a check. -/
def poke (m : Memory) : Nat → List UInt8 → Memory
  | _, [] => m
  | address, b :: bs => poke { m with written := m.written.insert address b } (address + 1) bs

/- The bytes of an address range, without a check. -/
def peek (m : Memory) : Nat → Nat → List UInt8
  | _, 0 => []
  | address, count + 1 => m.byte address :: m.peek (address + 1) count

def holds (m : Memory) (address length : Nat) : Bool :=
  decide (address + length ≤ m.size)

def outOfBounds (m : Memory) (address length : Nat) : Trap :=
  ⟨.outOfBounds address length m.size, none⟩

def read (m : Memory) (address length : Nat) : Except Trap (List UInt8) :=
  if m.holds address length then .ok (m.peek address length)
  else .error (m.outOfBounds address length)

def write (m : Memory) (address : Nat) (bytes : List UInt8) : Except Trap Memory :=
  if m.holds address bytes.length then .ok (m.poke address bytes)
  else .error (m.outOfBounds address bytes.length)

/- At most so many bytes up to the first zero. -/
def untilZero (m : Memory) : Nat → Nat → List UInt8
  | _, 0 => []
  | address, count + 1 =>
    let b := m.byte address
    if b = 0 then [] else b :: m.untilZero (address + 1) count

/- The text at an address, up to a zero byte or the end. -/
def textAt (m : Memory) (address : Nat) : Except Trap (List UInt8) :=
  if m.holds address 0 then .ok (m.untilZero address (m.size - address))
  else .error (m.outOfBounds address 0)

end Memory

-- Integers

namespace Memory

/- The number whose bytes are given, lowest first. -/
def ofLittleEndian : List UInt8 → Nat
  | [] => 0
  | b :: bs => b.toNat + 256 * ofLittleEndian bs

def load (m : Memory) (ty : Wasm.MachineType) (address : Nat) : Except Trap Value :=
  match ty with
  | .i32 =>
    (m.read address 4).map fun bytes =>
      .i32 (Int32.ofBitVec (BitVec.ofNat 32 (ofLittleEndian bytes)))
  | .i64 =>
    (m.read address 8).map fun bytes =>
      .i64 (Int64.ofBitVec (BitVec.ofNat 64 (ofLittleEndian bytes)))
  | .f32 | .f64 => .error ⟨.notEvaluable .floatLoad, none⟩

/- Why an integer of a type cannot be stored at an address. -/
def storeFault? (m : Memory) (ty : Wasm.MachineType) (address : Nat) : Option Trap :=
  if ty.isFloat then some ⟨.notEvaluable .floatStore, none⟩
  else if m.holds address ty.size then none
  else some (m.outOfBounds address ty.size)

/- Put an integer into memory, without a check. -/
def put (m : Memory) (ty : Wasm.MachineType) (address : Nat) (v : Value) : Memory :=
  m.poke address (DataValue.toBytes (.int ty v.toInt64))

/- Store an integer, cut to the width of a type. -/
def store (m : Memory) (ty : Wasm.MachineType) (address : Nat) (v : Value) : Except Trap Memory :=
  match m.storeFault? ty address with
  | some t => .error t
  | none => .ok (m.put ty address v)

/-
  Memory of at least a number of bytes that starts with static
  data.  A value that reaches past the data is left out.
-/
def ofData (bytes : Nat) (data : StaticData) : Memory :=
  data.inside.foldl (fun m e => m.poke e.address e.value.toBytes)
    { size := max bytes data.cursor, written := {} }

end Memory

end RubyWat.Machine
