import RubyWat.Wasm.Type

/-
  Integer operators of the target machine.

  Operators are defined once on words of any width.  At a machine type the operands are cut to
  the width of the type and the result is extended with its sign, so that a value is always held
  as a signed word of 64 bits.
-/

-- Binary Operators

namespace RubyWat.Wasm

/- Operators with two operands and a result of the same type. -/
inductive BinaryOp where
  | add
  | sub
  | mul
  | div
  | rem
  | and
  | or
  | xor
  | shl
  | shr
deriving DecidableEq

namespace BinaryOp

def ofName? : String → Option BinaryOp
  | "+" => some add
  | "-" => some sub
  | "*" => some mul
  | "/" => some div
  | "%" => some rem
  | "&" => some and
  | "|" => some or
  | "^" => some xor
  | "<<" => some shl
  | ">>" => some shr
  | _ => none

def mnemonic : BinaryOp → String
  | add => "add"
  | sub => "sub"
  | mul => "mul"
  | div => "div_s"
  | rem => "rem_s"
  | and => "and"
  | or => "or"
  | xor => "xor"
  | shl => "shl"
  | shr => "shr_s"

/-
  Whether a signed division of two words has no result: the
  divisor is zero, or the quotient is past the largest word.
-/
def divisionFails {w : Nat} (a b : BitVec w) : Bool :=
  b == 0 || (a == BitVec.intMin w && b == BitVec.allOnes w)

/-
  The value of an operator on words of one width.  Shift
  distances count modulo the width, and division truncates.
-/
def eval {w : Nat} (op : BinaryOp) (a b : BitVec w) : Option (BitVec w) :=
  match op with
  | add => some (a + b)
  | sub => some (a - b)
  | mul => some (a * b)
  | div => if divisionFails a b then none else some (a.sdiv b)
  | rem => if divisionFails a b then none else some (a.srem b)
  | and => some (a &&& b)
  | or => some (a ||| b)
  | xor => some (a ^^^ b)
  | shl => some (a <<< (b.toNat % w))
  | shr => some (a.sshiftRight (b.toNat % w))

end BinaryOp

/- The low bits of a value. -/
def cut (w : Nat) (a : Int64) : BitVec w :=
  a.toBitVec.setWidth w

def extendSigned {w : Nat} (a : BitVec w) : Int64 :=
  Int64.ofBitVec (a.signExtend 64)

def extendUnsigned (a : BitVec 32) : Int64 :=
  Int64.ofBitVec (a.setWidth 64)

def BinaryOp.apply (op : BinaryOp) (ty : MachineType) (a b : Int64) : Option Int64 :=
  match ty with
  | .i32 => (op.eval (cut 32 a) (cut 32 b)).map extendSigned
  | .i64 => (op.eval (cut 64 a) (cut 64 b)).map extendSigned
  | .f32 | .f64 => none

-- Unary Operators

inductive UnaryOp where
  | eqz
  | clz
  | ctz
  | popcnt
deriving DecidableEq

namespace UnaryOp

def ofName? : String → Option UnaryOp
  | "zero?" => some eqz
  | "clz" => some clz
  | "ctz" => some ctz
  | "popcnt" => some popcnt
  | _ => none

def mnemonic : UnaryOp → String
  | eqz => "eqz"
  | clz => "clz"
  | ctz => "ctz"
  | popcnt => "popcnt"

def resultType (op : UnaryOp) (operand : MachineType) : MachineType :=
  match op with
  | eqz => .i32
  | clz | ctz | popcnt => operand

/-
  The number an operator gives for a word: whether it is zero, its zeros before the highest and
  below the lowest one, or its ones.
-/
def eval {w : Nat} (op : UnaryOp) (a : BitVec w) : Nat :=
  match op with
  | eqz => if a = 0 then 1 else 0
  | clz => ((List.range w).takeWhile fun i => !a.getMsbD i).length
  | ctz => ((List.range w).takeWhile fun i => !a.getLsbD i).length
  | popcnt => (List.range w).countP a.getLsbD

def apply (op : UnaryOp) (ty : MachineType) (a : Int64) : Option Int64 :=
  match ty with
  | .i32 => some (Int64.ofNat (op.eval (cut 32 a)))
  | .i64 => some (Int64.ofNat (op.eval (cut 64 a)))
  | .f32 | .f64 => none

end UnaryOp

inductive Relation where
  | eq
  | ne
  | lt
  | le
  | gt
  | ge
deriving DecidableEq

namespace Relation

def ofName? : String → Option Relation
  | "==" => some eq
  | "!=" => some ne
  | "<" => some lt
  | "<=" => some le
  | ">" => some gt
  | ">=" => some ge
  | _ => none

def mnemonic : Relation → String
  | eq => "eq"
  | ne => "ne"
  | lt => "lt_s"
  | le => "le_s"
  | gt => "gt_s"
  | ge => "ge_s"

def holds (op : Relation) (a b : Int64) : Bool :=
  match op with
  | eq => a == b
  | ne => a != b
  | lt => decide (a < b)
  | le => decide (a ≤ b)
  | gt => decide (b < a)
  | ge => decide (b ≤ a)

/- Whether a relation holds, as a number. -/
def apply (op : Relation) (a b : Int64) : Int64 :=
  if op.holds a b then 1 else 0

end Relation

end RubyWat.Wasm
