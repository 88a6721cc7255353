import Mathlib.Data.Nat.Size
import Mathlib.NumberTheory.Padics.PadicVal.Basic
import RubyWat.Wasm.Operator

/-
  Operators and the instructions that they are named after.

  Key definitions: `Wasm.Instruction.binary`, `Wasm.Instruction.unary`,
    `Wasm.Instruction.relational`, `Wasm.Agrees`.

  The machine describes its integer instructions by arithmetic on natural numbers below a power
  of two, which stand for signed numbers in two's complement.  The description here follows it
  and knows nothing of words of bits.

  Main statement: at either width, operators give what the instructions of their names give, and
  nothing where these trap, but for one remainder (`operators_agree`).  The remainder of the
  least number by minus one is zero, and has no result here.
-/

-- Instructions

namespace RubyWat.Wasm

open List BitVec

namespace Instruction

/- The number that stands for an integer at a width. -/
def encode (w : Nat) (i : Int) : Nat :=
  (i % (2 ^ w : Nat)).toNat

/- The signed integer that a number stands for at a width. -/
def signed (w n : Nat) : Int :=
  if 2 * n < 2 ^ w then n else n - (2 ^ w : Nat)

/- What comes of an instruction with a name. -/
inductive Outcome where
  | result (n : Nat)
  | trap
  | unknown
deriving DecidableEq

/-
  Whether operands are the least number of a width and minus
  one, of which the quotient is too large.
-/
def Overflows (w a b : Nat) : Prop :=
  signed w a = -(2 ^ (w - 1) : Nat) ∧ signed w b = -1

instance (w a b : Nat) : Decidable (Overflows w a b) :=
  inferInstanceAs (Decidable (_ ∧ _))

/-
  Instructions with two operands.  Distances of shifts count
  modulo the width, and a shift to the right keeps the sign.
-/
def binary (w : Nat) (name : String) (a b : Nat) : Outcome :=
  match name with
  | "add" => .result ((a + b) % 2 ^ w)
  | "sub" => .result ((a + 2 ^ w - b) % 2 ^ w)
  | "mul" => .result (a * b % 2 ^ w)
  | "div_s" =>
    if b = 0 then .trap
    else if Overflows w a b then .trap
    else .result (encode w ((signed w a).tdiv (signed w b)))
  | "rem_s" =>
    if b = 0 then .trap
    else .result (encode w ((signed w a).tmod (signed w b)))
  | "and" => .result (a &&& b)
  | "or" => .result (a ||| b)
  | "xor" => .result (a ^^^ b)
  | "shl" => .result (a * 2 ^ (b % w) % 2 ^ w)
  | "shr_s" => .result (encode w (signed w a / (2 ^ (b % w) : Nat)))
  | _ => .unknown

def unary (w : Nat) (name : String) (a : Nat) : Outcome :=
  match name with
  | "eqz" => .result (if a = 0 then 1 else 0)
  | "clz" => .result (w - a.size)
  | "ctz" => .result (if a = 0 then w else padicValNat 2 a)
  | "popcnt" =>
    .result ((range w).map fun i => a / 2 ^ i % 2).sum
  | _ => .unknown

def truth (p : Prop) [Decidable p] : Outcome :=
  .result (if p then 1 else 0)

def relational (w : Nat) (name : String) (a b : Nat) : Outcome :=
  match name with
  | "eq" => truth (a = b)
  | "ne" => truth (a ≠ b)
  | "lt_s" => truth (signed w a < signed w b)
  | "le_s" => truth (signed w a ≤ signed w b)
  | "gt_s" => truth (signed w a > signed w b)
  | "ge_s" => truth (signed w a ≥ signed w b)
  | _ => .unknown

-- Words

variable {w : Nat}

theorem signed_toNat (a : BitVec w) : signed w a.toNat = a.toInt := by
  rw [signed, toInt_eq_toNat_cond]

theorem encode_toInt (a : BitVec w) : encode w a.toInt = a.toNat := by
  rw [encode, ← toNat_ofInt, ofInt_toInt]

theorem toNat_eq_zero (a : BitVec w) : a.toNat = 0 ↔ a = 0 := by
  rw [← toNat_inj]
  simp

/- Cutting an integer to a width keeps the number it has there. -/
theorem toNat_cut (hWidth : w ≤ 64) (a : Int64) : (cut w a).toNat = encode w a.toInt := by
  have hDvd : ((2 ^ w : Nat) : Int) ∣ (2 ^ 64 : Nat) :=
    Int.natCast_dvd_natCast.mpr (Nat.pow_dvd_pow 2 hWidth)
  have hWhole : (a.toBitVec.toNat : Int) = a.toInt % (2 ^ 64 : Nat) := by
    rw [← Int64.toInt_toBitVec, ← encode_toInt, encode]
    exact Int.toNat_of_nonneg (Int.emod_nonneg _ (by norm_num))
  apply Int.ofNat.inj
  rw [encode, cut, toNat_setWidth, Int.ofNat_eq_natCast, Int.ofNat_eq_natCast,
    Int.natCast_emod, hWhole, Int.emod_emod_of_dvd _ hDvd]
  exact (Int.toNat_of_nonneg (Int.emod_nonneg _ (by exact_mod_cast (Nat.two_pow_pos w).ne'))).symm

theorem toInt_extendSigned (hWidth : w ≤ 64) (a : BitVec w) : (extendSigned a).toInt = a.toInt := by
  rw [extendSigned, Int64.toInt_ofBitVec, toInt_signExtend_of_le hWidth]

/- The least number of a width, and minus one. -/
theorem signed_eq_least (hWidth : 0 < w) (a : BitVec w) :
    signed w a.toNat = -(2 ^ (w - 1) : Nat) ↔ a = intMin w := by
  have hLeast : (intMin w).toInt = -(2 ^ (w - 1) : Nat) := by
    rw [toInt_intMin, Nat.mod_eq_of_lt (Nat.pow_lt_pow_right (by norm_num) (by omega))]
  rw [signed_toNat, ← hLeast, toInt_inj]

theorem signed_eq_minus_one (hWidth : 0 < w) (a : BitVec w) :
    signed w a.toNat = -1 ↔ a = allOnes w := by
  have hOnes : (allOnes w).toInt = -1 := by rw [toInt_allOnes, if_pos hWidth]
  rw [signed_toNat, ← hOnes, toInt_inj]

end Instruction

-- Binary Operators

open Instruction (Outcome Overflows encode signed)

/- What an instruction comes to that gives a word, or traps. -/
def outcomeOf {w : Nat} : Option (BitVec w) → Outcome
  | some r => .result r.toNat
  | none => .trap

namespace BinaryOp

variable {w : Nat}

/- A division has no result by zero, or where it overflows. -/
theorem divisionFails_iff (hWidth : 0 < w) (a b : BitVec w) :
    divisionFails a b = true ↔ b.toNat = 0 ∨ Overflows w a.toNat b.toNat := by
  rw [Overflows, Instruction.signed_eq_least hWidth, Instruction.signed_eq_minus_one hWidth,
    Instruction.toNat_eq_zero]
  simp [divisionFails]

/- The quotient of words, where it does not overflow. -/
theorem toNat_sdiv (hWidth : 0 < w) (a b : BitVec w) (hFits : ¬Overflows w a.toNat b.toNat) :
    (a.sdiv b).toNat = encode w ((signed w a.toNat).tdiv (signed w b.toNat)) := by
  rw [Overflows, Instruction.signed_eq_least hWidth,
    Instruction.signed_eq_minus_one hWidth] at hFits
  have hOperands : a ≠ intMin w ∨ b ≠ -1#w := by
    rw [neg_one_eq_allOnes]
    exact not_and_or.mp hFits
  rw [Instruction.signed_toNat, Instruction.signed_toNat, ← toInt_sdiv_of_ne_or_ne a b
    hOperands, Instruction.encode_toInt]

theorem toNat_srem (a b : BitVec w) :
    (a.srem b).toNat = encode w ((signed w a.toNat).tmod (signed w b.toNat)) := by
  rw [Instruction.signed_toNat, Instruction.signed_toNat, ← toInt_srem, Instruction.encode_toInt]

theorem toNat_sshiftRight (a : BitVec w) (k : Nat) :
    (a.sshiftRight k).toNat = encode w (signed w a.toNat / (2 ^ k : Nat)) := by
  rw [Instruction.signed_toNat, ← Int.shiftRight_eq_div_pow,
    ← toInt_sshiftRight, Instruction.encode_toInt]

/-
  On words of any width an operator is the instruction that it is
  named after, but for the remainder that overflows.
-/
theorem eval_eq_binary (hWidth : 0 < w) (op : BinaryOp) (a b : BitVec w)
    (hFits : op = .rem → ¬Overflows w a.toNat b.toNat) :
    outcomeOf (op.eval a b) = Instruction.binary w op.mnemonic a.toNat b.toNat := by
  have hFails := divisionFails_iff hWidth a b
  cases op with
  | add | mul | and | or | xor => simp [eval, outcomeOf, Instruction.binary, mnemonic]
  | sub =>
    simp only [eval, outcomeOf, Instruction.binary, mnemonic, toNat_sub]
    congr 2
    have := b.isLt
    omega
  | div =>
    simp only [eval, Instruction.binary, mnemonic]
    by_cases hZero : b.toNat = 0
    · rw [if_pos (hFails.mpr (.inl hZero)), if_pos hZero, outcomeOf]
    by_cases hOver : Overflows w a.toNat b.toNat
    · rw [if_pos (hFails.mpr (.inr hOver)), if_neg hZero, if_pos hOver, outcomeOf]
    · rw [if_neg (fun h => (hFails.mp h).elim hZero hOver), if_neg hZero, if_neg hOver, outcomeOf,
        toNat_sdiv hWidth a b hOver]
  | rem =>
    simp only [eval, Instruction.binary, mnemonic]
    by_cases hZero : b.toNat = 0
    · rw [if_pos (hFails.mpr (.inl hZero)), if_pos hZero, outcomeOf]
    · rw [if_neg (fun h => (hFails.mp h).elim hZero (hFits rfl)),
        if_neg hZero, outcomeOf, toNat_srem]
  | shl => simp [eval, outcomeOf, Instruction.binary, mnemonic, Nat.shiftLeft_eq]
  | shr => simp only [eval, outcomeOf, Instruction.binary, mnemonic, toNat_sshiftRight]

/- The remainder that overflows has no result, and should be zero. -/
theorem eval_rem_overflow (hWidth : 0 < w) (a b : BitVec w) (hOver : Overflows w a.toNat b.toNat) :
    rem.eval a b = none ∧ Instruction.binary w rem.mnemonic a.toNat b.toNat = .result 0 := by
  have hFails := (divisionFails_iff hWidth a b).mpr (.inr hOver)
  have hDivisor : b.toNat ≠ 0 := by
    intro hZero
    have hOne := hOver.2
    rw [hZero, signed] at hOne
    simp at hOne
  refine ⟨by simp [eval, hFails], ?_⟩
  simp only [Instruction.binary, mnemonic]
  rw [if_neg hDivisor, hOver.2]
  simp [encode, Int.tmod_neg]

end BinaryOp

-- Counts Of Bits

/- How far a test holds from the start of a range. -/
theorem length_takeWhile_range (hInside : k ≤ w)
    (hHolds : ∀ i < k, test i = true) (hStops : k < w → test k = false) :
    ((range w).takeWhile test).length = k := by
  have hSplit : range w = range k ++ (range (w - k)).map (k + ·) := by
    rw [← range_add, Nat.add_sub_cancel' hInside]
  have hFirst : ∀ i ∈ range k, test i = true := fun i hi => hHolds i (mem_range.mp hi)
  rw [hSplit, takeWhile_append_of_pos hFirst]
  rcases hRest : w - k with _ | rest
  · simp
  · have hStop := hStops (by omega)
    simp [range_succ_eq_map, hStop]

namespace UnaryOp

variable {w : Nat}

theorem eval_clz (a : BitVec w) : clz.eval a = w - a.toNat.size := by
  have hSize : a.toNat.size ≤ w := Nat.size_le.mpr a.isLt
  refine length_takeWhile_range (by omega) (fun i hi => ?_) fun hk => ?_
  · have hAbove : a.toNat < 2 ^ (w - 1 - i) := Nat.size_le.mp (by omega)
    rw [getMsbD_eq_getLsbD, getLsbD, Nat.testBit_lt_two_pow hAbove]
    simp
  · have hHighest : w - 1 - (w - a.toNat.size) = a.toNat.size - 1 := by
      omega
    have hBit : a.toNat.testBit (a.toNat.size - 1) = true := by
      apply Nat.testBit_of_two_pow_le_and_two_pow_add_one_gt
      · exact Nat.lt_size.mp (by omega)
      · rw [Nat.sub_add_cancel (by omega)]
        exact Nat.lt_size_self _
    rw [getMsbD_eq_getLsbD, hHighest, getLsbD, hBit]
    simp [hk]

/- A bit whose power of two divides is set where the next power does not divide. -/
theorem testBit_of_dvd (hDvd : 2 ^ i ∣ n) : n.testBit i = true ↔ ¬ 2 ^ (i + 1) ∣ n := by
  rcases hDvd with ⟨m, rfl⟩
  rw [Nat.testBit_eq_decide_div_mod_eq, Nat.mul_div_cancel_left m (Nat.two_pow_pos i), pow_succ,
    Nat.mul_dvd_mul_iff_left (Nat.two_pow_pos i), decide_eq_true_iff]
  omega

theorem eval_ctz (a : BitVec w) :
    ctz.eval a = if a.toNat = 0 then w else padicValNat 2 a.toNat := by
  by_cases hZero : a.toNat = 0
  · rw [if_pos hZero]
    refine length_takeWhile_range le_rfl (fun i _ => ?_) fun hk => ?_
    · simp [getLsbD, hZero]
    · exact absurd hk (lt_irrefl _)
  · rw [if_neg hZero]
    have hPower := Nat.le_of_dvd (Nat.pos_of_ne_zero hZero)
      (pow_padicValNat_dvd (p := 2) (n := a.toNat))
    have hLow : padicValNat 2 a.toNat < w :=
      (Nat.pow_lt_pow_iff_right (by norm_num)).mp (hPower.trans_lt a.isLt)
    refine length_takeWhile_range hLow.le (fun i hi => ?_) fun _ => ?_
    · have hDvd : 2 ^ (i + 1) ∣ a.toNat := (padicValNat_dvd_iff_le hZero).mpr hi
      have hBit := testBit_of_dvd ((pow_dvd_pow 2 (Nat.le_succ i)).trans hDvd)
      simpa [getLsbD, hDvd] using hBit
    · have hBit := (testBit_of_dvd pow_padicValNat_dvd).mpr (pow_succ_padicValNat_not_dvd hZero)
      simp [getLsbD, hBit]

theorem eval_popcnt (a : BitVec w) :
    popcnt.eval a = ((range w).map fun i => a.toNat / 2 ^ i % 2).sum := by
  rw [eval]
  induction range w with
  | nil => rfl
  | cons i is ih =>
    rw [countP_cons, map_cons, sum_cons, ih, getLsbD, Nat.testBit_eq_decide_div_mod_eq, add_comm]
    congr 1
    rcases Nat.mod_two_eq_zero_or_one (a.toNat / 2 ^ i) with h | h
    · simp [h]
    · simp [h]

/- On words of any width an operator is its instruction. -/
theorem eval_eq_unary (op : UnaryOp) (a : BitVec w) :
    Instruction.unary w op.mnemonic a.toNat = .result (op.eval a) := by
  cases op with
  | eqz => simp only [Instruction.unary, mnemonic, eval, Instruction.toNat_eq_zero]
  | clz => rw [eval_clz]; rfl
  | ctz => rw [eval_ctz]; rfl
  | popcnt => rw [eval_popcnt]; rfl

/- An operator counts at most the bits of a word. -/
theorem eval_le (hWidth : 0 < w) (op : UnaryOp) (a : BitVec w) : op.eval a ≤ w := by
  cases op with
  | eqz =>
    rw [eval]
    split <;> omega
  | clz =>
    rw [eval_clz]
    exact Nat.sub_le _ _
  | ctz =>
    rw [eval]
    exact ( takeWhile_prefix _).length_le.trans_eq length_range
  | popcnt =>
    rw [eval]
    exact countP_le_length.trans_eq length_range

end UnaryOp

-- Agreement

/- The width of the integers of a machine type. -/
def MachineType.width? : MachineType → Option Nat
  | .i32 => some 32
  | .i64 => some 64
  | .f32 | .f64 => none

/-
  Whether an integer is the result of an instruction, extended
  with its sign, and is missing where the instruction traps.
-/
def Agrees (w : Nat) (answer : Option Int64) (outcome : Outcome) : Prop :=
  match answer with
  | some r => ∃ n < 2 ^ w, outcome = .result n ∧ r.toInt = signed w n
  | none => outcome = .trap

/- Whether a width has an integer. -/
def InRange (w : Nat) (a : Int64) : Prop :=
  -(2 ^ (w - 1) : Nat) ≤ a.toInt ∧ a.toInt < (2 ^ (w - 1) : Nat)

instance (w : Nat) (a : Int64) : Decidable (InRange w a) :=
  inferInstanceAs (Decidable (_ ∧ _))

variable {ty : MachineType} {w : Nat}

theorem MachineType.width_bounds (hTy : ty.width? = some w) : 0 < w ∧ w ≤ 64 := by
  cases ty <;> cases hTy <;> decide

theorem Agrees.extended (hWidth : w ≤ 64) (word : Option (BitVec w)) :
    Agrees w (word.map extendSigned) (outcomeOf word) := by
  cases word with
  | none => rfl
  | some r =>
    refine ⟨r.toNat, r.isLt, rfl, ?_⟩
    rw [Instruction.toInt_extendSigned hWidth, Instruction.signed_toNat]

/- Small numbers stand for themselves. -/
theorem Agrees.small (hSmall : 2 * n < 2 ^ w) (hWidth : w ≤ 64) :
    Agrees w (some (Int64.ofNat n)) (.result n) := by
  have hPower : 2 ^ w ≤ 2 ^ 64 := Nat.pow_le_pow_right (by norm_num) hWidth
  refine ⟨n, by omega, rfl, ?_⟩
  rw [signed, if_pos hSmall, Int64.toInt_ofNat_of_lt (by omega)]

/- An integer in range is the number it has at the width. -/
theorem signed_encode (hWidth : 0 < w) (hRange : InRange w a) :
    signed w (encode w a.toInt) = a.toInt := by
  have hHalf : 2 ^ w = 2 * 2 ^ (w - 1) := by rw [← pow_succ', Nat.sub_add_cancel hWidth]
  rcases hRange with ⟨hLow, hHigh⟩
  have hPos := Nat.two_pow_pos (w - 1)
  rw [signed, encode, hHalf]
  generalize 2 ^ (w - 1) = half at hLow hHigh hPos ⊢
  push_cast
  rcases Int.le_total 0 a.toInt with hSign | hSign
  · rw [Int.emod_eq_of_lt hSign (by omega)]
    split <;> omega
  rcases hSign.eq_or_lt with hZero | hNegative
  · simp [hZero]
  · rw [← Int.add_emod_right, Int.emod_eq_of_lt (by omega) (by omega)]
    split <;> omega

namespace BinaryOp

theorem apply_eq (hTy : ty.width? = some w) (op : BinaryOp) (a b : Int64) :
    op.apply ty a b = (op.eval (cut w a) (cut w b)).map extendSigned := by
  cases ty <;> cases hTy <;> rfl

theorem apply_agrees (hTy : ty.width? = some w) (op : BinaryOp) (a b : Int64)
    (hFits : op = .rem → ¬Overflows w (encode w a.toInt) (encode w b.toInt)) :
    Agrees w (op.apply ty a b) (Instruction.binary w op.mnemonic
        (encode w a.toInt) (encode w b.toInt)) := by
  rcases MachineType.width_bounds hTy with ⟨hPos, hWidth⟩
  rw [← Instruction.toNat_cut hWidth, ← Instruction.toNat_cut hWidth] at hFits ⊢
  rw [apply_eq hTy, ← eval_eq_binary hPos op _ _ hFits]
  exact .extended hWidth _

theorem apply_rem_overflow (hTy : ty.width? = some w) (a b : Int64)
    (hOver : Overflows w (encode w a.toInt) (encode w b.toInt)) :
    rem.apply ty a b = none ∧ Instruction.binary w rem.mnemonic
          (encode w a.toInt) (encode w b.toInt)
        = .result 0 := by
  rcases MachineType.width_bounds hTy with ⟨hPos, hWidth⟩
  rw [← Instruction.toNat_cut hWidth, ← Instruction.toNat_cut hWidth] at hOver ⊢
  rcases eval_rem_overflow hPos _ _ hOver with ⟨hNone, hZero⟩
  exact ⟨by rw [apply_eq hTy, hNone, Option.map_none], hZero⟩

end BinaryOp

theorem UnaryOp.apply_agrees (hTy : ty.width? = some w) (op : UnaryOp) (a : Int64) :
    Agrees w (op.apply ty a) (Instruction.unary w op.mnemonic (encode w a.toInt)) := by
  rcases MachineType.width_bounds hTy with ⟨hPos, hWidth⟩
  have hApply : op.apply ty a = some (Int64.ofNat (op.eval (cut w a))) := by
    cases ty <;> cases hTy <;> rfl
  have hSmall : 2 * op.eval (cut w a) < 2 ^ w := by
    have hCount := op.eval_le hPos (cut w a)
    have hPower : 2 * w < 2 ^ w := by
      cases ty <;> cases hTy <;> decide
    omega
  rw [hApply, ← Instruction.toNat_cut hWidth, op.eval_eq_unary]
  exact .small hSmall hWidth

namespace Relation

/- A relation on integers in range is the one on their numbers. -/
theorem relational_encode (hWidth : 0 < w) (op : Relation) (hLeft : InRange w a)
    (hRight : InRange w b) :
    Instruction.relational w op.mnemonic (encode w a.toInt) (encode w b.toInt)
      = .result (if op.holds a b then 1 else 0) := by
  have hLeft := signed_encode hWidth hLeft
  have hRight := signed_encode hWidth hRight
  have hEq : encode w a.toInt = encode w b.toInt ↔ a = b := by
    refine ⟨fun h => ?_, fun h => by rw [h]⟩
    rw [← Int64.toInt_inj, ← hLeft, ← hRight, h]
  cases op <;>
    simp [Instruction.relational, Instruction.truth, mnemonic, holds,
      hLeft, hRight, hEq, Int64.lt_iff_toInt_lt, Int64.le_iff_toInt_le]

theorem apply_agrees (hTy : ty.width? = some w) (op : Relation) (hLeft : InRange w a)
    (hRight : InRange w b) :
    Agrees w (some (op.apply a b)) (Instruction.relational w op.mnemonic
        (encode w a.toInt) (encode w b.toInt)) := by
  rcases MachineType.width_bounds hTy with ⟨hPos, hWidth⟩
  have hPower : 2 * 1 < 2 ^ w := by
    cases ty <;> cases hTy <;> decide
  have hApply : op.apply a b = Int64.ofNat (if op.holds a b then 1 else 0) := by
    rw [apply]
    split <;> rfl
  rw [relational_encode hPos op hLeft hRight, hApply]
  exact .small (by split <;> omega) hWidth

end Relation

/-
  Operators give what the instructions of their names give at the width of the type, and nothing
  where these trap.  The only exception is the remainder that overflows.
-/
theorem operators_agree (ty : MachineType) (w : Nat) (hTy : ty.width? = some w) (a b : Int64) :
    (∀ op : BinaryOp, (op = .rem → ¬Overflows w (encode w a.toInt) (encode w b.toInt)) →
        Agrees w (op.apply ty a b) (Instruction.binary w op.mnemonic
            (encode w a.toInt) (encode w b.toInt)))
      ∧ (Overflows w (encode w a.toInt) (encode w b.toInt) →
          BinaryOp.rem.apply ty a b = none ∧ Instruction.binary w BinaryOp.rem.mnemonic
                (encode w a.toInt) (encode w b.toInt)
              = .result 0)
      ∧ (∀ op : UnaryOp, Agrees w (op.apply ty a)
            (Instruction.unary w op.mnemonic (encode w a.toInt)))
      ∧ ∀ op : Relation, InRange w a → InRange w b →
          Agrees w (some (op.apply a b)) (Instruction.relational w op.mnemonic
              (encode w a.toInt) (encode w b.toInt)) :=
  ⟨fun op => op.apply_agrees hTy a b, BinaryOp.apply_rem_overflow hTy a b,
    fun op => op.apply_agrees hTy a,
    fun op => op.apply_agrees hTy⟩

/- The least number of 32 bits and minus one. -/
theorem least_by_minus_one :
    Overflows 32 (encode 32 (-2147483648 : Int64).toInt) (encode 32 (-1 : Int64).toInt)
      ∧ BinaryOp.rem.apply .i32 (-2147483648) (-1) = none
      ∧ Agrees 32 (BinaryOp.div.apply .i32 (-2147483648) (-1))
          (Instruction.binary 32 "div_s"
            (encode 32 (-2147483648 : Int64).toInt)
            (encode 32 (-1 : Int64).toInt))
      ∧ InRange 32 (-2147483648)
      ∧ InRange 32 (-1)
      ∧ Agrees 32 (some (Relation.lt.apply (-2147483648) (-1)))
          (Instruction.relational 32 "lt_s"
            (encode 32 (-2147483648 : Int64).toInt)
            (encode 32 (-1 : Int64).toInt)) := by
  have hAgree := operators_agree .i32 32 rfl (-2147483648) (-1)
  have hOver : Overflows 32 (encode 32 (-2147483648 : Int64).toInt)
        (encode 32 (-1 : Int64).toInt) := by
    decide
  have hLeast : InRange 32 (-2147483648) := by decide
  have hOne : InRange 32 (-1) := by decide
  exact ⟨hOver, (hAgree.2.1 hOver).1, hAgree.1 .div (by decide), hLeast,
    hOne, hAgree.2.2.2 .lt hLeast hOne⟩

end RubyWat.Wasm
