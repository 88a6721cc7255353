import Mathlib.Algebra.Group.Nat.Defs
import RubyWat.Proofs.InitialMemory

/-
  Integers in memory.

  Main statement: memory is an array of bytes in which integers lie with their lowest byte
  first.  An access fails if and only if it reaches past the end, what is stored is what is
  loaded, all other bytes stay, and a wide integer is two narrow ones (`memory_holds_integers`).
-/

-- Numbers And Bytes

namespace RubyWat.Machine

open Wasm List Nat

open DataValue (littleEndian)

namespace Memory

theorem length_littleEndian (count n : Nat) : (littleEndian count n).length = count := by
  induction count generalizing n with
  | zero => rfl
  | succ count ih => rw [littleEndian, length_cons, ih]

/- Bytes keep of a number what fits into them. -/
theorem ofLittleEndian_littleEndian (count n : Nat) :
    ofLittleEndian (littleEndian count n) = n % 256 ^ count := by
  induction count generalizing n with
  | zero => rw [littleEndian, ofLittleEndian, pow_zero, mod_one]
  | succ count ih =>
    have hByte : (UInt8.ofNat (n % 256)).toNat = n % 256 := by simp
    rw [littleEndian, ofLittleEndian, ih, hByte, pow_succ', mod_mul]

theorem littleEndian_ofLittleEndian (bytes : List UInt8) :
    littleEndian bytes.length (ofLittleEndian bytes) = bytes := by
  induction bytes with
  | nil => rfl
  | cons b bytes ih =>
    have hByte := b.toNat_lt
    have hRest : (b.toNat + 256 * ofLittleEndian bytes) / 256 = ofLittleEndian bytes := by omega
    rw [length_cons, littleEndian, ofLittleEndian, hRest, ih, add_mul_mod_self_left,
      mod_eq_of_lt hByte, UInt8.ofNat_toNat]

theorem ofLittleEndian_append (low high : List UInt8) :
    ofLittleEndian (low ++ high) = ofLittleEndian low + 256 ^ low.length * ofLittleEndian high := by
  induction low with
  | nil => simp [ofLittleEndian]
  | cons b low ih =>
    rw [List.cons_append, ofLittleEndian, ih, ofLittleEndian, List.length_cons, Nat.pow_succ',
      Nat.mul_add, Nat.mul_assoc, Nat.add_assoc]

theorem ofLittleEndian_lt (bytes : List UInt8) : ofLittleEndian bytes < 256 ^ bytes.length := by
  rw [← littleEndian_ofLittleEndian bytes, ofLittleEndian_littleEndian, length_littleEndian]
  exact Nat.mod_lt _ (Nat.pow_pos (by decide))

-- Bytes In Memory

theorem length_peek (m : Memory) (address count : Nat) : (m.peek address count).length = count := by
  rw [peek_eq, length_map, length_range']

theorem peek_add (m : Memory) (address low high : Nat) :
    m.peek address (low + high) = m.peek address low ++ m.peek (address + low) high := by
  rw [peek_eq, peek_eq, peek_eq, ← map_append, range'_append_1]

/- What was written is read back. -/
theorem peek_poke (m : Memory) (address : Nat) (bytes : List UInt8) :
    (m.poke address bytes).peek address bytes.length = bytes := by
  refine ext_getElem (length_peek _ _ _) fun i _ hIn => ?_
  simp only [peek_eq, getElem_map, getElem_range', byte_poke]
  simp [hIn]

theorem byte_poke_outside (m : Memory) {bytes : List UInt8}
    (hOutside : k < address ∨ address + bytes.length ≤ k) :
    (m.poke address bytes).byte k = m.byte k := by
  rw [byte_poke]
  split
  · rw [getElem?_eq_none (by omega), Option.getD_none]
  · rfl

-- Loads And Stores

variable {ty : MachineType}

/- A wide word is made of two narrow ones. -/
theorem word_append {low : Nat} (hLow : low < 256 ^ 4) (high : Nat) :
    (BitVec.ofNat 32 high ++ BitVec.ofNat 32 low : BitVec 64)
      = BitVec.ofNat 64 (low + 256 ^ 4 * high) := by
  refine BitVec.eq_of_toNat_eq ?_
  rw [BitVec.toNat_append, BitVec.toNat_ofNat, BitVec.toNat_ofNat, BitVec.toNat_ofNat,
    ← shiftLeft_add_eq_or_of_lt (mod_lt _ (by decide)), shiftLeft_eq]
  omega

section

variable (hInteger : ty.isFloat = false)
include hInteger

/- A number gives the value of an integer type that its bytes say. -/
theorem ofType_ofNat (n : Nat) : ∃ x, Value.ofType ty (Int64.ofNat n) = .ok x
      ∧ x.address = n % 256 ^ ty.size := by
  cases ty <;> cases hInteger
  · exact ⟨_, rfl, by simp [Value.narrow, Value.address, MachineType.size]⟩
  · exact ⟨_, rfl, by simp [Value.address, MachineType.size]⟩

/- Only the bytes that a type has count. -/
theorem ofType_mod (raw : Int64) :
    Value.ofType ty (Int64.ofNat (raw.toBitVec.toNat % 256 ^ ty.size)) = Value.ofType ty raw := by
  have hRaw : raw = Int64.ofNat raw.toBitVec.toNat := Int64.toBitVec_inj.mp (by simp)
  generalize raw.toBitVec.toNat = n at hRaw
  subst hRaw
  cases ty <;> cases hInteger
  · simp only [Value.ofType, Value.narrow, Int64.toInt32_ofNat', MachineType.size]
    refine congrArg (Except.ok ∘ Value.i32) (Int32.toBitVec_inj.mp (BitVec.eq_of_toNat_eq ?_))
    simp
  · refine congrArg (Except.ok ∘ Value.i64) (Int64.toBitVec_inj.mp (BitVec.eq_of_toNat_eq ?_))
    simp [MachineType.size]

variable (m : Memory) (address : Nat)

theorem load_eq : m.load ty address = (m.read address ty.size).bind fun bytes =>
      Value.ofType ty (Int64.ofNat (ofLittleEndian bytes)) := by
  cases ty <;> cases hInteger
  all_goals
    simp only [load, MachineType.size]
    rcases m.read address _ with trap | bytes
    · rfl
    · simp [Except.map, Except.bind, Value.ofType, Value.narrow]

theorem load_inside (hInside : address + ty.size ≤ m.size) : m.load ty address
      = Value.ofType ty (Int64.ofNat (ofLittleEndian (m.peek address ty.size))) := by
  rw [load_eq hInteger, read, holds, if_pos (decide_eq_true hInside)]
  rfl

theorem load_error_iff (trap : Trap) : m.load ty address = .error trap ↔
      m.size < address + ty.size ∧ trap = m.outOfBounds address ty.size := by
  by_cases hInside : address + ty.size ≤ m.size
  · rcases ofType_ofNat hInteger (ofLittleEndian (m.peek address ty.size)) with ⟨x, hX, -⟩
    rw [load_inside hInteger m address hInside, hX]
    simp
    omega
  · rw [load_eq hInteger, read, holds, if_neg (by simpa using hInside)]
    simp [Except.bind, Nat.lt_of_not_le hInside, eq_comm]

/- What is loaded lies in memory with its lowest byte first. -/
theorem peek_of_load {x : Value} (hLoad : m.load ty address = .ok x) :
    m.peek address ty.size = littleEndian ty.size x.address := by
  have hInside : address + ty.size ≤ m.size := by
    by_contra hOutside
    have hError := (load_error_iff hInteger m address _).mpr ⟨Nat.lt_of_not_le hOutside, rfl⟩
    rw [hLoad] at hError
    cases hError
  have hLength := length_peek m address ty.size
  have hBound := ofLittleEndian_lt (m.peek address ty.size)
  have hSame := littleEndian_ofLittleEndian (m.peek address ty.size)
  rcases ofType_ofNat hInteger (ofLittleEndian (m.peek address ty.size)) with ⟨y, hY, hAddress⟩
  rw [load_inside hInteger m address hInside, hY] at hLoad
  cases hLoad
  rw [hLength] at hBound hSame
  rw [hAddress, Nat.mod_eq_of_lt hBound, hSame]

theorem store_eq (v : Value) : m.store ty address v = if address + ty.size ≤ m.size then
          .ok (m.poke address (littleEndian ty.size v.toInt64.toBitVec.toNat))
        else .error (m.outOfBounds address ty.size) := by
  simp only [store, storeFault?, hInteger, holds, decide_eq_true_eq, Bool.false_eq_true, if_false]
  split
  · simp_all
  · simp_all [put, DataValue.toBytes]

/- What is stored is loaded again, and nothing else changes. -/
theorem load_store (v : Value) (hStore : m.store ty address v = .ok m') :
    m'.load ty address = Value.ofType ty v.toInt64 ∧ m'.size = m.size
      ∧ ∀ k, k < address ∨ address + ty.size ≤ k → m'.byte k = m.byte k := by
  have hBytes := length_littleEndian ty.size v.toInt64.toBitVec.toNat
  have hSame := peek_poke m address (littleEndian ty.size v.toInt64.toBitVec.toNat)
  rw [hBytes] at hSame
  rw [store_eq hInteger] at hStore
  split at hStore
  · rename_i hInside
    cases hStore
    refine ⟨?_, size_poke .., fun k hOutside => byte_poke_outside m (by rwa [hBytes])⟩
    rw [load_inside hInteger _ _ (by rwa [size_poke]), hSame, ofLittleEndian_littleEndian,
      ofType_mod hInteger]
  · cases hStore

end

/- A wide integer has its low half first. -/
theorem load_wide (m : Memory) (address : Nat) (x : Int64) :
    m.load .i64 address = .ok (.i64 x) ↔ ∃ low high,
      m.load .i32 address = .ok (.i32 low) ∧ m.load .i32 (address + 4) = .ok (.i32 high)
        ∧ x = Int64.ofBitVec (high.toBitVec ++ low.toBitVec) := by
  have hHalf : ∀ address, address + 4 ≤ m.size → m.load .i32 address
      = .ok (.i32 (Int32.ofBitVec (BitVec.ofNat 32 (ofLittleEndian (m.peek address 4))))) :=
    fun address hInside => by simp [load, read, holds, hInside, Except.map]
  by_cases hInside : address + 8 ≤ m.size
  · have hLow := ofLittleEndian_lt (m.peek address 4)
    rw [length_peek] at hLow
    have hWide : m.load .i64 address = .ok (.i64 (Int64.ofBitVec
        (BitVec.ofNat 64 (ofLittleEndian (m.peek address (4 + 4)))))) := by
      simp [load, read, holds, hInside, Except.map]
    rw [hWide, hHalf address (by omega), hHalf (address + 4) (by omega), peek_add,
      ofLittleEndian_append, length_peek, ← word_append hLow]
    constructor
    · rintro ⟨⟩
      exact ⟨_, _, rfl, rfl, rfl⟩
    · rintro ⟨low, high, ⟨⟩, ⟨⟩, rfl⟩
      rfl
  · have hOutside := Nat.lt_of_not_le hInside
    have hWide : m.load .i64 address = _ := (load_error_iff rfl m address _).mpr ⟨hOutside, rfl⟩
    have hHigh : m.load .i32 (address + 4) = _ :=
      (load_error_iff rfl m (address + 4) _).mpr ⟨hOutside, rfl⟩
    rw [hWide, hHigh]
    simp

/-
  Loads and stores fail where they reach past the end of memory, and only there.  A load after a
  store gives the value cut to its width, and a store changes no other bytes and not the size.
  The bytes of what is loaded lie in order, and a wide integer has its low half first.
-/
theorem memory_holds_integers (m : Memory) (hInteger : ty.isFloat = false) (address : Nat)
    (v : Value) :
    (∀ trap, m.load ty address = .error trap ↔
        m.size < address + ty.size ∧ trap = m.outOfBounds address ty.size)
      ∧ (∀ trap, m.store ty address v = .error trap ↔
        m.size < address + ty.size ∧ trap = m.outOfBounds address ty.size)
      ∧ (m.outOfBounds address ty.size).report.code.text = "E6002"
      ∧ (∀ m', m.store ty address v = .ok m' →
          m'.load ty address = Value.ofType ty v.toInt64 ∧ m'.size = m.size
            ∧ ∀ k, k < address ∨ address + ty.size ≤ k → m'.byte k = m.byte k)
      ∧ (∀ x, m.load ty address = .ok x → m.peek address ty.size = littleEndian ty.size x.address)
      ∧ ∀ x, m.load .i64 address = .ok (.i64 x) ↔ ∃ low high,
          m.load .i32 address = .ok (.i32 low) ∧ m.load .i32 (address + 4) = .ok (.i32 high)
            ∧ x = Int64.ofBitVec (high.toBitVec ++ low.toBitVec) := by
  refine ⟨load_error_iff hInteger m address, fun trap => ?_, rfl,
    fun _ => load_store hInteger m address v, fun _ => peek_of_load hInteger m address,
    load_wide m address⟩
  rw [store_eq hInteger]
  split
  · simp
    omega
  · rename_i hOutside
    simp [Nat.lt_of_not_le hOutside, eq_comm]

/- A negative number that ends with the memory. -/
theorem lastWord_held :
    MachineType.i64.isFloat = false ∧ ∃ m, (zeroed 16).store .i64 8 (.i64 (-2)) = .ok m
      ∧ m.load .i64 8 = .ok (.i64 (-2)) ∧ m.byte 7 = 0 := by
  have hInteger : MachineType.i64.isFloat = false := rfl
  rcases memory_holds_integers (zeroed 16) hInteger 8 (.i64 (-2)) with ⟨-, -, -, hStored, -⟩
  rcases hStored _ rfl with ⟨hLoad, -, hRest⟩
  exact ⟨rfl, _, rfl, hLoad, (hRest 7 (.inl (by decide))).trans (byte_zeroed _ _)⟩

end Memory

end RubyWat.Machine
