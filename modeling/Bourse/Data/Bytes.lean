import Mathlib.Algebra.Ring.Nat
import Mathlib.Data.List.Basic

/-!
# Byte strings and little-endian integers

Fixed-width integers as little-endian bytes, and reading a byte string from the
front.  A read takes exactly the bytes it asks for or fails; what an encoder wrote
in front of a byte string is read back with that byte string left over.
-/

namespace Bourse

/-- A byte string. -/
abbrev Bytes := List UInt8

namespace Bytes

/-! ## Natural numbers -/

/-- The `width` low bytes of a number, least significant first. -/
def ofNat : (width value : Nat) → Bytes
  | 0, _ => []
  | width + 1, value => UInt8.ofNat value :: ofNat width (value / 256)

/-- The number whose little-endian bytes are given. -/
def toNat : Bytes → Nat
  | [] => 0
  | byte :: rest => byte.toNat + 256 * toNat rest

@[simp] theorem length_ofNat (width value : Nat) : (ofNat width value).length = width := by
  induction width generalizing value with
  | zero => rfl
  | succ width ih => rw [ofNat, List.length_cons, ih]

theorem toNat_ofNat {width value : Nat} (fits : value < 256 ^ width) :
    toNat (ofNat width value) = value := by
  induction width generalizing value with
  | zero =>
      rw [Nat.pow_zero, Nat.lt_one_iff] at fits
      rw [fits]
      rfl
  | succ width ih =>
      have high : value / 256 < 256 ^ width := by
        rw [Nat.div_lt_iff_lt_mul (by decide), ← Nat.pow_succ]
        exact fits
      have low : (UInt8.ofNat value).toNat = value % 256 := UInt8.toNat_ofNat'
      rw [ofNat, toNat, ih high, low]
      omega

theorem ofNat_toNat (bytes : Bytes) : ofNat bytes.length (toNat bytes) = bytes := by
  induction bytes with
  | nil => rfl
  | cons byte rest ih =>
      have low : UInt8.ofNat (byte.toNat + 256 * toNat rest) = byte := by
        apply UInt8.toNat_inj.mp
        rw [UInt8.toNat_ofNat']
        have small := byte.toNat_lt
        omega
      have high : (byte.toNat + 256 * toNat rest) / 256 = toNat rest := by
        have small := byte.toNat_lt
        omega
      rw [List.length_cons, toNat, ofNat, low, high, ih]

theorem toNat_lt (bytes : Bytes) : toNat bytes < 256 ^ bytes.length := by
  induction bytes with
  | nil => exact Nat.one_pos
  | cons byte rest ih =>
      have small := byte.toNat_lt
      rw [List.length_cons, toNat, Nat.pow_succ]
      omega

/-! ## Fixed-width integers -/

/-- `u32::to_le_bytes`. -/
def ofU32 (value : UInt32) : Bytes := ofNat 4 value.toNat

/-- `u64::to_le_bytes`. -/
def ofU64 (value : UInt64) : Bytes := ofNat 8 value.toNat

/-- `i64::to_le_bytes`. -/
def ofI64 (value : Int64) : Bytes := ofU64 value.toUInt64

/-- `u32::from_le_bytes`. -/
def toU32 (bytes : Bytes) : UInt32 := UInt32.ofNat bytes.toNat

/-- `u64::from_le_bytes`. -/
def toU64 (bytes : Bytes) : UInt64 := UInt64.ofNat bytes.toNat

/-- `i64::from_le_bytes`. -/
def toI64 (bytes : Bytes) : Int64 := bytes.toU64.toInt64

@[simp] theorem length_ofU32 (value : UInt32) : (ofU32 value).length = 4 := length_ofNat ..

@[simp] theorem length_ofU64 (value : UInt64) : (ofU64 value).length = 8 := length_ofNat ..

@[simp] theorem length_ofI64 (value : Int64) : (ofI64 value).length = 8 := length_ofNat ..

@[simp] theorem toU32_ofU32 (value : UInt32) : toU32 (ofU32 value) = value := by
  rw [toU32, ofU32, toNat_ofNat value.toNat_lt, UInt32.ofNat_toNat]

@[simp] theorem toU64_ofU64 (value : UInt64) : toU64 (ofU64 value) = value := by
  rw [toU64, ofU64, toNat_ofNat value.toNat_lt, UInt64.ofNat_toNat]

@[simp] theorem toI64_ofI64 (value : Int64) : toI64 (ofI64 value) = value := by
  rw [toI64, ofI64, toU64_ofU64, Int64.toInt64_toUInt64]

theorem ofU32_toU32 {bytes : Bytes} (size : bytes.length = 4) :
    ofU32 (toU32 bytes) = bytes := by
  have width : 256 ^ 4 = 2 ^ 32 := by decide
  have small := toNat_lt bytes
  rw [size, width] at small
  rw [ofU32, toU32, UInt32.toNat_ofNat', Nat.mod_eq_of_lt small, ← size, ofNat_toNat]

theorem ofU64_toU64 {bytes : Bytes} (size : bytes.length = 8) :
    ofU64 (toU64 bytes) = bytes := by
  have width : 256 ^ 8 = 2 ^ 64 := by decide
  have small := toNat_lt bytes
  rw [size, width] at small
  rw [ofU64, toU64, UInt64.toNat_ofNat', Nat.mod_eq_of_lt small, ← size, ofNat_toNat]

/-! ## Reading from the front -/

/-- Take exactly `count` bytes; `none` when fewer are left. -/
def readExact (count : Nat) (input : Bytes) : Option (Bytes × Bytes) :=
  if count ≤ input.length then some (input.take count, input.drop count) else none

/-- Take one byte. -/
def readU8 : Bytes → Option (UInt8 × Bytes)
  | [] => none
  | byte :: rest => some (byte, rest)

/-- Take a `u64`. -/
def readU64 (input : Bytes) : Option (UInt64 × Bytes) :=
  (readExact 8 input).map fun read => (read.1.toU64, read.2)

/-- Take an `i64`. -/
def readI64 (input : Bytes) : Option (Int64 × Bytes) :=
  (readU64 input).map fun read => (read.1.toInt64, read.2)

theorem readExact_append {count : Nat} {block : Bytes} (size : block.length = count)
    (rest : Bytes) : readExact count (block ++ rest) = some (block, rest) := by
  subst size
  simp [readExact]

theorem readExact_short {count : Nat} {input : Bytes} (short : input.length < count) :
    readExact count input = none := by
  rw [readExact, if_neg (Nat.not_le.mpr short)]

theorem readExact_eq_some_iff {count : Nat} {input block rest : Bytes} :
    readExact count input = some (block, rest) ↔
      count ≤ input.length ∧ block = input.take count ∧ rest = input.drop count := by
  unfold readExact
  split
  next enough => simp [enough, eq_comm]
  next short => simp [short]

theorem readExact_eq_some {count : Nat} {input block rest : Bytes}
    (read : readExact count input = some (block, rest)) :
    input = block ++ rest ∧ block.length = count := by
  rcases readExact_eq_some_iff.mp read with ⟨enough, rfl, rfl⟩
  exact ⟨(List.take_append_drop count input).symm, List.length_take_of_le enough⟩

@[simp] theorem readU8_cons (byte : UInt8) (rest : Bytes) :
    readU8 (byte :: rest) = some (byte, rest) := rfl

@[simp] theorem readU64_append (value : UInt64) (rest : Bytes) :
    readU64 (ofU64 value ++ rest) = some (value, rest) := by
  rw [readU64, readExact_append (length_ofU64 value), Option.map_some, toU64_ofU64]

@[simp] theorem readI64_append (value : Int64) (rest : Bytes) :
    readI64 (ofI64 value ++ rest) = some (value, rest) := by
  rw [readI64, ofI64, readU64_append, Option.map_some, Int64.toInt64_toUInt64]

/-! ## Flipped bits -/

/-- Flip one bit, counted from the least significant one of the first byte. -/
def flipBit : Bytes → Nat → Bytes
  | [], _ => []
  | byte :: rest, bit =>
      if bit < 8 then (byte ^^^ (1 <<< UInt8.ofNat bit)) :: rest
      else byte :: flipBit rest (bit - 8)

@[simp] theorem length_flipBit (bytes : Bytes) (bit : Nat) :
    (flipBit bytes bit).length = bytes.length := by
  induction bytes generalizing bit with
  | nil => rfl
  | cons byte rest ih =>
      rw [flipBit]
      split
      · rfl
      · rw [List.length_cons, ih, List.length_cons]

theorem flipped_ne {bit : Nat} (inside : bit < 8) (byte : UInt8) :
    byte ^^^ (1 <<< UInt8.ofNat bit) ≠ byte := by
  have set : ∀ bit : Fin 8, 1 <<< UInt8.ofNat bit.val ≠ (0 : UInt8) := by decide
  intro same
  have cleared := congrArg (byte ^^^ ·) same
  simp only [← UInt8.xor_assoc, UInt8.xor_self, UInt8.zero_xor] at cleared
  exact set ⟨bit, inside⟩ cleared

theorem flipBit_ne {bytes : Bytes} {bit : Nat} (inside : bit < 8 * bytes.length) :
    flipBit bytes bit ≠ bytes := by
  induction bytes generalizing bit with
  | nil => exact absurd inside (Nat.not_lt_zero bit)
  | cons byte rest ih =>
      rw [List.length_cons] at inside
      rw [flipBit]
      split
      next first =>
        intro same
        exact flipped_ne first byte (List.cons.inj same).1
      next =>
        intro same
        exact ih (by omega) (List.cons.inj same).2

theorem flipBit_append_left {front : Bytes} {bit : Nat} (inside : bit < 8 * front.length)
    (back : Bytes) : flipBit (front ++ back) bit = flipBit front bit ++ back := by
  induction front generalizing bit with
  | nil => exact absurd inside (Nat.not_lt_zero bit)
  | cons byte rest ih =>
      rw [List.length_cons] at inside
      rw [List.cons_append, flipBit, flipBit]
      split
      · rfl
      · rw [ih (by omega), List.cons_append]

theorem flipBit_append_right (front back : Bytes) (bit : Nat) :
    flipBit (front ++ back) (8 * front.length + bit) = front ++ flipBit back bit := by
  induction front with
  | nil => rw [List.length_nil, Nat.mul_zero, Nat.zero_add, List.nil_append, List.nil_append]
  | cons byte rest ih =>
      have behind : ¬8 * (rest.length + 1) + bit < 8 := by omega
      have less : 8 * (rest.length + 1) + bit - 8 = 8 * rest.length + bit := by omega
      rw [List.length_cons, List.cons_append, flipBit, if_neg behind, less, ih,
        List.cons_append]

/-- A flipped bit makes another number of the same width. -/
theorem flipBit_ofU32 {bit : Nat} (inside : bit < 32) (value : UInt32) :
    ∃ flipped, flipped ≠ value ∧ flipBit (ofU32 value) bit = ofU32 flipped := by
  have size : (flipBit (ofU32 value) bit).length = 4 := by simp
  have changed : flipBit (ofU32 value) bit ≠ ofU32 value := by
    apply flipBit_ne
    rw [length_ofU32]
    exact inside
  refine ⟨toU32 (flipBit (ofU32 value) bit), ?_, (ofU32_toU32 size).symm⟩
  intro same
  rw [← ofU32_toU32 size, same] at changed
  exact changed rfl

/-! ## What a read can have read -/

theorem readU8_eq_some {input : Bytes} {byte : UInt8} {rest : Bytes}
    (read : readU8 input = some (byte, rest)) : input = byte :: rest := by
  cases input with
  | nil => cases read
  | cons head tail =>
      cases read
      rfl

theorem readU64_eq_some_iff {input rest : Bytes} {value : UInt64} :
    readU64 input = some (value, rest) ↔
      8 ≤ input.length ∧ value = toU64 (input.take 8) ∧ rest = input.drop 8 := by
  simp only [readU64, Option.map_eq_some_iff, Prod.exists, readExact_eq_some_iff,
    Prod.mk.injEq]
  constructor
  · intro read
    rcases read with ⟨block, after, ⟨enough, rfl, rfl⟩, rfl, rfl⟩
    exact ⟨enough, rfl, rfl⟩
  · intro read
    rcases read with ⟨enough, rfl, rfl⟩
    exact ⟨_, _, ⟨enough, rfl, rfl⟩, rfl, rfl⟩

theorem readU64_eq_some {input : Bytes} {value : UInt64} {rest : Bytes}
    (read : readU64 input = some (value, rest)) : input = ofU64 value ++ rest := by
  rcases readU64_eq_some_iff.mp read with ⟨enough, rfl, rfl⟩
  rw [ofU64_toU64 (List.length_take_of_le enough), List.take_append_drop]

theorem readI64_eq_some {input : Bytes} {value : Int64} {rest : Bytes}
    (read : readI64 input = some (value, rest)) : input = ofI64 value ++ rest := by
  rcases Option.map_eq_some_iff.mp read with ⟨⟨unsigned, after⟩, taken, equal⟩
  rcases Prod.mk.inj equal with ⟨rfl, rfl⟩
  rw [ofI64, UInt64.toUInt64_toInt64]
  exact readU64_eq_some taken

/-! ## Torn byte strings -/

/-- A proper prefix ends inside the first block, or has it whole and ends behind it. -/
theorem split_within {cut block rest : Bytes} (within : cut <+: block ++ rest)
    (proper : cut ≠ block ++ rest) :
    cut.length < block.length ∨ ∃ less, cut = block ++ less ∧ less <+: rest ∧ less ≠ rest := by
  by_cases short : cut.length < block.length
  · exact .inl short
  · right
    rcases List.prefix_of_prefix_length_le (List.prefix_append block rest) within
      (Nat.le_of_not_lt short) with ⟨less, rfl⟩
    refine ⟨less, rfl, (List.prefix_append_right_inj block).mp within, ?_⟩
    intro same
    exact proper (by rw [same])

end Bytes

end Bourse
