import Bourse.Data.Bytes

/-!
# CRC-32C

The Castagnoli checksum, bit by bit: the register is reflected, starts with all bits
set and is complemented at the end.  Every shift is one-to-one, so a single changed byte
changes the checksum.
-/

namespace Bourse

namespace Crc32c

/-- Shift one bit out of the register. -/
def shift (register : UInt32) : UInt32 :=
  if register &&& 1 = 1 then (register >>> 1) ^^^ 0x82F63B78 else register >>> 1

/-- Feed one byte. -/
def feed (register : UInt32) (byte : UInt8) : UInt32 :=
  Nat.repeat shift 8 (register ^^^ byte.toUInt32)

def checksum (bytes : Bytes) : UInt32 := ~~~bytes.foldl feed 0xFFFFFFFF

-- The digits 1 to 9 in ASCII, the usual check value.
example : checksum [0x31, 0x32, 0x33, 0x34, 0x35, 0x36, 0x37, 0x38, 0x39] = 0xE3069283 := by
  decide +kernel

/-- A checksum that notices every flip of a single bit. -/
def DetectsFlips (crc : Bytes → UInt32) : Prop :=
  ∀ bytes bit, bit < 8 * bytes.length → crc (bytes.flipBit bit) ≠ crc bytes

/-! ## Single flips -/

theorem low_bit {register : UInt32} :
    register &&& 1 = 1 ↔ register.toBitVec.getLsbD 0 = true := by
  have bit : (register &&& 1).toBitVec =
      BitVec.setWidth 32 (BitVec.ofBool (register.toBitVec.getLsbD 0)) := by
    rw [UInt32.toBitVec_and]
    exact BitVec.and_one_eq_setWidth_ofBool_getLsbD
  rw [← UInt32.toBitVec_inj, bit]
  cases register.toBitVec.getLsbD 0 <;> decide

/-- The bit that is shifted out comes back on top, as the polynomial has its top bit set. -/
theorem top_bit_shift (register : UInt32) :
    (shift register).toBitVec.getLsbD 31 = register.toBitVec.getLsbD 0 := by
  have empty : (register >>> 1).toBitVec.getLsbD 31 = false := by
    simp [UInt32.toBitVec_shiftRight, BitVec.getLsbD_of_ge]
  unfold shift
  split
  next odd =>
    rw [low_bit.mp odd, UInt32.toBitVec_xor, BitVec.getLsbD_xor, empty]
    decide
  next even =>
    rw [empty]
    exact (Bool.eq_false_iff.mpr fun set => even (low_bit.mpr set)).symm

theorem shift_injective : Function.Injective shift := by
  intro left right same
  have lowSame : left.toBitVec.getLsbD 0 = right.toBitVec.getLsbD 0 := by
    rw [← top_bit_shift, ← top_bit_shift, same]
  have highSame : left >>> 1 = right >>> 1 := by
    unfold shift at same
    simp only [low_bit, lowSame] at same
    split at same
    · exact (UInt32.xor_left_inj _).mp same
    · exact same
  apply UInt32.toBitVec_inj.mp
  apply BitVec.eq_of_getLsbD_eq
  intro index inside
  cases index with
  | zero => exact lowSame
  | succ index =>
      have shifted := congrArg (fun register => register.toBitVec.getLsbD index) highSame
      simpa [UInt32.toBitVec_shiftRight, Nat.add_comm 1 index] using shifted

theorem repeat_shift_injective (count : Nat) : Function.Injective (Nat.repeat shift count) := by
  induction count with
  | zero => exact fun left right same => same
  | succ count ih => exact fun left right same => ih (shift_injective same)

theorem feed_injective_left (byte : UInt8) :
    Function.Injective fun register => feed register byte := by
  intro left right same
  exact (UInt32.xor_left_inj _).mp (repeat_shift_injective 8 same)

theorem feed_injective_right (register : UInt32) : Function.Injective (feed register) := by
  intro left right same
  have wide := (UInt32.xor_right_inj _).mp (repeat_shift_injective 8 same)
  exact UInt8.toUInt32_inj.mp wide

theorem foldl_feed_injective (bytes : Bytes) :
    Function.Injective fun register => bytes.foldl feed register := by
  induction bytes with
  | nil => exact fun left right same => same
  | cons byte rest ih => exact fun left right same => feed_injective_left byte (ih same)

theorem foldl_feed_flipBit (register : UInt32) {bytes : Bytes} {bit : Nat}
    (inside : bit < 8 * bytes.length) :
    (bytes.flipBit bit).foldl feed register ≠ bytes.foldl feed register := by
  induction bytes generalizing register bit with
  | nil => exact absurd inside (Nat.not_lt_zero bit)
  | cons byte rest ih =>
      rw [List.length_cons] at inside
      rw [Bytes.flipBit]
      split
      next first =>
        intro same
        exact Bytes.flipped_ne first byte
          (feed_injective_right register (foldl_feed_injective rest same))
      next => exact ih (feed register byte) (by omega)

/-- CRC-32C notices every flip of a single bit. -/
theorem checksum_detectsFlips : DetectsFlips checksum := by
  intro bytes bit inside same
  exact foldl_feed_flipBit 0xFFFFFFFF inside (UInt32.not_inj.mp same)

end Crc32c

end Bourse
