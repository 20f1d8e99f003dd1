import Mathlib.Data.Nat.ModEq
import Mathlib.Data.Nat.Prime.Basic

/-!
# Free-running ring indices

A ring buffer of `capacity` slots counts its reads and writes in `w`-bit indices
that wrap at `2 ^ w` and finds a slot by masking an index with `capacity - 1`.
Where `capacity` divides `2 ^ w`, the slot of the `n`-th write is `n % capacity`, and
indices of a window shorter than `2 ^ w` compare and subtract like the counts.
-/

namespace Bourse

namespace RingIndex

variable {w : Nat}

/-- The wrapping difference of two counts that are close. -/
theorem toNat_sub {earlier later : Nat} (le : earlier ≤ later)
    (close : later - earlier < 2 ^ w) :
    (BitVec.ofNat w later - BitVec.ofNat w earlier).toNat = later - earlier := by
  have shift : BitVec.ofNat w later =
      BitVec.ofNat w earlier + BitVec.ofNat w (later - earlier) := by
    rw [← BitVec.ofNat_add, Nat.add_sub_cancel' le]
  rw [shift, BitVec.add_comm, BitVec.add_sub_cancel, BitVec.toNat_ofNat,
    Nat.mod_eq_of_lt close]

/-- Two counts that are close have the same index only if they are equal. -/
theorem ofNat_inj {earlier later : Nat} (le : earlier ≤ later)
    (close : later - earlier < 2 ^ w) :
    BitVec.ofNat w earlier = BitVec.ofNat w later ↔ earlier = later := by
  constructor
  · intro equal
    have difference := toNat_sub le close
    rw [equal, BitVec.sub_self] at difference
    simp at difference
    omega
  · intro equal
    rw [equal]

/-- Two counts that are near each other, whichever is the later one. -/
theorem eq_of_ofNat_eq {left right distance : Nat} (forth : left ≤ right + distance)
    (back : right ≤ left + distance) (short : distance < 2 ^ w)
    (equal : BitVec.ofNat w left = BitVec.ofNat w right) : left = right := by
  rcases Nat.le_total left right with before | after
  · exact (ofNat_inj before (by omega)).mp equal
  · exact ((ofNat_inj after (by omega)).mp equal.symm).symm

theorem toNat_sub_one {value : BitVec w} (positive : 0 < value.toNat) :
    (value - 1#w).toNat = value.toNat - 1 := by
  have one_le : 1#w ≤ value := by
    rw [BitVec.le_def, BitVec.toNat_ofNat]
    exact (Nat.mod_le _ _).trans positive
  rcases Nat.eq_zero_or_pos w with rfl | width
  · have small := value.isLt
    omega
  · rw [BitVec.toNat_sub_of_le one_le, BitVec.toNat_ofNat,
      Nat.mod_eq_of_lt (Nat.one_lt_two_pow (by omega))]

/-- Masking an index finds the slot of its count. -/
theorem toNat_and_mask {capacity : BitVec w} (divides : capacity.toNat ∣ 2 ^ w)
    (count : Nat) :
    (BitVec.ofNat w count &&& (capacity - 1#w)).toNat = count % capacity.toNat := by
  have positive : 0 < capacity.toNat := Nat.pos_of_dvd_of_pos divides (Nat.two_pow_pos w)
  rcases (Nat.dvd_prime_pow Nat.prime_two).mp divides with ⟨bits, -, power⟩
  rw [BitVec.toNat_and, toNat_sub_one positive, BitVec.toNat_ofNat]
  rw [power] at divides ⊢
  rw [Nat.and_two_pow_sub_one_eq_mod, Nat.mod_mod_of_dvd _ divides]

/-- Counts in a window shorter than the ring have different slots. -/
theorem mod_ne {capacity earlier later : Nat} (less : earlier < later)
    (window : later < earlier + capacity) : earlier % capacity ≠ later % capacity := by
  intro equal
  have divides : capacity ∣ later - earlier := (Nat.modEq_iff_dvd' less.le).mp equal
  exact absurd (Nat.le_of_dvd (by omega) divides) (by omega)

/-- Advancing an index towards another shortens the way. -/
theorem toNat_sub_succ_lt {index target : BitVec w} (differ : index ≠ target) :
    (target - (index + 1#w)).toNat < (target - index).toNat := by
  have way : target - index ≠ 0#w := by
    intro none
    apply differ
    grind
  have positive : 0 < (target - index).toNat := by
    rw [Nat.pos_iff_ne_zero]
    intro zero
    exact way (BitVec.eq_of_toNat_eq (by simpa using zero))
  have step : target - (index + 1#w) = target - index - 1#w := by
    grind
  rw [step, toNat_sub_one positive]
  omega

end RingIndex

end Bourse
