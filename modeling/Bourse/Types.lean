import Mathlib.Algebra.Ring.Nat
import Mathlib.Order.Lattice
import Mathlib.Order.Monotone.Basic

/-!
# Identifiers, prices, quantities and sequence numbers

The newtypes of `bourse-core/src/types` over the machine integers they wrap.
Orders on them are the orders of the wrapped integers, stated through `Nat` and
`Int` so that arithmetic facts reduce to linear arithmetic.
-/

namespace Bourse

/-- Order side. -/
inductive Side where
  | buy
  | sell
  deriving DecidableEq, Repr

namespace Side

/-- Opposite side. -/
def opposite : Side → Side
  | .buy => .sell
  | .sell => .buy

@[simp] theorem opposite_ne (side : Side) : side.opposite ≠ side := by
  cases side <;> decide

end Side

/-! ## Saturating 64-bit arithmetic -/

/-- `u64::saturating_add`. -/
def saturatingAdd (left right : UInt64) : UInt64 :=
  if left.toNat + right.toNat < 2 ^ 64 then left + right else UInt64.ofNat (2 ^ 64 - 1)

/-- `u64::saturating_sub`. -/
def saturatingSub (left right : UInt64) : UInt64 :=
  if right ≤ left then left - right else 0

theorem toNat_saturatingAdd (left right : UInt64) :
    (saturatingAdd left right).toNat = min (left.toNat + right.toNat) (2 ^ 64 - 1) := by
  unfold saturatingAdd
  split
  next fits =>
    rw [UInt64.toNat_add, Nat.mod_eq_of_lt fits]
    omega
  next overflow =>
    have greatest : (UInt64.ofNat (2 ^ 64 - 1)).toNat = 2 ^ 64 - 1 := by decide
    omega

theorem toNat_saturatingSub (left right : UInt64) :
    (saturatingSub left right).toNat = left.toNat - right.toNat := by
  unfold saturatingSub
  split
  next le => exact UInt64.toNat_sub_of_le left right le
  next greater =>
    have less : left.toNat < right.toNat := UInt64.lt_iff_toNat_lt.mp (by simpa using greater)
    simp only [UInt64.toNat_zero]
    omega

/-! ### Counters that wrap -/

theorem ofNat_succ (count : Nat) :
    UInt64.ofNat (count + 1) = 1 + UInt64.ofNat count := by
  rw [UInt64.ofNat_add, UInt64.add_comm]
  rfl

theorem toNat_add_ofNat {counter : UInt64} {count : Nat}
    (fits : counter.toNat + count < 2 ^ 64) :
    (counter + UInt64.ofNat count).toNat = counter.toNat + count := by
  rw [UInt64.toNat_add, UInt64.toNat_ofNat', Nat.mod_eq_of_lt (show count < 2 ^ 64 by omega),
    Nat.mod_eq_of_lt fits]

theorem toNat_add_one {counter : UInt64} (fits : counter.toNat + 1 < 2 ^ 64) :
    (counter + 1).toNat = counter.toNat + 1 := by
  rw [UInt64.toNat_add, UInt64.toNat_one, Nat.mod_eq_of_lt fits]

theorem toNat_max (left right : UInt64) :
    (max left right).toNat = max left.toNat right.toNat := by
  have unfolded : max left right = if left ≤ right then right else left := rfl
  rw [unfolded, Nat.max_def]
  split
  next less => rw [if_pos (UInt64.le_iff_toNat_le.mp less)]
  next less => rw [if_neg (mt UInt64.le_iff_toNat_le.mpr less)]

/-! ## Newtypes -/

/-- Unique order identifier, opaque to clients. -/
structure OrderId where new ::
  get : UInt64
  deriving DecidableEq, Repr

namespace OrderId

theorem toNat_injective : Function.Injective fun id : OrderId => id.get.toNat := by
  intro left right equal
  cases left
  cases right
  exact congrArg OrderId.new (UInt64.toNat_inj.mp equal)

instance : LinearOrder OrderId := LinearOrder.lift' _ toNat_injective

end OrderId

/-- Fixed-point price: an `i64` scaled by `10^8`. -/
structure Price where fromRaw ::
  raw : Int64
  deriving DecidableEq, Repr

namespace Price

theorem toInt_injective : Function.Injective fun price : Price => price.raw.toInt := by
  intro left right equal
  cases left
  cases right
  exact congrArg Price.fromRaw (Int64.toInt_inj.mp equal)

instance : LinearOrder Price := LinearOrder.lift' _ toInt_injective

/-- Smallest representable price. -/
def minValue : Price := .fromRaw Int64.minValue

/-- Largest representable price. -/
def maxValue : Price := .fromRaw Int64.maxValue

theorem minValue_le (price : Price) : minValue ≤ price := Int64.minValue_le_toInt price.raw

theorem le_maxValue (price : Price) : price ≤ maxValue := Int64.toInt_le price.raw

theorem lt_iff {left right : Price} : left < right ↔ left.raw.toInt < right.raw.toInt :=
  Iff.rfl

end Price

/-- Order quantity. Always non-negative. -/
structure Qty where new ::
  get : UInt64
  deriving DecidableEq, Repr

namespace Qty

/-- Zero. -/
def zero : Qty := .new 0

/-- The quantity as a natural number. -/
def toNat (qty : Qty) : Nat := qty.get.toNat

/-- Saturating add. -/
def saturatingAdd (left right : Qty) : Qty := .new (Bourse.saturatingAdd left.get right.get)

/-- Saturating sub: underflow saturates to zero. -/
def saturatingSub (left right : Qty) : Qty := .new (Bourse.saturatingSub left.get right.get)

theorem toNat_injective : Function.Injective toNat := by
  intro left right equal
  cases left
  cases right
  exact congrArg Qty.new (UInt64.toNat_inj.mp equal)

instance : LinearOrder Qty := LinearOrder.lift' _ toNat_injective

theorem lt_iff {left right : Qty} : left < right ↔ left.toNat < right.toNat := Iff.rfl

theorem eq_iff {left right : Qty} : left = right ↔ left.toNat = right.toNat :=
  toNat_injective.eq_iff.symm

@[simp] theorem toNat_zero : zero.toNat = 0 := rfl

@[simp] theorem toNat_saturatingAdd (left right : Qty) :
    (left.saturatingAdd right).toNat = min (left.toNat + right.toNat) (2 ^ 64 - 1) :=
  Bourse.toNat_saturatingAdd left.get right.get

@[simp] theorem toNat_saturatingSub (left right : Qty) :
    (left.saturatingSub right).toNat = left.toNat - right.toNat :=
  Bourse.toNat_saturatingSub left.get right.get

end Qty

/-- Nanoseconds since the Unix epoch. -/
structure Timestamp where fromNanos ::
  nanos : Int64
  deriving DecidableEq, Repr

/-- Sequence number issued by a `SequenceGenerator`. -/
structure Sequence where fromRaw ::
  get : UInt64
  deriving DecidableEq, Repr

namespace Sequence

/-- Sentinel; never issued by a generator that has not wrapped. -/
def zero : Sequence := .fromRaw 0

theorem toNat_injective : Function.Injective fun seq : Sequence => seq.get.toNat := by
  intro left right equal
  cases left
  cases right
  exact congrArg Sequence.fromRaw (UInt64.toNat_inj.mp equal)

instance : LinearOrder Sequence := LinearOrder.lift' _ toNat_injective

theorem lt_iff {left right : Sequence} :
    left < right ↔ left.get.toNat < right.get.toNat := Iff.rfl

theorem le_iff {left right : Sequence} :
    left ≤ right ↔ left.get.toNat ≤ right.get.toNat := Iff.rfl

end Sequence

/-- Issues sequence numbers. The counter is a `u64` that `fetch_add` wraps. -/
structure SequenceGenerator where
  counter : UInt64
  deriving DecidableEq, Repr

namespace SequenceGenerator

/-- Fresh generator. The first number issued is `1`. -/
def new : SequenceGenerator := ⟨1⟩

/-- Generator that issues `start` next; the sentinel `0` is replaced by `1`. -/
def startingAt (start : Sequence) : SequenceGenerator :=
  ⟨if start.get = 0 then 1 else start.get⟩

/-- Next sequence number, with the advanced generator. -/
def next (generator : SequenceGenerator) : Sequence × SequenceGenerator :=
  (.fromRaw generator.counter, ⟨generator.counter + 1⟩)

/-- What `next` will return, without advancing. -/
def peek (generator : SequenceGenerator) : Sequence := .fromRaw generator.counter

end SequenceGenerator

end Bourse
