import Bourse.Data.ReleaseAcquire
import Bourse.Data.RingIndex

/-!
# Handing the cells of a ring back and forth

Two threads take turns on the cells of a ring.  Each has a counter that only it stores, with
release, after it is done with a position, and each may touch the position of its own counter
as long as this is less than `lead` ahead of a value of the other counter that it loaded with
acquire.  Then no access to a cell races, however old the values are that the loads return.
-/

namespace Bourse

namespace Handover

variable {τ ι κ ν : Type}

/-- One of the two threads. -/
structure Side (τ ι : Type) where
  thread : τ
  counter : ι
  access : PlainAccess
  lead : Nat

/-- Two sides of a ring. Together they may be one round ahead of each other. -/
structure Mates (capacity : Nat) (side mate : Side τ ι) : Prop where
  threads : side.thread ≠ mate.thread
  counters : side.counter ≠ mate.counter
  accesses : side.access ≠ mate.access
  round : side.lead + mate.lead = capacity
  whole : capacity ∣ side.lead

theorem Mates.symm {capacity : Nat} {side mate : Side τ ι} (mates : Mates capacity side mate) :
    Mates capacity mate side where
  threads := mates.threads.symm
  counters := mates.counters.symm
  accesses := mates.accesses.symm
  round := by rw [Nat.add_comm, mates.round]
  whole := by
    have both : capacity ∣ side.lead + mate.lead := by rw [mates.round]
    exact (Nat.dvd_add_right mates.whole).mp both

/-- What a side hands over: message `count` of its counter has the value `number count` and
tells of all its accesses to the cells that the other side may touch once it knows `count`. -/
structure Hands (slot : Nat → κ) (number : Nat → ν) (capacity : Nat) (side mate : Side τ ι)
    (memory : WeakMemory τ ι κ ν) : Prop where
  values : ∀ count ≤ memory.latest side.counter,
    (memory.messages side.counter count).value = number count
  current : (memory.views side.thread).seen side.counter = memory.latest side.counter
  alone : ∀ cell thread, thread ≠ side.thread → memory.cells (slot cell) side.access thread = 0
  passes : ∀ count ≤ memory.latest side.counter, ∀ next ≥ memory.latest mate.counter,
    next < count + mate.lead →
      memory.cells (slot (next % capacity)) side.access side.thread ≤
        (memory.messages side.counter count).view.clock side.thread

/-- The side has seen message `count` of the other counter and knows what it tells. -/
structure Learned (side mate : Side τ ι) (memory : WeakMemory τ ι κ ν) (count : Nat) : Prop where
  seen : count ≤ (memory.views side.thread).seen mate.counter
  told : (memory.messages mate.counter count).view.clock mate.thread ≤
    (memory.views side.thread).clock mate.thread

variable {slot : Nat → κ} {number : Nat → ν} {capacity : Nat} {side mate : Side τ ι}
  {memory next : WeakMemory τ ι κ ν}

theorem Hands.start (slot : Nat → κ) (number : Nat → ν) {initial : ι → ν}
    (zero : initial side.counter = number 0) :
    Hands slot number capacity side mate (.start initial) where
  values := by
    intro count first
    rw [Nat.le_zero.mp first]
    exact zero
  current := rfl
  alone _ _ _ := rfl
  passes _ _ _ _ _ := Nat.le_refl 0

/-! ## Knowledge that stays -/

theorem Learned.grows {count : Nat} (learned : Learned side mate memory count)
    (grows : memory.Grows next) (current : count ≤ memory.latest mate.counter) :
    Learned side mate next count where
  seen := Nat.le_trans learned.seen ((grows.views side.thread).seen mate.counter)
  told := by
    rw [grows.messages _ _ current]
    exact Nat.le_trans learned.told ((grows.views side.thread).clock mate.thread)

/-- What the memory does elsewhere, and what the other side does, changes nothing. -/
theorem Hands.frame (hands : Hands slot number capacity side mate memory)
    (grows : memory.Grows next) (consistent : next.Consistent)
    (latest : next.latest side.counter = memory.latest side.counter)
    (cells : ∀ cell thread, next.cells (slot cell) side.access thread =
      memory.cells (slot cell) side.access thread) :
    Hands slot number capacity side mate next where
  values count older := by
    rw [latest] at older
    rw [grows.messages _ _ older]
    exact hands.values count older
  current := by
    have before := (grows.views side.thread).seen side.counter
    have after := consistent.views side.thread side.counter
    rw [hands.current] at before
    omega
  alone cell thread other := by
    rw [cells]
    exact hands.alone cell thread other
  passes count older position later within := by
    rw [latest] at older
    rw [grows.messages _ _ older, cells]
    exact hands.passes count older position (Nat.le_trans (grows.latest _) later) within

/-! ## What a side does -/

section Steps

variable [DecidableEq τ]

/-- A side that is not too far ahead knows of every access to the cell of its counter. -/
theorem Hands.knows (own : Hands slot number capacity side mate memory)
    (others : Hands slot number capacity mate side memory) (mates : Mates capacity side mate)
    (consistent : memory.Consistent) {count : Nat} (learned : Learned side mate memory count)
    (current : count ≤ memory.latest mate.counter)
    (room : memory.latest side.counter < count + side.lead) (access : PlainAccess) :
    memory.Knows side.thread (slot (memory.latest side.counter % capacity)) access := by
  intro thread
  by_cases mine : access = side.access
  · subst mine
    by_cases self : thread = side.thread
    · subst self
      exact consistent.own _ _ _
    · rw [own.alone _ _ self]
      exact Nat.zero_le _
  · have theirs : access = mate.access := by
      have differ := mates.accesses
      cases access <;> cases kind : side.access <;> cases mateKind : mate.access <;> simp_all
    subst theirs
    by_cases other : thread = mate.thread
    · subst other
      exact Nat.le_trans
        (others.passes count current _ (Nat.le_refl _) room) learned.told
    · rw [others.alone _ _ other]
      exact Nat.zero_le _

/-- Such an access does not race. -/
theorem Hands.not_races (own : Hands slot number capacity side mate memory)
    (others : Hands slot number capacity mate side memory) (mates : Mates capacity side mate)
    (consistent : memory.Consistent) {count : Nat} (learned : Learned side mate memory count)
    (current : count ≤ memory.latest mate.counter)
    (room : memory.latest side.counter < count + side.lead) :
    ¬ memory.Races side.thread (slot (memory.latest side.counter % capacity)) side.access := by
  have knows := own.knows others mates consistent learned current room
  cases side.access with
  | read => exact not_not_intro (knows .write)
  | write => exact not_not_intro ⟨knows .write, knows .read⟩

/-- However old the value is that an acquire load of the other counter returns, the side
learns what it tells. -/
theorem Hands.learns [DecidableEq ι] (others : Hands slot number capacity mate side memory)
    (consistent : memory.Consistent) (pick : Nat) :
    ∃ count ≥ (memory.views side.thread).seen mate.counter,
      count ≤ memory.latest mate.counter ∧
      (memory.load side.thread mate.counter .acquire pick).2 = number count ∧
      Learned side mate (memory.load side.thread mate.counter .acquire pick).1 count := by
  have current := memory.position_le_latest side.thread mate.counter pick
  exact ⟨memory.position side.thread mate.counter pick,
    consistent.seen_le_position side.thread mate.counter pick, current,
    others.values _ current, WeakMemory.position_le_seen _ _ _ _,
    (WeakMemory.within_load_acquire side.thread mate.counter pick).clock mate.thread⟩

/-- After an access of the cell at its counter, a side still tells what it told. -/
theorem Hands.touch [DecidableEq κ] (hands : Hands slot number capacity side mate memory)
    (mates : Mates capacity side mate) (injective : Function.Injective slot)
    (room : memory.latest side.counter < memory.latest mate.counter + side.lead) :
    Hands slot number capacity side mate (memory.touch side.thread
      (slot (memory.latest side.counter % capacity)) side.access) where
  values := hands.values
  current := by
    rw [WeakMemory.touch_seen]
    exact hands.current
  alone cell thread other := by
    rw [WeakMemory.touch_stamp_of_ne _ _ _ (.inr other)]
    exact hands.alone cell thread other
  passes count older position later within := by
    have round := mates.round
    have newer : memory.latest mate.counter ≤ position := later
    have past : count ≤ memory.latest side.counter := older
    have apart : position % capacity ≠ memory.latest side.counter % capacity := by
      have shifted : (memory.latest side.counter + mate.lead) % capacity =
          memory.latest side.counter % capacity := by
        rw [Nat.add_mod, Nat.mod_eq_zero_of_dvd mates.symm.whole, Nat.add_zero, Nat.mod_mod]
      rw [← shifted]
      exact RingIndex.mod_ne (by omega) (by omega)
    rw [WeakMemory.touch_cells_of_ne _ _ _ (fun same => apart (injective same))]
    exact hands.passes count older position later within

/-- A side that stores its counter with release hands its position over. -/
theorem Hands.store [DecidableEq ι] (hands : Hands slot number capacity side mate memory)
    (consistent : memory.Consistent) (mates : Mates capacity side mate) {value : ν}
    (successor : value = number (memory.latest side.counter + 1)) :
    Hands slot number capacity side mate
      (memory.store side.thread side.counter .release value) where
  values count within := by
    rw [WeakMemory.store_latest_self] at within
    rcases Nat.lt_or_ge (memory.latest side.counter) count with newer | older
    · have last : count = memory.latest side.counter + 1 := Nat.le_antisymm within newer
      rw [last, WeakMemory.store_value_self, successor]
    · rw [WeakMemory.store_messages_of_le _ _ _ _ older]
      exact hands.values count older
  current := by rw [WeakMemory.store_seen_self, WeakMemory.store_latest_self]
  alone := hands.alone
  passes count within position later near := by
    rw [WeakMemory.store_latest_of_ne _ _ _ _ mates.counters.symm] at later
    rw [WeakMemory.store_latest_self] at within
    rw [WeakMemory.store_cells]
    rcases Nat.lt_or_ge (memory.latest side.counter) count with newer | older
    · have last : count = memory.latest side.counter + 1 := Nat.le_antisymm within newer
      rw [last, WeakMemory.store_release_view, WeakMemory.store_clock]
      exact consistent.own _ _ _
    · rw [WeakMemory.store_messages_of_le _ _ _ _ older]
      exact hands.passes count older position later near

end Steps

end Handover

end Bourse
