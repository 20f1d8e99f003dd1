import Bourse.Data.Fifo
import Bourse.Data.Loop
import Bourse.Data.RingIndex

/-!
# The single-producer single-consumer ring buffer

`bourse-core/src/spsc.rs` with `usize` as `BitVec w`.  `try_push` and `try_pop` are
cut at their memory accesses: each thread is at a program point, and one step of
it performs exactly one access to shared memory.  A schedule says which thread
moves next, so the runs of all schedules are the sequentially consistent
interleavings.  A slot that was never written is `none`.
-/

namespace Bourse

namespace Spsc

universe u

variable {T : Type u} {w : Nat}

/-- The shared part of the queue. -/
structure Inner (T : Type u) (w : Nat) where
  tail : BitVec w
  head : BitVec w
  buffer : List (Option T)
  mask : BitVec w
  capacity : BitVec w

/-- Where the producer is in `try_push`. -/
inductive Pushing (T : Type u) (w : Nat) where
  | idle
  | loaded (value : T) (tail : BitVec w)
  | refreshed (value : T) (tail : BitVec w)
  | written (value : T) (tail : BitVec w)
  deriving DecidableEq

/-- Where the consumer is in `try_pop`. -/
inductive Popping (T : Type u) (w : Nat) where
  | idle
  | loaded (head : BitVec w)
  | refreshed (head : BitVec w)
  | taken (value : Option T) (head : BitVec w)
  deriving DecidableEq

/-- Both halves, the cache and program point of each, and what they share. -/
structure System (T : Type u) (w : Nat) where
  inner : Inner T w
  cachedHead : BitVec w
  pushing : Pushing T w
  cachedTail : BitVec w
  popping : Popping T w

/-- The access to shared memory that a step performs. -/
inductive Access (w : Nat) where
  | loadTail
  | loadHead
  | writeSlot (index : BitVec w)
  | readSlot (index : BitVec w)
  | storeTail
  | storeHead
  deriving DecidableEq

/-- `usize::next_power_of_two`, which wraps to zero when it overflows. -/
def nextPowerOfTwo (value : BitVec w) : BitVec w :=
  if value ≤ 1#w then 1#w else BitVec.ofNat w (2 ^ ((value - 1#w).toNat.log2 + 1))

/-- Allocated capacity for a requested one. -/
def channelCapacity (minCapacity : BitVec w) : BitVec w :=
  nextPowerOfTwo (if minCapacity ≤ 2#w then 2#w else minCapacity)

example : [5#8, 1#8, 0#8].map channelCapacity = [8#8, 2#8, 2#8] := by decide

/-- An empty queue with both halves idle. -/
def channel (T : Type u) (minCapacity : BitVec w) : System T w :=
  let capacity := channelCapacity minCapacity
  { inner := ⟨0#w, 0#w, List.replicate capacity.toNat none, capacity - 1#w, capacity⟩
    cachedHead := 0#w
    pushing := .idle
    cachedTail := 0#w
    popping := .idle }

namespace System

/-- Write the value into its slot. -/
def writeSlot (system : System T w) (value : T) (tail : BitVec w) :
    System T w × Access w × Option (Fifo.Outcome (Option T)) :=
  let index := tail &&& system.inner.mask
  let buffer := system.inner.buffer.set index.toNat (some value)
  ({ system with inner := { system.inner with buffer }, pushing := .written value tail },
    .writeSlot index, none)

/-- One step of the producer. An idle producer starts to push `value`. -/
def pushStep (system : System T w) (value : T) :
    System T w × Access w × Option (Fifo.Outcome (Option T)) :=
  match system.pushing with
  | .idle =>
      ({ system with pushing := .loaded value system.inner.tail }, .loadTail, none)
  | .loaded value tail =>
      if tail - system.cachedHead ≥ system.inner.capacity then
        let cachedHead := system.inner.head
        if tail - cachedHead ≥ system.inner.capacity then
          ({ system with cachedHead, pushing := .idle }, .loadHead,
            some (.rejected (some value)))
        else ({ system with cachedHead, pushing := .refreshed value tail }, .loadHead, none)
      else system.writeSlot value tail
  | .refreshed value tail => system.writeSlot value tail
  | .written value tail =>
      ({ system with inner := { system.inner with tail := tail + 1#w }, pushing := .idle },
        .storeTail, some (.accepted (some value)))

/-- Read the value out of its slot. -/
def readSlot (system : System T w) (head : BitVec w) :
    System T w × Access w × Option (Fifo.Outcome (Option T)) :=
  let index := head &&& system.inner.mask
  let value := (system.inner.buffer[index.toNat]?).join
  ({ system with popping := .taken value head }, .readSlot index, none)

/-- One step of the consumer. -/
def popStep (system : System T w) :
    System T w × Access w × Option (Fifo.Outcome (Option T)) :=
  match system.popping with
  | .idle => ({ system with popping := .loaded system.inner.head }, .loadHead, none)
  | .loaded head =>
      if head = system.cachedTail then
        let cachedTail := system.inner.tail
        if head = cachedTail then
          ({ system with cachedTail, popping := .idle }, .loadTail, some .empty)
        else ({ system with cachedTail, popping := .refreshed head }, .loadTail, none)
      else system.readSlot head
  | .refreshed head => system.readSlot head
  | .taken value head =>
      ({ system with inner := { system.inner with head := head + 1#w }, popping := .idle },
        .storeHead, some (.popped value))

end System

/-- Which thread moves. -/
inductive Move (T : Type u) where
  | producer (value : T)
  | consumer

namespace System

/-- One step of the thread that moves. -/
def step (system : System T w) :
    Move T → System T w × Access w × Option (Fifo.Outcome (Option T))
  | .producer value => system.pushStep value
  | .consumer => system.popStep

/-- Follow a schedule, collecting what the calls return. -/
def run (system : System T w) (moves : List (Move T)) :
    System T w × List (Fifo.Outcome (Option T)) :=
  moves.foldl (fun state move =>
    ((state.1.step move).1, state.2 ++ (state.1.step move).2.2.toList)) (system, [])

theorem run_concat (system : System T w) (moves : List (Move T)) (move : Move T) :
    system.run (moves ++ [move]) =
      (((system.run moves).1.step move).1,
        (system.run moves).2 ++ ((system.run moves).1.step move).2.2.toList) := by
  simp [run]

end System

/-- The loop of `Inner::drop`, over the running index and the values dropped. -/
def dropLoop (inner : Inner T w) : Loop (BitVec w × List (Option T)) where
  body state :=
    if state.1 ≠ inner.tail then
      let value := (inner.buffer[(state.1 &&& inner.mask).toNat]?).join
      some (state.1 + 1#w, state.2 ++ [value])
    else none
  variant state := (inner.tail - state.1).toNat
  decreases := by
    intro state next step
    split at step
    next differ =>
      cases step
      exact RingIndex.toNat_sub_succ_lt differ
    next => cases step

/-- The values that `Inner::drop` drops, in order. -/
def Inner.drop (inner : Inner T w) : List (Option T) :=
  ((dropLoop inner).run (inner.head, [])).2

end Spsc

end Bourse
