import Bourse.Data.Handover
import Bourse.Spsc.Refinement

/-!
# The ring buffer with the orderings of its source

The two indices are in a memory where a load may return an old value and where only a release
store that an acquire load reads makes the slot accesses of one thread known to the other.
Each step of `try_push` and `try_pop` is again one access to shared memory, with the ordering
that the source gives it; `pick` says how new the value is that a load returns.  A queue has
names in the memory, which it may share with other queues.
-/

namespace Bourse

namespace Spsc

universe u

variable {T : Type u} {w : Nat} {τ ι κ : Type}

/-- The threads of both halves, the locations of the indices and the cells of the slots. -/
structure Names (τ ι κ : Type) where
  producer : τ
  consumer : τ
  tail : ι
  head : ι
  slot : Nat → κ
  threads : producer ≠ consumer
  indices : tail ≠ head
  slots : Function.Injective slot

/-- What a queue has beside its indices: the slots, and the cache and program point of each
half. -/
structure Halves (T : Type u) (w : Nat) where
  buffer : List (Option T)
  mask : BitVec w
  capacity : BitVec w
  cachedHead : BitVec w
  pushing : Pushing T w
  cachedTail : BitVec w
  popping : Popping T w

/-- A step: the queue and the memory after it, whether its access raced, and what the call
returns if the step is its last one. -/
structure Stepped (T : Type u) (w : Nat) (τ ι κ : Type) where
  halves : Halves T w
  memory : WeakMemory τ ι κ (BitVec w)
  raced : Bool
  outcome : Option (Fifo.Outcome (Option T))

namespace Halves

/-- An empty queue with both halves idle. -/
def channel (T : Type u) (minCapacity : BitVec w) : Halves T w :=
  let capacity := channelCapacity minCapacity
  { buffer := List.replicate capacity.toNat none
    mask := capacity - 1#w
    capacity
    cachedHead := 0#w
    pushing := .idle
    cachedTail := 0#w
    popping := .idle }

section Steps

variable [DecidableEq τ] [Fintype τ] [DecidableEq ι] [DecidableEq κ]
  (names : Names τ ι κ) (halves : Halves T w) (memory : WeakMemory τ ι κ (BitVec w))

/-- Write the value into its slot. -/
def writeSlot (value : T) (tail : BitVec w) : Stepped T w τ ι κ :=
  let index := tail &&& halves.mask
  let cell := names.slot index.toNat
  { halves :=
      { halves with
        buffer := halves.buffer.set index.toNat (some value), pushing := .written value tail }
    memory := memory.touch names.producer cell .write
    raced := decide (memory.Races names.producer cell .write)
    outcome := none }

/-- One step of the producer. An idle producer starts to push `value`. -/
def pushStep (value : T) (pick : Nat) : Stepped T w τ ι κ :=
  match halves.pushing with
  | .idle =>
      let (memory, tail) := memory.load names.producer names.tail .relaxed pick
      ⟨{ halves with pushing := .loaded value tail }, memory, false, none⟩
  | .loaded value tail =>
      if tail - halves.cachedHead ≥ halves.capacity then
        let (memory, cachedHead) := memory.load names.producer names.head .acquire pick
        if tail - cachedHead ≥ halves.capacity then
          ⟨{ halves with cachedHead, pushing := .idle }, memory, false,
            some (.rejected (some value))⟩
        else
          ⟨{ halves with cachedHead, pushing := .refreshed value tail }, memory, false, none⟩
      else halves.writeSlot names memory value tail
  | .refreshed value tail => halves.writeSlot names memory value tail
  | .written value tail =>
      ⟨{ halves with pushing := .idle },
        memory.store names.producer names.tail .release (tail + 1#w), false,
        some (.accepted (some value))⟩

/-- Read the value out of its slot. -/
def readSlot (head : BitVec w) : Stepped T w τ ι κ :=
  let index := head &&& halves.mask
  let cell := names.slot index.toNat
  let value := (halves.buffer[index.toNat]?).join
  { halves := { halves with popping := .taken value head }
    memory := memory.touch names.consumer cell .read
    raced := decide (memory.Races names.consumer cell .read)
    outcome := none }

/-- One step of the consumer. -/
def popStep (pick : Nat) : Stepped T w τ ι κ :=
  match halves.popping with
  | .idle =>
      let (memory, head) := memory.load names.consumer names.head .relaxed pick
      ⟨{ halves with popping := .loaded head }, memory, false, none⟩
  | .loaded head =>
      if head = halves.cachedTail then
        let (memory, cachedTail) := memory.load names.consumer names.tail .acquire pick
        if head = cachedTail then
          ⟨{ halves with cachedTail, popping := .idle }, memory, false, some .empty⟩
        else ⟨{ halves with cachedTail, popping := .refreshed head }, memory, false, none⟩
      else halves.readSlot names memory head
  | .refreshed head => halves.readSlot names memory head
  | .taken value head =>
      ⟨{ halves with popping := .idle },
        memory.store names.consumer names.head .release (head + 1#w), false,
        some (.popped value)⟩

end Steps

/-! ## The queue at the newest indices -/

/-- The shared part of the queue as it would be if every load returned the newest value. -/
def inner (names : Names τ ι κ) (halves : Halves T w)
    (memory : WeakMemory τ ι κ (BitVec w)) : Inner T w where
  tail := (memory.messages names.tail (memory.latest names.tail)).value
  head := (memory.messages names.head (memory.latest names.head)).value
  buffer := halves.buffer
  mask := halves.mask
  capacity := halves.capacity

/-- The queue with its newest indices. -/
def system (names : Names τ ι κ) (halves : Halves T w)
    (memory : WeakMemory τ ι κ (BitVec w)) : System T w where
  inner := halves.inner names memory
  cachedHead := halves.cachedHead
  pushing := halves.pushing
  cachedTail := halves.cachedTail
  popping := halves.popping

end Halves

/-- The producer writes a slot before it publishes its position in the tail. -/
def Names.producing (names : Names τ ι κ) (capacity : Nat) : Handover.Side τ ι :=
  ⟨names.producer, names.tail, .write, capacity⟩

/-- The consumer reads a slot before it frees its position in the head. -/
def Names.consuming (names : Names τ ι κ) : Handover.Side τ ι :=
  ⟨names.consumer, names.head, .read, 0⟩

theorem Names.mates (names : Names τ ι κ) (capacity : Nat) :
    Handover.Mates capacity (names.producing capacity) names.consuming :=
  ⟨names.threads, names.indices, (by intro impossible; cases impossible), Nat.add_zero _,
    dvd_refl _⟩

/-- The queue holds `queue` at its newest indices, the halves hand the slots to each other,
and each half knows what its cache of the other's index tells. -/
structure Sound (names : Names τ ι κ) (halves : Halves T w)
    (memory : WeakMemory τ ι κ (BitVec w)) (queue : List (Option T)) : Prop where
  consistent : memory.Consistent
  holds : Holds (halves.system names memory) (memory.latest names.head) queue
  published : memory.latest names.head + queue.length = memory.latest names.tail
  writes : Handover.Hands names.slot (BitVec.ofNat w) halves.capacity.toNat
    (names.producing halves.capacity.toNat) names.consuming memory
  reads : Handover.Hands names.slot (BitVec.ofNat w) halves.capacity.toNat
    names.consuming (names.producing halves.capacity.toNat) memory
  cachedHead : ∀ seen ≤ memory.latest names.head,
    memory.latest names.tail ≤ seen + halves.capacity.toNat →
    halves.cachedHead = BitVec.ofNat w seen →
      Handover.Learned (names.producing halves.capacity.toNat) names.consuming memory seen
  cachedTail : ∀ seen ≥ memory.latest names.head, seen ≤ memory.latest names.tail →
    halves.cachedTail = BitVec.ofNat w seen →
      Handover.Learned names.consuming (names.producing halves.capacity.toNat) memory seen

variable {names : Names τ ι κ} {halves : Halves T w} {memory next : WeakMemory τ ι κ (BitVec w)}
  {queue : List (Option T)}

/-! ## What happens elsewhere -/

theorem Halves.inner_of_grows (names : Names τ ι κ) (halves : Halves T w)
    (grows : memory.Grows next) (tail : next.latest names.tail = memory.latest names.tail)
    (head : next.latest names.head = memory.latest names.head) :
    halves.inner names next = halves.inner names memory := by
  unfold Halves.inner
  rw [tail, head, grows.messages _ _ (Nat.le_refl _), grows.messages _ _ (Nat.le_refl _)]

/-- A queue is still sound after the memory has changed elsewhere. -/
theorem Sound.frame (sound : Sound names halves memory queue) (grows : memory.Grows next)
    (consistent : next.Consistent)
    (tail : next.latest names.tail = memory.latest names.tail)
    (head : next.latest names.head = memory.latest names.head)
    (cells : ∀ cell, next.cells (names.slot cell) = memory.cells (names.slot cell)) :
    Sound names halves next queue where
  consistent := consistent
  holds := by
    rw [Halves.system, halves.inner_of_grows names grows tail head, head]
    exact sound.holds
  published := by
    rw [tail, head]
    exact sound.published
  writes := sound.writes.frame grows consistent tail fun cell thread => by rw [cells]
  reads := sound.reads.frame grows consistent head fun cell thread => by rw [cells]
  cachedHead seen older near cached := by
    rw [head] at older
    rw [tail] at near
    exact (sound.cachedHead seen older near cached).grows grows older
  cachedTail seen later older cached := by
    rw [head] at later
    rw [tail] at older
    exact (sound.cachedTail seen later older cached).grows grows older

/-- What the halves do by themselves keeps the memory sound. -/
theorem Sound.of_holds {after : Halves T w} (sound : Sound names halves memory queue)
    (capacity : after.capacity = halves.capacity)
    (cachedHead : after.cachedHead = halves.cachedHead)
    (cachedTail : after.cachedTail = halves.cachedTail)
    (holds : Holds (after.system names memory) (memory.latest names.head) queue) :
    Sound names after memory queue where
  consistent := sound.consistent
  holds := holds
  published := sound.published
  writes := by
    rw [capacity]
    exact sound.writes
  reads := by
    rw [capacity]
    exact sound.reads
  cachedHead := by
    rw [capacity, cachedHead]
    exact sound.cachedHead
  cachedTail := by
    rw [capacity, cachedTail]
    exact sound.cachedTail

theorem Sound.seen_tail (sound : Sound names halves memory queue) :
    (memory.views names.producer).seen names.tail = memory.latest names.tail :=
  sound.writes.current

theorem Sound.tail_eq (sound : Sound names halves memory queue) :
    (halves.inner names memory).tail = BitVec.ofNat w (memory.latest names.tail) :=
  sound.writes.values _ (Nat.le_refl _)

theorem Sound.head_eq (sound : Sound names halves memory queue) :
    (halves.inner names memory).head = BitVec.ofNat w (memory.latest names.head) :=
  sound.reads.values _ (Nat.le_refl _)

theorem Sound.seen_head (sound : Sound names halves memory queue) :
    (memory.views names.consumer).seen names.head = memory.latest names.head :=
  sound.reads.current

section Steps

variable [DecidableEq τ] [DecidableEq ι]

/-- A load is elsewhere for every queue. -/
theorem Sound.load (sound : Sound names halves memory queue) (thread : τ) (location : ι)
    (order : MemoryOrder) (pick : Nat) :
    Sound names halves (memory.load thread location order pick).1 queue :=
  sound.frame (sound.consistent.load_grows thread location order pick)
    (sound.consistent.load thread location order pick) rfl rfl fun _ => rfl

/-- The producer reads its own index as it stored it. -/
theorem Sound.load_tail (sound : Sound names halves memory queue) (order : MemoryOrder)
    (pick : Nat) : (memory.load names.producer names.tail order pick).2 =
      (halves.inner names memory).tail := by
  rw [WeakMemory.load_value, WeakMemory.position_of_seen pick sound.seen_tail]
  rfl

/-- The consumer reads its own index as it stored it. -/
theorem Sound.load_head (sound : Sound names halves memory queue) (order : MemoryOrder)
    (pick : Nat) : (memory.load names.consumer names.head order pick).2 =
      (halves.inner names memory).head := by
  rw [WeakMemory.load_value, WeakMemory.position_of_seen pick sound.seen_head]
  rfl

/-- What a call may return, and the queue after it. A push fails only if the queue is full as
far as the producer can know, and a pop only if the consumer has taken all that it knows of. -/
def Returns (names : Names τ ι κ) (memory : WeakMemory τ ι κ (BitVec w)) (capacity : Nat)
    (queue after : List (Option T)) : Option (Fifo.Outcome (Option T)) → Prop
  | none => after = queue
  | some (.accepted value) =>
      queue.length < capacity ∧ after = queue ++ [value] ∧ value ≠ none
  | some (.rejected _) => after = queue ∧
      ∃ popped ≥ (memory.views names.producer).seen names.head,
        popped ≤ memory.latest names.head ∧ memory.latest names.tail = popped + capacity
  | some (.popped value) => queue = value :: after
  | some .empty => after = queue ∧
      (memory.views names.consumer).seen names.tail ≤ memory.latest names.head

omit [DecidableEq τ] [DecidableEq ι] in
/-- What goes in and out in a step accounts for the queue after it. -/
theorem Returns.accounts {capacity : Nat} {after : List (Option T)}
    {outcome : Option (Fifo.Outcome (Option T))}
    (returns : Returns names memory capacity queue after outcome) :
    queue ++ Fifo.accepted outcome.toList = Fifo.popped outcome.toList ++ after := by
  cases outcome with
  | none =>
      cases returns
      exact List.append_nil _
  | some outcome =>
      cases outcome with
      | accepted value => exact returns.2.1.symm
      | rejected value =>
          cases returns.1
          exact List.append_nil _
      | popped value =>
          cases returns
          exact List.append_nil _
      | empty =>
          cases returns.1
          exact List.append_nil _

omit [DecidableEq τ] [DecidableEq ι] in
theorem Returns.initialised {capacity : Nat} {after : List (Option T)}
    {outcome : Option (Fifo.Outcome (Option T))}
    (returns : Returns names memory capacity queue after outcome) :
    ∀ value ∈ Fifo.accepted outcome.toList, value ≠ none := by
  intro value member
  have accepted := Fifo.mem_accepted.mp member
  rw [Option.mem_toList] at accepted
  cases accepted
  exact returns.2.2

/-- A step does not race, and it follows the queue. -/
structure Follows (names : Names τ ι κ) (halves : Halves T w)
    (memory : WeakMemory τ ι κ (BitVec w)) (queue : List (Option T))
    (stepped : Stepped T w τ ι κ) : Prop where
  raced : stepped.raced = false
  capacity : stepped.halves.capacity = halves.capacity
  grows : memory.Grows stepped.memory
  taken : stepped.memory.latest names.head =
    memory.latest names.head + (Fifo.popped stepped.outcome.toList).length
  returns : ∃ after, Sound names stepped.halves stepped.memory after ∧
    Returns names memory halves.capacity.toNat queue after stepped.outcome

end Steps

section Outcomes

variable [DecidableEq τ] [Fintype τ] [DecidableEq ι] [DecidableEq κ]

/-! ## What a step leaves alone -/

/-- The memory changed only at the indices and slots of a queue. -/
structure Names.Elsewhere (names : Names τ ι κ) (memory next : WeakMemory τ ι κ (BitVec w)) :
    Prop where
  latest : ∀ location, location ≠ names.tail → location ≠ names.head →
    next.latest location = memory.latest location
  cells : ∀ cell, (∀ slot, cell ≠ names.slot slot) → next.cells cell = memory.cells cell

omit [Fintype τ] [DecidableEq κ] in
theorem Names.elsewhere_load (names : Names τ ι κ) (memory : WeakMemory τ ι κ (BitVec w))
    (thread : τ) (location : ι) (order : MemoryOrder) (pick : Nat) :
    names.Elsewhere memory (memory.load thread location order pick).1 :=
  ⟨fun _ _ _ => rfl, fun _ _ => rfl⟩

omit [DecidableEq ι] [Fintype τ] in
theorem Names.elsewhere_touch (names : Names τ ι κ) (memory : WeakMemory τ ι κ (BitVec w))
    (thread : τ) (slot : Nat) (access : PlainAccess) :
    names.Elsewhere memory (memory.touch thread (names.slot slot) access) :=
  ⟨fun _ _ _ => rfl, fun _ differs => WeakMemory.touch_cells_of_ne _ _ _ (differs slot)⟩

omit [Fintype τ] [DecidableEq κ] in
theorem Names.elsewhere_store (names : Names τ ι κ) (memory : WeakMemory τ ι κ (BitVec w))
    (thread : τ) {location : ι} (mine : location = names.tail ∨ location = names.head)
    (order : MemoryOrder) (value : BitVec w) :
    names.Elsewhere memory (memory.store thread location order value) := by
  refine ⟨?_, fun _ _ => rfl⟩
  intro other notTail notHead
  apply WeakMemory.store_latest_of_ne
  rcases mine with rfl | rfl
  · exact notTail
  · exact notHead

theorem Halves.pushStep_elsewhere (names : Names τ ι κ) (halves : Halves T w)
    (memory : WeakMemory τ ι κ (BitVec w)) (value : T) (pick : Nat) :
    names.Elsewhere memory (halves.pushStep names memory value pick).memory := by
  unfold Halves.pushStep
  cases halves.pushing with
  | idle => exact names.elsewhere_load _ _ _ _ _
  | loaded value tail =>
      dsimp only
      split
      next =>
        split
        next => exact names.elsewhere_load _ _ _ _ _
        next => exact names.elsewhere_load _ _ _ _ _
      next => exact names.elsewhere_touch _ _ _ _
  | refreshed value tail => exact names.elsewhere_touch _ _ _ _
  | written value tail =>
      exact names.elsewhere_store memory names.producer (.inl rfl) .release (tail + 1#w)

theorem Halves.popStep_elsewhere (names : Names τ ι κ) (halves : Halves T w)
    (memory : WeakMemory τ ι κ (BitVec w)) (pick : Nat) :
    names.Elsewhere memory (halves.popStep names memory pick).memory := by
  unfold Halves.popStep
  cases halves.popping with
  | idle => exact names.elsewhere_load _ _ _ _ _
  | loaded head =>
      dsimp only
      split
      next =>
        split
        next => exact names.elsewhere_load _ _ _ _ _
        next => exact names.elsewhere_load _ _ _ _ _
      next => exact names.elsewhere_touch _ _ _ _
  | refreshed head => exact names.elsewhere_touch _ _ _ _
  | taken value head =>
      exact names.elsewhere_store memory names.consumer (.inr rfl) .release (head + 1#w)

/-! ## What the calls return -/

/-- The value that the producer is about to push. -/
def Pushing.value : Pushing T w → Option T
  | .idle => none
  | .loaded value _ | .refreshed value _ | .written value _ => some value

/-- A call ends with the value it was started with. -/
theorem Halves.pushStep_value (names : Names τ ι κ) (halves : Halves T w)
    (memory : WeakMemory τ ι κ (BitVec w)) (value : T) (pick : Nat) :
    let current := halves.pushing.value.getD value
    let stepped := halves.pushStep names memory value pick
    (stepped.outcome = none ∧ stepped.halves.pushing.value = some current) ∨
      (stepped.outcome = some (.accepted (some current)) ∧ stepped.halves.pushing.value = none) ∨
      (stepped.outcome = some (.rejected (some current)) ∧
        stepped.halves.pushing.value = none) := by
  intro current stepped
  simp only [stepped, current, Halves.pushStep]
  cases halves.pushing with
  | idle => exact .inl ⟨rfl, rfl⟩
  | loaded value tail =>
      dsimp only
      split
      next =>
        split
        next => exact .inr (.inr ⟨rfl, rfl⟩)
        next => exact .inl ⟨rfl, rfl⟩
      next => exact .inl ⟨rfl, rfl⟩
  | refreshed value tail => exact .inl ⟨rfl, rfl⟩
  | written value tail => exact .inr (.inl ⟨rfl, rfl⟩)

theorem Halves.popStep_pushing (names : Names τ ι κ) (halves : Halves T w)
    (memory : WeakMemory τ ι κ (BitVec w)) (pick : Nat) :
    (halves.popStep names memory pick).halves.pushing = halves.pushing := by
  simp only [Halves.popStep, Halves.readSlot]
  split <;> (try split) <;> (try split) <;> rfl

theorem Halves.popped_pushStep (names : Names τ ι κ) (halves : Halves T w)
    (memory : WeakMemory τ ι κ (BitVec w)) (value : T) (pick : Nat) :
    Fifo.popped (halves.pushStep names memory value pick).outcome.toList = [] := by
  rcases halves.pushStep_value names memory value pick with
    ⟨returned, -⟩ | ⟨returned, -⟩ | ⟨returned, -⟩
  all_goals
    rw [returned]
    rfl

/-- A pop takes a value out or finds none. -/
theorem Halves.popStep_outcome (names : Names τ ι κ) (halves : Halves T w)
    (memory : WeakMemory τ ι κ (BitVec w)) (pick : Nat) :
    let stepped := halves.popStep names memory pick
    stepped.outcome = none ∨ stepped.outcome = some .empty ∨
      ∃ value, stepped.outcome = some (.popped value) := by
  intro stepped
  simp only [stepped, Halves.popStep]
  cases halves.popping with
  | idle => exact .inl rfl
  | loaded head =>
      dsimp only
      split
      next =>
        split
        next => exact .inr (.inl rfl)
        next => exact .inl rfl
      next => exact .inl rfl
  | refreshed head => exact .inl rfl
  | taken value head => exact .inr (.inr ⟨value, rfl⟩)

theorem Halves.accepted_popStep (names : Names τ ι κ) (halves : Halves T w)
    (memory : WeakMemory τ ι κ (BitVec w)) (pick : Nat) :
    Fifo.accepted (halves.popStep names memory pick).outcome.toList = [] := by
  rcases halves.popStep_outcome names memory pick with returned | returned | ⟨value, returned⟩
  all_goals
    rw [returned]
    rfl

end Outcomes

end Spsc

end Bourse
