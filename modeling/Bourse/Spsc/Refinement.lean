import Bourse.Spsc.Invariant
import Mathlib.Data.List.Induction

/-!
# Every interleaving of the ring buffer

What one step preserves carries over to every schedule: the calls return what a
bounded queue allows, slots are only touched by the side that owns them, and the
values left when both halves are gone are the ones that were never popped.
-/

namespace Bourse

namespace Spsc

universe u

variable {T : Type u} {w : Nat} {system : System T w} {consumed : Nat}
  {queue : List (Option T)}

/-! ## Schedules -/

theorem step_advances (holds : Holds system consumed queue) (move : Move T) :
    Advances (system.step move).1 (system.step move).2.2 consumed queue ∧
      Allowed system.inner consumed queue (system.step move).2 := by
  cases move with
  | producer value => exact pushStep_advances holds value
  | consumer => exact popStep_advances holds

/-- No step touches the capacity. -/
theorem capacity_step (system : System T w) (move : Move T) :
    (system.step move).1.inner.capacity = system.inner.capacity := by
  cases move with
  | producer value =>
      simp only [System.step, System.pushStep, System.writeSlot]
      split <;> (try split) <;> (try split) <;> rfl
  | consumer =>
      simp only [System.step, System.popStep, System.readSlot]
      split <;> (try split) <;> (try split) <;> rfl

theorem channel_holds {minCapacity : BitVec w}
    (divides : (channelCapacity minCapacity).toNat ∣ 2 ^ w) :
    Holds (channel T minCapacity) 0 [] where
  ring := by
    refine ⟨divides, rfl, by simp [channel], rfl, rfl, Nat.zero_le _, ?_⟩
    intro pos impossible
    cases impossible
  producing := ⟨0, rfl, le_refl _, Nat.zero_le _, trivial⟩
  consuming := ⟨0, rfl, le_refl _, trivial⟩

/-! ## What a step may return -/

variable {inner : Inner T w} {effect : Access w × Option (Fifo.Outcome (Option T))}

theorem Allowed.of_writeSlot {index : BitVec w} (allowed : Allowed inner consumed queue effect)
    (writes : effect.1 = .writeSlot index) :
    index.toNat < inner.buffer.length ∧ queue.length < inner.capacity.toNat ∧
      index.toNat = (consumed + queue.length) % inner.capacity.toNat := by
  rcases effect with ⟨access, outcome⟩
  cases writes
  exact allowed.2

theorem Allowed.of_readSlot {index : BitVec w} (allowed : Allowed inner consumed queue effect)
    (reads : effect.1 = .readSlot index) :
    index.toNat < inner.buffer.length ∧ 0 < queue.length ∧
      index.toNat = consumed % inner.capacity.toNat := by
  rcases effect with ⟨access, outcome⟩
  cases reads
  exact allowed.2

theorem Allowed.of_accepted {value : Option T} (allowed : Allowed inner consumed queue effect)
    (returned : effect.2 = some (.accepted value)) : value ≠ none := by
  rcases effect with ⟨access, outcome⟩
  cases returned
  cases access with
  | loadTail => cases (allowed _ rfl).1
  | loadHead =>
      rcases (allowed _ rfl).1 with ⟨_, impossible⟩
      cases impossible
  | writeSlot index => cases allowed.1
  | readSlot index => cases allowed.1
  | storeTail =>
      rcases allowed with ⟨_, same⟩
      cases same
      simp
  | storeHead =>
      rcases allowed with ⟨_, impossible⟩
      cases impossible

theorem Allowed.of_rejected {value : Option T} (allowed : Allowed inner consumed queue effect)
    (returned : effect.2 = some (.rejected value)) :
    effect.1 = .loadHead ∧ queue.length = inner.capacity.toNat := by
  rcases effect with ⟨access, outcome⟩
  cases returned
  cases access with
  | loadTail => cases (allowed _ rfl).1
  | loadHead => exact ⟨rfl, (allowed _ rfl).2⟩
  | writeSlot index => cases allowed.1
  | readSlot index => cases allowed.1
  | storeTail =>
      rcases allowed with ⟨_, impossible⟩
      cases impossible
  | storeHead =>
      rcases allowed with ⟨_, impossible⟩
      cases impossible

theorem Allowed.of_empty (allowed : Allowed inner consumed queue effect)
    (returned : effect.2 = some .empty) : effect.1 = .loadTail ∧ queue = [] := by
  rcases effect with ⟨access, outcome⟩
  cases returned
  cases access with
  | loadTail => exact ⟨rfl, (allowed _ rfl).2⟩
  | loadHead =>
      rcases (allowed _ rfl).1 with ⟨_, impossible⟩
      cases impossible
  | writeSlot index => cases allowed.1
  | readSlot index => cases allowed.1
  | storeTail =>
      rcases allowed with ⟨_, impossible⟩
      cases impossible
  | storeHead =>
      rcases allowed with ⟨_, impossible⟩
      cases impossible

/-! ## Whole runs -/

/-- Every run follows the abstract queue, and only initialised values get in. -/
theorem run_holds {minCapacity : BitVec w}
    (divides : (channelCapacity minCapacity).toNat ∣ 2 ^ w) (moves : List (Move T)) :
    let run := (channel T minCapacity).run moves
    run.1.inner.capacity = channelCapacity minCapacity ∧
    (∀ value ∈ Fifo.accepted run.2, value ≠ none) ∧
    ∃ queue, Fifo.Reaches (channelCapacity minCapacity).toNat run.2 queue ∧
      Holds run.1 (Fifo.popped run.2).length queue := by
  induction moves using List.reverseRecOn with
  | nil =>
      refine ⟨rfl, ?_, [], Fifo.Reaches.start, channel_holds divides⟩
      intro value impossible
      cases impossible
  | append_singleton moves move ih =>
      rcases ih with ⟨capacity, initialised, queue, reached, holds⟩
      rcases step_advances holds move with ⟨advances, allowed⟩
      have sameCapacity := (capacity_step ((channel T minCapacity).run moves).1 move).trans
        capacity
      rw [System.run_concat]
      generalize ((channel T minCapacity).run moves).2 = log at *
      rcases step : ((channel T minCapacity).run moves).1.step move with
        ⟨next, access, outcome⟩
      simp only [step] at advances allowed sameCapacity ⊢
      refine ⟨sameCapacity, ?_, ?_⟩
      · intro value member
        rw [Fifo.accepted, List.filterMap_append] at member
        rcases List.mem_append.mp member with old | new
        · exact initialised value old
        · rcases List.mem_filterMap.mp new with ⟨returned, member, accepted⟩
          rcases Option.mem_toList.mp member
          cases returned <;> cases accepted
          exact allowed.of_accepted rfl
      · cases outcome with
        | none =>
            simp only [Option.toList_none, List.append_nil]
            exact ⟨queue, reached, advances⟩
        | some outcome =>
            rcases advances with ⟨after, fifo, holdsNext⟩
            rw [sameCapacity] at fifo
            refine ⟨after, reached.step fifo, ?_⟩
            simpa [Fifo.popped] using holdsNext

/-! ## Dropping the queue -/

theorem dropLoop_run (ring : Ring inner consumed queue) (dropped : List (Option T)) :
    ((dropLoop inner).run (inner.head, dropped)).2 = dropped ++ queue := by
  induction queue generalizing inner consumed dropped with
  | nil =>
      have done : inner.head = inner.tail := by
        rw [ring.tail, ring.head]
        rfl
      have stop : (dropLoop inner).body (inner.head, dropped) = none := by
        simp [dropLoop, done]
      rw [(dropLoop inner).run_of_break stop, List.append_nil]
  | cons front rest ih =>
      have more : inner.head ≠ inner.tail := by
        rw [ring.tail]
        intro caughtUp
        have none := (ring.caught_up (le_refl _)).mp caughtUp
        cases none
      have slot : (inner.buffer[(inner.head &&& inner.mask).toNat]?).join = front :=
        Option.some.inj (ring.front (Nat.succ_pos _))
      have step : (dropLoop inner).body (inner.head, dropped) =
          some (inner.head + 1#w, dropped ++ [front]) := by
        simp only [dropLoop, ne_eq, more, not_false_eq_true, if_true, slot]
      rw [(dropLoop inner).run_of_continue step]
      have rest_dropped := ih ring.release (dropped ++ [front])
      rw [List.append_assoc] at rest_dropped
      exact rest_dropped

/-- The ring buffer refines a bounded queue in every interleaving. Values come out as
they went in; slots that hold a published value nobody has read are never written,
and only those are read; the calls fail only on a full or empty queue; and the drop
of both halves finds exactly the values that were never popped. -/
theorem run_refines_fifo {minCapacity : BitVec w}
    (divides : (channelCapacity minCapacity).toNat ∣ 2 ^ w) (moves : List (Move T)) :
    let capacity := (channelCapacity minCapacity).toNat
    let system := ((channel T minCapacity).run moves).1
    let log := ((channel T minCapacity).run moves).2
    let accepted := Fifo.accepted log
    let popped := Fifo.popped log
    (∃ queue, Fifo.Reaches capacity log queue) ∧
    (popped <+: accepted ∧ ∀ value ∈ accepted, value ≠ none) ∧
    accepted.length - popped.length ≤ capacity ∧
    (∀ pos, popped.length ≤ pos → pos < accepted.length →
      system.inner.buffer[pos % capacity]? = accepted[pos]?) ∧
    (∀ move index, (system.step move).2.1 = .writeSlot index →
      index.toNat < system.inner.buffer.length ∧
      ∀ pos, popped.length ≤ pos → pos < accepted.length → pos % capacity ≠ index.toNat) ∧
    (∀ move index, (system.step move).2.1 = .readSlot index →
      index.toNat < system.inner.buffer.length ∧ popped.length < accepted.length ∧
      index.toNat = popped.length % capacity) ∧
    (∀ move value, (system.step move).2.2 = some (.rejected value) →
      (system.step move).2.1 = .loadHead ∧ accepted.length - popped.length = capacity) ∧
    (∀ move, (system.step move).2.2 = some .empty →
      (system.step move).2.1 = .loadTail ∧ accepted.length = popped.length) ∧
    (system.pushing = .idle → system.popping = .idle →
      system.inner.drop = accepted.drop popped.length) := by
  intro capacity system log accepted popped
  rcases run_holds divides moves with ⟨sameCapacity, initialised, queue, reached, holds⟩
  have accounts : accepted = popped ++ queue := reached.accounts
  have total : accepted.length = popped.length + queue.length := by
    rw [accounts, List.length_append]
  have capacityEq : system.inner.capacity.toNat = capacity := congrArg _ sameCapacity
  have bounded : queue.length ≤ capacity := reached.bounded
  have safe : ∀ move, Allowed system.inner popped.length queue (system.step move).2 :=
    fun move => (step_advances holds move).2
  refine ⟨⟨queue, reached⟩, ⟨⟨queue, accounts.symm⟩, initialised⟩, by omega, ?_, ?_, ?_, ?_,
    ?_, ?_⟩
  · intro pos unread published
    have slot := holds.ring.slots (pos - popped.length) (by omega)
    rw [Nat.add_sub_cancel' unread, capacityEq] at slot
    rw [slot, accounts, List.getElem?_append_right unread]
  · intro move index writes
    rcases (safe move).of_writeSlot writes with ⟨inside, room, index_eq⟩
    refine ⟨inside, ?_⟩
    intro pos unread published
    rw [index_eq, capacityEq]
    exact RingIndex.mod_ne (by omega) (by omega)
  · intro move index reads
    rcases (safe move).of_readSlot reads with ⟨inside, nonempty, index_eq⟩
    exact ⟨inside, by omega, capacityEq ▸ index_eq⟩
  · intro move value returned
    rcases (safe move).of_rejected returned with ⟨load, full⟩
    exact ⟨load, by omega⟩
  · intro move returned
    rcases (safe move).of_empty returned with ⟨load, nothing⟩
    rw [nothing, List.length_nil] at total
    exact ⟨load, total⟩
  · intro _ _
    rw [accounts, List.drop_left]
    exact dropLoop_run holds.ring []

/-- A queue of two slots whose indices wrap at eight. It is filled up and emptied five times,
with one push too many and one pop too many each time, and one value is left in it. -/
theorem run_refines_fifo_small :
    let round (steps value : Nat) : List (Move Nat) :=
      List.replicate steps (.producer value) ++ List.replicate 3 (.producer (value + 1)) ++
        List.replicate 2 (.producer 99) ++ List.replicate 9 .consumer
    let moves := round 3 0 ++ [2, 4, 6, 8].flatMap (round 4) ++ List.replicate 4 (.producer 10)
    let outcomes (value : Nat) : List (Fifo.Outcome (Option Nat)) :=
      [.accepted (some value), .accepted (some (value + 1)), .rejected (some 99),
        .popped (some value), .popped (some (value + 1)), .empty]
    (channelCapacity 1#3).toNat ∣ 2 ^ 3 ∧
      ((channel Nat 1#3).run moves).2 = [0, 2, 4, 6, 8].flatMap outcomes ++ [.accepted (some 10)] ∧
      ((channel Nat 1#3).run moves).1.inner.tail = 3#3 ∧
      ((channel Nat 1#3).run moves).1.inner.drop = [some 10] := by
  intro round moves outcomes
  have divides : (channelCapacity 1#3).toNat ∣ 2 ^ 3 := by decide
  have log : ((channel Nat 1#3).run moves).2 =
      [0, 2, 4, 6, 8].flatMap outcomes ++ [.accepted (some 10)] := by decide +kernel
  rcases run_refines_fifo divides moves with ⟨-, -, -, -, -, -, -, -, dropped⟩
  refine ⟨divides, log, by decide +kernel, (dropped ?_ ?_).trans ?_⟩
  · decide +kernel
  · decide +kernel
  · rw [log]
    decide

end Spsc

end Bourse
