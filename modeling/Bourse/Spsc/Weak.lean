import Bourse.Data.Machine
import Bourse.Spsc.Sound

/-!
# Every run of the ring buffer with the orderings of its source

A queue in a memory of its own, with two threads whose loads may return old values.  No access
to a slot races, and the values come out as they went in.  Only what a failing call says is
weaker than in the interleavings: it speaks of the newest index that its thread knows.
-/

namespace Bourse

namespace Spsc

universe u

namespace Weak

variable {T : Type u} {w : Nat}

/-- The two threads. -/
inductive Thread where
  | producer
  | consumer
  deriving DecidableEq, Repr

instance : Fintype Thread :=
  ⟨{.producer, .consumer}, by intro thread; cases thread <;> decide⟩

/-- The two indices. -/
inductive Index where
  | tail
  | head
  deriving DecidableEq, Repr

/-- The names of a queue in a memory of its own. -/
def names : Names Thread Index Nat where
  producer := .producer
  consumer := .consumer
  tail := .tail
  head := .head
  slot := id
  threads := by decide
  indices := by decide
  slots := Function.injective_id

/-- Which thread moves, and how new the value is that it loads. -/
inductive Move (T : Type u) where
  | producer (value : T) (pick : Nat)
  | consumer (pick : Nat)

/-- What a step leaves behind: whether its access raced, and what its call returned. -/
structure Mark (T : Type u) where
  raced : Bool
  outcome : Option (Fifo.Outcome (Option T))

/-- A queue and its memory. -/
structure State (T : Type u) (w : Nat) where
  halves : Halves T w
  memory : WeakMemory Thread Index Nat (BitVec w)

/-- One step of the thread that moves. -/
def State.stepped (state : State T w) : Move T → Stepped T w Thread Index Nat
  | .producer value pick => state.halves.pushStep names state.memory value pick
  | .consumer pick => state.halves.popStep names state.memory pick

/-- The queue that is created before its threads. -/
def machine (T : Type u) (minCapacity : BitVec w) : Machine (State T w) (Move T) (Mark T) where
  initial := ⟨.channel T minCapacity, .start fun _ => 0#w⟩
  step state move :=
    let stepped := state.stepped move
    (⟨stepped.halves, stepped.memory⟩, [⟨stepped.raced, stepped.outcome⟩])

/-- What the calls returned. -/
def outcomes (trace : List (Mark T)) : List (Fifo.Outcome (Option T)) :=
  trace.filterMap Mark.outcome

@[simp] theorem outcomes_append (trace more : List (Mark T)) :
    outcomes (trace ++ more) = outcomes trace ++ outcomes more :=
  List.filterMap_append

theorem outcomes_singleton (mark : Mark T) : outcomes [mark] = mark.outcome.toList := by
  rcases mark with ⟨raced, outcome⟩
  cases outcome <;> rfl

/-- What holds of the state and of the marks that led to it. -/
structure Kept (capacity : BitVec w) (state : State T w) (trace : List (Mark T))
    (queue : List (Option T)) : Prop where
  carries : Carries names state.halves state.memory capacity (outcomes trace) queue
  safe : ∀ mark ∈ trace, mark.raced = false

variable {minCapacity : BitVec w} {state : State T w} {trace : List (Mark T)}
  {queue : List (Option T)}

theorem stepped_follows (sound : Sound names state.halves state.memory queue) (move : Move T) :
    Follows names state.halves state.memory queue (state.stepped move) := by
  cases move with
  | producer value pick => exact sound.pushStep value pick
  | consumer pick => exact sound.popStep pick

theorem Kept.step {capacity : BitVec w} (kept : Kept capacity state trace queue)
    (move : Move T) : ∃ after, Kept capacity ((machine T minCapacity).step state move).1
      (trace ++ ((machine T minCapacity).step state move).2) after := by
  have follows := stepped_follows kept.carries.sound move
  rcases kept.carries.follow follows with ⟨after, carries, -⟩
  refine ⟨after, ?_, ?_⟩
  · rw [outcomes_append]
    simpa only [machine, outcomes_singleton] using carries
  · intro mark member
    rcases List.mem_append.mp member with old | new
    · exact kept.safe mark old
    · rw [List.mem_singleton.mp new]
      exact follows.raced

theorem run_kept (divides : (channelCapacity minCapacity).toNat ∣ 2 ^ w)
    (moves : List (Move T)) :
    ∃ queue, Kept (channelCapacity minCapacity) ((machine T minCapacity).run moves).1
      ((machine T minCapacity).run moves).2 queue := by
  apply (machine T minCapacity).run_invariant fun state trace =>
    ∃ queue, Kept (channelCapacity minCapacity) state trace queue
  · exact ⟨[], .start names divides rfl rfl, fun _ impossible => (by cases impossible)⟩
  · intro state trace move kept
    rcases kept with ⟨queue, kept⟩
    exact kept.step move

/-- Whatever values the loads return, no access to a slot races, the values come out as they
went in, and the drop of both halves finds those that were never popped. A push fails only if
the queue is full by what the producer knows of the pops, and a pop only if everything that
the consumer knows to have been pushed was popped. -/
theorem run_ordered (divides : (channelCapacity minCapacity).toNat ∣ 2 ^ w)
    (moves : List (Move T)) :
    let capacity := (channelCapacity minCapacity).toNat
    let state := ((machine T minCapacity).run moves).1
    let trace := ((machine T minCapacity).run moves).2
    let accepted := Fifo.accepted (outcomes trace)
    let popped := Fifo.popped (outcomes trace)
    (∀ mark ∈ trace, mark.raced = false) ∧
    (popped <+: accepted ∧ ∀ value ∈ accepted, value ≠ none) ∧
    accepted.length - popped.length ≤ capacity ∧
    (∀ move value, (state.stepped move).outcome = some (.rejected value) →
      ∃ known ≥ (state.memory.views .producer).seen .head, known ≤ popped.length ∧
        accepted.length = known + capacity) ∧
    (∀ move, (state.stepped move).outcome = some .empty →
      (state.memory.views .consumer).seen .tail ≤ popped.length) ∧
    (state.halves.pushing = .idle → state.halves.popping = .idle →
      (state.halves.inner names state.memory).drop = accepted.drop popped.length) := by
  intro capacity state trace accepted popped
  rcases run_kept divides moves with ⟨queue, carries, safe⟩
  have accounts : accepted = popped ++ queue := carries.accounts
  have total : accepted.length = popped.length + queue.length := by
    rw [accounts, List.length_append]
  have bounded : queue.length ≤ capacity := carries.bounded
  have taken : state.memory.latest .head = popped.length := carries.taken
  have published : accepted.length = state.memory.latest .tail := carries.length_accepted
  have returns := fun move => carries.follow (stepped_follows carries.sound move)
  refine ⟨safe, ⟨⟨queue, accounts.symm⟩, carries.initialised⟩, by omega, ?_, ?_, ?_⟩
  · intro move value returned
    rcases returns move with ⟨after, -, returns⟩
    rw [show ((machine T minCapacity).run moves).1 = state from rfl, returned] at returns
    rcases returns with ⟨-, known, newer, older, full⟩
    have older : known ≤ state.memory.latest .head := older
    have full : state.memory.latest .tail = known + capacity := full
    exact ⟨known, newer, by omega, by omega⟩
  · intro move returned
    rcases returns move with ⟨after, -, returns⟩
    rw [show ((machine T minCapacity).run moves).1 = state from rfl, returned] at returns
    rw [← taken]
    exact returns.2
  · intro _ _
    rw [accounts, List.drop_left]
    exact dropLoop_run carries.sound.holds.ring []

/-- Two slots whose indices wrap at eight. The second pop reads the old tail, which misses the
value that was pushed before. -/
theorem run_ordered_stale :
    let moves : List (Move Nat) := List.replicate 3 (.producer 7 0) ++
      [.consumer 0, .consumer 0, .consumer 0, .consumer 1]
    let trace := ((machine Nat 1#3).run moves).2
    (channelCapacity 1#3).toNat ∣ 2 ^ 3 ∧
      outcomes trace = [.accepted (some 7), .empty] ∧
      (∀ mark ∈ trace, mark.raced = false) := by
  intro moves trace
  have divides : (channelCapacity 1#3).toNat ∣ 2 ^ 3 := by decide
  exact ⟨divides, by decide, (run_ordered divides moves).1⟩

end Weak

end Spsc

end Bourse
