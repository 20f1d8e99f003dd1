import Bourse.Engine

/-!
# Stopping the engine

Whoever calls `Engine::stop` or drops the engine sets the flag and waits in `join`; nobody
pops events any more.  The matcher thread still handles every command it finds and retries
each event until there is a slot for it.  How many slots that takes is fixed when the flag is
set, and the thread comes to its end exactly if there are that many.
-/

namespace Bourse

namespace Engine

/-- The state after a number of steps of the matcher thread alone. -/
def matcherSteps (eventCapacity : Nat) : Nat → Engine → Engine
  | 0, engine => engine
  | count + 1, engine => matcherSteps eventCapacity count (engine.matcherStep eventCapacity).1

/-- The matcher thread reaches the end of `matcher_loop` by its own steps. -/
def Finishes (eventCapacity : Nat) (engine : Engine) : Prop :=
  ∃ count matcher, (engine.matcherSteps eventCapacity count).pc = .returned matcher

/-- The slots of the event queue that are taken in the end if nobody pops: by the events that
are queued, those in the buffer, and those of all commands that are still to be handled. -/
def slotsNeeded (engine : Engine) : Nat :=
  engine.eventsOut.length + engine.events.length +
    (engine.matcher.run (engine.pc.inHand ++ engine.commands)).2.length

/-- What holds once the flag is set and the owner waits. -/
structure Stopping (eventCapacity : Nat) (engine : Engine) : Prop where
  flag : engine.stopFlag = true
  bounded : engine.eventsOut.length ≤ eventCapacity
  drained : engine.pc.drained → engine.events = []
  finished : ∀ matcher, engine.pc = .returned matcher → engine.commands = []

variable {commandCapacity eventCapacity : Nat} {engine : Engine}

/-! ## One step -/

/-- A step of the matcher thread neither makes nor saves an event. -/
theorem slotsNeeded_matcherStep (drained : engine.pc.drained → engine.events = []) :
    (engine.matcherStep eventCapacity).1.slotsNeeded = engine.slotsNeeded := by
  unfold matcherStep slotsNeeded
  cases pc : engine.pc with
  | poll last =>
      cases queue : engine.commands with
      | nil => cases last <;> simp [Fifo.pop, Pc.inHand]
      | cons command commands => simp [Fifo.pop, Pc.inHand]
  | process last command =>
      have empty : engine.events = [] := drained (by rw [pc]; rfl)
      simp only [Pc.inHand, List.nil_append, List.singleton_append, Matcher.run_cons, empty,
        List.length_append, List.length_nil]
      omega
  | publish last =>
      cases buffer : engine.events with
      | nil => simp [Pc.inHand]
      | cons event events =>
          by_cases room : engine.eventsOut.length < eventCapacity
          · simp only [Fifo.push, if_pos room, List.length_append, List.length_cons,
              List.length_nil]
            omega
          · simp [Fifo.push, room]
  | loadStop => simp [Pc.inHand]
  | returned matcher => simp [pc]

theorem Stopping.matcherStep (stopping : Stopping eventCapacity engine) :
    Stopping eventCapacity (engine.matcherStep eventCapacity).1 := by
  rcases stopping with ⟨flag, bounded, drained, finished⟩
  unfold Engine.matcherStep
  cases pc : engine.pc with
  | poll last =>
      have empty : engine.events = [] := drained (by rw [pc]; rfl)
      cases queue : engine.commands with
      | nil => cases last <;> exact ⟨flag, bounded, fun _ => empty, fun _ _ => rfl⟩
      | cons command commands =>
          exact ⟨flag, bounded, fun _ => empty, fun _ impossible => (by cases impossible)⟩
  | process last command =>
      exact ⟨flag, bounded, fun impossible => (by cases impossible),
        fun _ impossible => (by cases impossible)⟩
  | publish last =>
      cases buffer : engine.events with
      | nil => exact ⟨flag, bounded, fun _ => rfl, fun _ impossible => (by cases impossible)⟩
      | cons event events =>
          by_cases room : engine.eventsOut.length < eventCapacity
          · simp only [Fifo.push, if_pos room]
            refine ⟨flag, ?_, fun impossible => (by cases impossible),
              fun _ impossible => (by cases impossible)⟩
            rw [List.length_append]
            exact room
          · simp only [Fifo.push, if_neg room]
            exact ⟨flag, bounded, fun impossible => (by cases impossible),
              fun _ impossible => (by cases impossible)⟩
  | loadStop =>
      exact ⟨flag, bounded, fun _ => drained (by rw [pc]; rfl),
        fun _ impossible => (by cases impossible)⟩
  | returned matcher => exact ⟨flag, bounded, drained, finished⟩

/-! ## Progress -/

/-- The program points on the way to the end, once no command is left. -/
def Pc.rank : Pc → Nat
  | .process _ _ => 5
  | .publish _ => 4
  | .poll false => 3
  | .loadStop => 2
  | .poll true => 1
  | .returned _ => 0

/-- A bound on the steps that the matcher thread still takes. -/
def stepsLeft (engine : Engine) : Nat :=
  engine.events.length + (engine.matcher.run (engine.pc.inHand ++ engine.commands)).2.length +
    5 * engine.commands.length + engine.pc.rank

/-- As long as there is a slot for every event, each step brings the end closer. -/
theorem Stopping.stepsLeft_lt (stopping : Stopping eventCapacity engine)
    (room : engine.slotsNeeded ≤ eventCapacity)
    (running : ∀ matcher, engine.pc ≠ .returned matcher) :
    (engine.matcherStep eventCapacity).1.stepsLeft < engine.stepsLeft := by
  unfold Engine.matcherStep stepsLeft
  cases pc : engine.pc with
  | poll last =>
      cases queue : engine.commands with
      | nil => cases last <;> simp [Fifo.pop, Pc.inHand, Pc.rank]
      | cons command commands =>
          cases last <;>
            simp only [Fifo.pop, Pc.inHand, Pc.rank, List.nil_append, List.singleton_append,
              List.length_cons] <;> omega
  | process last command =>
      have empty : engine.events = [] := stopping.drained (by rw [pc]; rfl)
      simp only [Pc.inHand, Pc.rank, List.nil_append, List.singleton_append, Matcher.run_cons,
        empty, List.length_append, List.length_nil]
      omega
  | publish last =>
      cases buffer : engine.events with
      | nil => cases last <;> simp [Pc.inHand, Pc.rank]
      | cons event events =>
          have slot : engine.eventsOut.length < eventCapacity := by
            rw [slotsNeeded, buffer, List.length_cons] at room
            omega
          simp only [Fifo.push, if_pos slot, List.length_cons]
          omega
  | loadStop => simp [stopping.flag, Pc.inHand, Pc.rank]
  | returned matcher => exact absurd pc (running matcher)

theorem finishes_of_matcherStep (finishes : Finishes eventCapacity
    (engine.matcherStep eventCapacity).1) : Finishes eventCapacity engine := by
  rcases finishes with ⟨count, matcher, returned⟩
  exact ⟨count + 1, matcher, returned⟩

theorem Stopping.finishes (stopping : Stopping eventCapacity engine)
    (room : engine.slotsNeeded ≤ eventCapacity) : Finishes eventCapacity engine := by
  generalize bound : engine.stepsLeft = left
  induction left using Nat.strongRecOn generalizing engine with
  | ind left ih =>
      by_cases running : ∀ matcher, engine.pc ≠ .returned matcher
      · have closer := stopping.stepsLeft_lt room running
        rw [bound] at closer
        apply finishes_of_matcherStep
        apply ih _ closer stopping.matcherStep
        · rw [slotsNeeded_matcherStep stopping.drained]
          exact room
        · rfl
      · rcases not_forall.mp running with ⟨matcher, returned⟩
        exact ⟨0, matcher, not_not.mp returned⟩

/-! ## When the thread finishes -/

/-- All events that were to come are in the queue at the end. -/
theorem Stopping.room_of_returned (stopping : Stopping eventCapacity engine) {matcher : Matcher}
    (returned : engine.pc = .returned matcher) : engine.slotsNeeded ≤ eventCapacity := by
  have empty : engine.events = [] := stopping.drained (by rw [returned]; rfl)
  rw [slotsNeeded, empty, stopping.finished matcher returned, returned]
  exact stopping.bounded

theorem Stopping.room_of_finishes (stopping : Stopping eventCapacity engine)
    (finishes : Finishes eventCapacity engine) : engine.slotsNeeded ≤ eventCapacity := by
  rcases finishes with ⟨count, matcher, returned⟩
  induction count generalizing engine with
  | zero => exact stopping.room_of_returned returned
  | succ count ih =>
      rw [← slotsNeeded_matcherStep stopping.drained]
      exact ih stopping.matcherStep returned

theorem Stopping.finishes_iff (stopping : Stopping eventCapacity engine) :
    Finishes eventCapacity engine ↔ engine.slotsNeeded ≤ eventCapacity :=
  ⟨stopping.room_of_finishes, stopping.finishes⟩

theorem stopped_mem_step (engine : Engine) (move : Move) :
    .stopped ∈ (engine.step commandCapacity eventCapacity move).2 ↔ move = .stop := by
  cases move with
  | tryPush command => simp [step]
  | tryPop => simp [step]
  | stop => simp [step]
  | matcher =>
      simp only [step, reduceCtorEq, iff_false]
      unfold Engine.matcherStep
      cases engine.pc with
      | poll last => cases engine.commands <;> simp [Fifo.pop]
      | process last command => simp
      | publish last =>
          cases engine.events with
          | nil => simp
          | cons event events =>
              simp only [Fifo.push]
              split <;> simp
      | loadStop => simp
      | returned matcher => simp

/-- The state in which the owner has just set the flag. -/
theorem stopping_of_run (commandCapacity eventCapacity : Nat) {moves : List Move}
    (first : .stop ∉ moves) :
    Stopping eventCapacity ((machine commandCapacity eventCapacity).run (moves ++ [.stop])).1 := by
  rcases run_holds commandCapacity eventCapacity moves with ⟨sequential, shutdown⟩
  have unmarked : .stopped ∉ ((machine commandCapacity eventCapacity).run moves).2 :=
    fun marked => first (((machine commandCapacity eventCapacity).mem_run_iff stopped_mem_step
      moves).mp marked)
  rw [Machine.run_append]
  refine ⟨rfl, sequential.eventsOut.bounded, sequential.drained, ?_⟩
  intro matcher returned
  have before : ((machine commandCapacity eventCapacity).run moves).1.pc = .returned matcher :=
    returned
  exact absurd (shutdown.leaving (by rw [before]; rfl)) unmarked

/-- The moves of the matcher thread alone, as a schedule. -/
theorem runFrom_replicate_matcher (state : Engine × List Mark) (count : Nat) :
    ((machine commandCapacity eventCapacity).runFrom state
      (List.replicate count .matcher)).1 = state.1.matcherSteps eventCapacity count := by
  induction count generalizing state with
  | zero => rfl
  | succ count ih => exact ih _

/-- The owner stops the engine in any state that it can reach, and from then on only the
matcher thread moves. The thread returns exactly if the event queue has a slot for every event
that is queued, in the buffer, or to come from the commands that were pushed. -/
theorem run_stop_returns_iff (commandCapacity eventCapacity : Nat) {moves : List Move}
    (first : .stop ∉ moves) :
    let engine := ((machine commandCapacity eventCapacity).run moves).1
    (∃ count matcher, ((machine commandCapacity eventCapacity).run
      (moves ++ [.stop] ++ List.replicate count .matcher)).1.pc = .returned matcher) ↔
      engine.eventsOut.length + engine.events.length +
        (engine.matcher.run (engine.pc.inHand ++ engine.commands)).2.length ≤
          eventCapacity := by
  intro engine
  have stopped : ((machine commandCapacity eventCapacity).run (moves ++ [.stop])).1 =
      { engine with stopFlag := true } := by
    rw [Machine.run_append]
    rfl
  have stopping := stopping_of_run commandCapacity eventCapacity first
  simp only [Machine.run_append _ (moves ++ [.stop]), runFrom_replicate_matcher]
  rw [stopped] at stopping ⊢
  exact stopping.finishes_iff

/-- Two slots, and a market order on an empty book, which takes both. -/
theorem run_stop_returns_iff_market :
    let moves : List Move := [.tryPush (.new ⟨.new 1, .buy, .new 5, .market, .fromNanos 0⟩)]
    ∃ count matcher, ((machine 2 2).run (moves ++ [.stop] ++
      List.replicate count .matcher)).1.pc = .returned matcher := by
  intro moves
  exact (run_stop_returns_iff 2 2 (by decide)).mpr (by decide)

/-- Two market orders on an empty book make four events, two of which find no slot: the thread
never returns. -/
theorem run_stop_hangs :
    let moves : List Move := [.tryPush (.new ⟨.new 1, .buy, .new 5, .market, .fromNanos 0⟩),
      .tryPush (.new ⟨.new 2, .buy, .new 5, .market, .fromNanos 0⟩)]
    ∀ count matcher, ((machine 2 2).run (moves ++ [.stop] ++
      List.replicate count .matcher)).1.pc ≠ .returned matcher := by
  intro moves count matcher returned
  rw [Machine.run_append, runFrom_replicate_matcher] at returned
  have room := (stopping_of_run 2 2 (by decide)).room_of_finishes ⟨count, matcher, returned⟩
  exact absurd room (by decide)

end Engine

end Bourse
