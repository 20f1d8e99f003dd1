import Bourse.Engine
import Bourse.Spsc.Sound

/-!
# The engine with the orderings of its source

The pipeline of `engine.rs` over its two ring buffers in one memory, which also holds the stop
flag.  The gateway, the publisher and the owner of the engine may be one thread or several.
Each step is one access to the memory, and its loads may return old values: the matcher may find
a queue empty or full that no longer is, and may miss the flag.
-/

namespace Bourse

namespace Engine

namespace Weak

/-- Who holds the two halves that the matcher thread does not hold, and who stops it. -/
structure Roles (τ : Type) where
  gateway : τ
  publisher : τ
  owner : τ
  matcher : τ
  gateway_ne : gateway ≠ matcher
  publisher_ne : publisher ≠ matcher

/-- The atomic locations. -/
inductive Location where
  | commandTail
  | commandHead
  | eventTail
  | eventHead
  | stopFlag
  deriving DecidableEq, Repr

/-- The slots of both queues. -/
inductive Cell where
  | command (slot : Nat)
  | event (slot : Nat)
  deriving DecidableEq, Repr

variable {τ : Type} {w : Nat}

/-- The command queue. -/
def Roles.commands (roles : Roles τ) : Spsc.Names τ Location Cell where
  producer := roles.gateway
  consumer := roles.matcher
  tail := .commandTail
  head := .commandHead
  slot := .command
  threads := roles.gateway_ne
  indices := by decide
  slots _ _ same := Cell.command.inj same

/-- The event queue. -/
def Roles.eventsOut (roles : Roles τ) : Spsc.Names τ Location Cell where
  producer := roles.matcher
  consumer := roles.publisher
  tail := .eventTail
  head := .eventHead
  slot := .event
  threads := roles.publisher_ne.symm
  indices := by decide
  slots _ _ same := Cell.event.inj same

/-- What the parties share and the locals of the matcher thread. -/
structure State (τ : Type) (w : Nat) where
  memory : WeakMemory τ Location Cell (BitVec w)
  commands : Spsc.Halves Command w
  eventsOut : Spsc.Halves Event w
  matcher : Matcher
  events : List Event
  pc : Pc

/-- A move of one of the parties. A party in the middle of a call goes on with it, and `pick`
says how new the value is that it loads. -/
inductive Move where
  | tryPush (command : Command) (pick : Nat)
  | tryPop (pick : Nat)
  | stop
  | matcher (pick : Nat)
  deriving DecidableEq, Repr

/-- What a move leaves behind. -/
inductive Mark where
  | access (raced : Bool)
  | command (outcome : Fifo.Outcome (Option Command))
  | event (outcome : Fifo.Outcome (Option Event))
  | processed (command : Command)
  deriving DecidableEq, Repr

/-- A flag is a word that is not zero when it is set. -/
def flagged (value : BitVec w) : Bool := value ≠ 0#w

section Steps

variable [DecidableEq τ] [Fintype τ] (roles : Roles τ)

/-- A step of one side of the command queue. -/
def State.onCommands (state : State τ w) (stepped : Spsc.Stepped Command w τ Location Cell) :
    State τ w × List Mark :=
  ({ state with commands := stepped.halves, memory := stepped.memory },
    .access stepped.raced :: (stepped.outcome.map Mark.command).toList)

/-- A step of one side of the event queue. -/
def State.onEvents (state : State τ w) (stepped : Spsc.Stepped Event w τ Location Cell) :
    State τ w × List Mark :=
  ({ state with eventsOut := stepped.halves, memory := stepped.memory },
    .access stepped.raced :: (stepped.outcome.map Mark.event).toList)

/-- The next step of `matcher_loop`. -/
def matcherStep (state : State τ w) (pick : Nat) : State τ w × List Mark :=
  match state.pc with
  | .poll last =>
      let stepped := state.commands.popStep roles.commands state.memory pick
      let (state, marks) := state.onCommands stepped
      match stepped.outcome with
      | some (.popped (some command)) => ({ state with pc := .process last command }, marks)
      | some .empty =>
          ({ state with pc := if last then .returned state.matcher else .loadStop }, marks)
      | _ => (state, marks)
  | .process last command =>
      let (matcher, events) := state.matcher.handle command []
      ({ state with matcher, events, pc := .publish last }, [.processed command])
  | .publish last =>
      match state.events with
      | [] => ({ state with pc := .poll last }, [])
      | event :: events =>
          let stepped := state.eventsOut.pushStep roles.eventsOut state.memory event pick
          let (state, marks) := state.onEvents stepped
          match stepped.outcome with
          | some (.accepted _) => ({ state with events }, marks)
          | _ => (state, marks)
  | .loadStop =>
      let (memory, stop) := state.memory.load roles.matcher .stopFlag .acquire pick
      ({ state with memory, pc := .poll (flagged stop) }, [])
  | .returned _ => (state, [])

/-- One move. -/
def step (state : State τ w) : Move → State τ w × List Mark
  | .tryPush command pick =>
      state.onCommands (state.commands.pushStep roles.commands state.memory command pick)
  | .tryPop pick => state.onEvents (state.eventsOut.popStep roles.eventsOut state.memory pick)
  | .stop =>
      ({ state with memory := state.memory.store roles.owner .stopFlag .release 1#w }, [])
  | .matcher pick => matcherStep roles state pick

/-- `Engine::start` with the capacities that it is given. -/
def machine (commandCapacity eventCapacity : BitVec w) : Machine (State τ w) Move Mark where
  initial :=
    { memory := .start fun _ => 0#w
      commands := .channel Command commandCapacity
      eventsOut := .channel Event eventCapacity
      matcher := Matcher.new
      events := []
      pc := .poll false }
  step := step roles

end Steps

/-! ## Traces -/

/-- What happened to the command queue. -/
def commandOutcomes : List Mark → List (Fifo.Outcome (Option Command))
  | [] => []
  | .command outcome :: trace => outcome :: commandOutcomes trace
  | .access _ :: trace | .event _ :: trace | .processed _ :: trace => commandOutcomes trace

/-- What happened to the event queue. -/
def eventOutcomes : List Mark → List (Fifo.Outcome (Option Event))
  | [] => []
  | .event outcome :: trace => outcome :: eventOutcomes trace
  | .access _ :: trace | .command _ :: trace | .processed _ :: trace => eventOutcomes trace

/-- The commands that the matcher handled. -/
def processed : List Mark → List Command
  | [] => []
  | .processed command :: trace => command :: processed trace
  | .access _ :: trace | .command _ :: trace | .event _ :: trace => processed trace

/-- The commands whose `try_push` returned `Ok`. -/
def pushed (trace : List Mark) : List (Option Command) := Fifo.accepted (commandOutcomes trace)

/-- The events that the publisher popped. -/
def popped (trace : List Mark) : List (Option Event) := Fifo.popped (eventOutcomes trace)

@[simp] theorem commandOutcomes_append (trace more : List Mark) :
    commandOutcomes (trace ++ more) = commandOutcomes trace ++ commandOutcomes more := by
  induction trace with
  | nil => rfl
  | cons mark trace ih => cases mark <;> simp [commandOutcomes, ih]

@[simp] theorem eventOutcomes_append (trace more : List Mark) :
    eventOutcomes (trace ++ more) = eventOutcomes trace ++ eventOutcomes more := by
  induction trace with
  | nil => rfl
  | cons mark trace ih => cases mark <;> simp [eventOutcomes, ih]

@[simp] theorem processed_append (trace more : List Mark) :
    processed (trace ++ more) = processed trace ++ processed more := by
  induction trace with
  | nil => rfl
  | cons mark trace ih => cases mark <;> simp [processed, ih]

theorem outcomes_onCommands (outcome : Option (Fifo.Outcome (Option Command))) (raced : Bool) :
    let marks := Mark.access raced :: (outcome.map Mark.command).toList
    commandOutcomes marks = outcome.toList ∧ eventOutcomes marks = [] ∧ processed marks = [] := by
  cases outcome <;> exact ⟨rfl, rfl, rfl⟩

theorem outcomes_onEvents (outcome : Option (Fifo.Outcome (Option Event))) (raced : Bool) :
    let marks := Mark.access raced :: (outcome.map Mark.event).toList
    commandOutcomes marks = [] ∧ eventOutcomes marks = outcome.toList ∧ processed marks = [] := by
  cases outcome <;> exact ⟨rfl, rfl, rfl⟩

/-! ## The queues -/

section Invariant

variable [DecidableEq τ] [Fintype τ] {roles : Roles τ} {commandCapacity eventCapacity : BitVec w}
  {state : State τ w} {trace : List Mark}

/-- Both queues are sound, and no access raced. -/
structure Queues (roles : Roles τ) (commandCapacity eventCapacity : BitVec w)
    (state : State τ w) (trace : List Mark) : Prop where
  commands : ∃ queue, Spsc.Carries roles.commands state.commands state.memory commandCapacity
    (commandOutcomes trace) queue
  eventsOut : ∃ queue, Spsc.Carries roles.eventsOut state.eventsOut state.memory eventCapacity
    (eventOutcomes trace) queue
  safe : ∀ raced, .access raced ∈ trace → raced = false

omit [DecidableEq τ] [Fintype τ] in
theorem Queues.consistent (queues : Queues roles commandCapacity eventCapacity state trace) :
    state.memory.Consistent := by
  rcases queues.commands with ⟨queue, carries⟩
  exact carries.sound.consistent

omit [DecidableEq τ] [Fintype τ] in
/-- The marks of an access that did not race. -/
theorem Queues.safe_append (queues : Queues roles commandCapacity eventCapacity state trace)
    {marks : List Mark} (safe : ∀ raced, .access raced ∈ marks → raced = false) (raced : Bool)
    (member : .access raced ∈ trace ++ marks) : raced = false := by
  rcases List.mem_append.mp member with old | new
  · exact queues.safe raced old
  · exact safe raced new

omit [DecidableEq τ] [Fintype τ] in
/-- A step of the command queue leaves the event queue alone. -/
theorem Queues.onCommands (queues : Queues roles commandCapacity eventCapacity state trace)
    {stepped : Spsc.Stepped Command w τ Location Cell}
    (follows : ∀ queue, Spsc.Sound roles.commands state.commands state.memory queue →
      Spsc.Follows roles.commands state.commands state.memory queue stepped)
    (elsewhere : roles.commands.Elsewhere state.memory stepped.memory) :
    Queues roles commandCapacity eventCapacity (state.onCommands stepped).1
      (trace ++ (state.onCommands stepped).2) := by
  rcases outcomes_onCommands stepped.outcome stepped.raced with ⟨commands, events, -⟩
  rcases queues.commands with ⟨queue, carries⟩
  have followed := follows queue carries.sound
  rcases carries.follow followed with ⟨after, next, -⟩
  refine ⟨⟨after, ?_⟩, ?_, ?_⟩
  · rw [commandOutcomes_append, State.onCommands, commands]
    exact next
  · rcases queues.eventsOut with ⟨queue, carries⟩
    refine ⟨queue, ?_⟩
    rw [eventOutcomes_append, State.onCommands, events, List.append_nil]
    apply carries.frame followed.grows next.sound.consistent
    · exact elsewhere.latest _ (by intro impossible; cases impossible)
        (by intro impossible; cases impossible)
    · exact elsewhere.latest _ (by intro impossible; cases impossible)
        (by intro impossible; cases impossible)
    · intro cell
      exact elsewhere.cells _ fun slot impossible => (by cases impossible)
  · apply queues.safe_append
    intro raced member
    rcases List.mem_cons.mp member with same | outcome
    · cases same
      exact followed.raced
    · rcases Option.mem_toList.mp outcome with outcome
      rcases Option.map_eq_some_iff.mp outcome with ⟨_, -, impossible⟩
      cases impossible

omit [DecidableEq τ] [Fintype τ] in
/-- A step of the event queue leaves the command queue alone. -/
theorem Queues.onEvents (queues : Queues roles commandCapacity eventCapacity state trace)
    {stepped : Spsc.Stepped Event w τ Location Cell}
    (follows : ∀ queue, Spsc.Sound roles.eventsOut state.eventsOut state.memory queue →
      Spsc.Follows roles.eventsOut state.eventsOut state.memory queue stepped)
    (elsewhere : roles.eventsOut.Elsewhere state.memory stepped.memory) :
    Queues roles commandCapacity eventCapacity (state.onEvents stepped).1
      (trace ++ (state.onEvents stepped).2) := by
  rcases outcomes_onEvents stepped.outcome stepped.raced with ⟨commands, events, -⟩
  rcases queues.eventsOut with ⟨queue, carries⟩
  have followed := follows queue carries.sound
  rcases carries.follow followed with ⟨after, next, -⟩
  refine ⟨?_, ⟨after, ?_⟩, ?_⟩
  · rcases queues.commands with ⟨queue, carries⟩
    refine ⟨queue, ?_⟩
    rw [commandOutcomes_append, State.onEvents, commands, List.append_nil]
    apply carries.frame followed.grows next.sound.consistent
    · exact elsewhere.latest _ (by intro impossible; cases impossible)
        (by intro impossible; cases impossible)
    · exact elsewhere.latest _ (by intro impossible; cases impossible)
        (by intro impossible; cases impossible)
    · intro cell
      exact elsewhere.cells _ fun slot impossible => (by cases impossible)
  · rw [eventOutcomes_append, State.onEvents, events]
    exact next
  · apply queues.safe_append
    intro raced member
    rcases List.mem_cons.mp member with same | outcome
    · cases same
      exact followed.raced
    · rcases Option.mem_toList.mp outcome with outcome
      rcases Option.map_eq_some_iff.mp outcome with ⟨_, -, impossible⟩
      cases impossible

omit [DecidableEq τ] [Fintype τ] in
/-- What happens to the flag leaves both queues alone. -/
theorem Queues.onFlag (queues : Queues roles commandCapacity eventCapacity state trace)
    {memory : WeakMemory τ Location Cell (BitVec w)} (grows : state.memory.Grows memory)
    (consistent : memory.Consistent)
    (latest : ∀ location ≠ .stopFlag, memory.latest location = state.memory.latest location)
    (cells : memory.cells = state.memory.cells) :
    Queues roles commandCapacity eventCapacity { state with memory } trace where
  commands := by
    rcases queues.commands with ⟨queue, carries⟩
    refine ⟨queue, carries.frame grows consistent ?_ ?_ fun cell => by rw [cells]⟩
    · exact latest _ (by intro impossible; cases impossible)
    · exact latest _ (by intro impossible; cases impossible)
  eventsOut := by
    rcases queues.eventsOut with ⟨queue, carries⟩
    refine ⟨queue, carries.frame grows consistent ?_ ?_ fun cell => by rw [cells]⟩
    · exact latest _ (by intro impossible; cases impossible)
    · exact latest _ (by intro impossible; cases impossible)
  safe := queues.safe

theorem Queues.matcherStep (queues : Queues roles commandCapacity eventCapacity state trace)
    (pick : Nat) : Queues roles commandCapacity eventCapacity
      (Weak.matcherStep roles state pick).1 (trace ++ (Weak.matcherStep roles state pick).2) := by
  unfold Weak.matcherStep
  cases pc : state.pc with
  | poll last =>
      have next := queues.onCommands (fun queue sound => sound.popStep pick)
        (state.commands.popStep_elsewhere roles.commands state.memory pick)
      dsimp only
      split
      next => exact ⟨next.commands, next.eventsOut, next.safe⟩
      next => exact ⟨next.commands, next.eventsOut, next.safe⟩
      next => exact next
  | process last command =>
      refine ⟨?_, ?_, queues.safe_append fun raced impossible => (by simp at impossible)⟩
      · simpa [commandOutcomes] using queues.commands
      · simpa [eventOutcomes] using queues.eventsOut
  | publish last =>
      cases buffer : state.events with
      | nil => simpa using ⟨queues.commands, queues.eventsOut, queues.safe⟩
      | cons event events =>
          have next := queues.onEvents (fun queue sound => sound.pushStep event pick)
            (state.eventsOut.pushStep_elsewhere roles.eventsOut state.memory event pick)
          dsimp only
          split
          next => exact ⟨next.commands, next.eventsOut, next.safe⟩
          next => exact next
  | loadStop =>
      have next := queues.onFlag
        (queues.consistent.load_grows roles.matcher .stopFlag .acquire pick)
        (queues.consistent.load roles.matcher .stopFlag .acquire pick) (fun _ _ => rfl) rfl
      rw [List.append_nil]
      exact ⟨next.commands, next.eventsOut, next.safe⟩
  | returned matcher =>
      rw [List.append_nil]
      exact queues

/-- No move takes a message or knowledge away. -/
theorem Queues.step_grows (queues : Queues roles commandCapacity eventCapacity state trace)
    (move : Move) : state.memory.Grows (step roles state move).1.memory := by
  rcases queues.commands with ⟨commands, onCommands⟩
  rcases queues.eventsOut with ⟨events, onEvents⟩
  cases move with
  | tryPush command pick => exact (onCommands.sound.pushStep command pick).grows
  | tryPop pick => exact (onEvents.sound.popStep pick).grows
  | stop => exact queues.consistent.store_grows roles.owner .stopFlag .release 1#w
  | matcher pick =>
      have popGrows := (onCommands.sound.popStep pick).grows
      have pushGrows := fun event => (onEvents.sound.pushStep event pick).grows
      simp only [Weak.step, Weak.matcherStep]
      cases state.pc with
      | poll last =>
          dsimp only
          split <;> exact popGrows
      | process last command => exact .refl _
      | publish last =>
          cases state.events with
          | nil => exact .refl _
          | cons event events =>
              dsimp only
              split <;> exact pushGrows event
      | loadStop => exact queues.consistent.load_grows roles.matcher .stopFlag .acquire pick
      | returned matcher => exact .refl _

theorem Queues.step (queues : Queues roles commandCapacity eventCapacity state trace)
    (move : Move) : Queues roles commandCapacity eventCapacity (step roles state move).1
      (trace ++ (step roles state move).2) := by
  cases move with
  | tryPush command pick =>
      exact queues.onCommands (fun queue sound => sound.pushStep command pick)
        (state.commands.pushStep_elsewhere roles.commands state.memory command pick)
  | tryPop pick =>
      exact queues.onEvents (fun queue sound => sound.popStep pick)
        (state.eventsOut.popStep_elsewhere roles.eventsOut state.memory pick)
  | stop =>
      have next := queues.onFlag
        (queues.consistent.store_grows roles.owner .stopFlag .release 1#w)
        (queues.consistent.store roles.owner .stopFlag .release 1#w)
        (fun _ other => WeakMemory.store_latest_of_ne _ _ _ _ other) rfl
      simpa [Weak.step] using next
  | matcher pick => exact queues.matcherStep pick

/-! ## The matcher thread -/

/-- What the matcher thread has done is the run of a fresh matcher on what it handled, and it
pushes the first event of its buffer. -/
structure Sequential (state : State τ w) (trace : List Mark) : Prop where
  taken : Fifo.popped (commandOutcomes trace) = (processed trace ++ state.pc.inHand).map some
  matcher : state.matcher = (Matcher.new.run (processed trace)).1
  emitted : Fifo.accepted (eventOutcomes trace) ++ state.events.map some =
    (Matcher.new.run (processed trace)).2.map some
  drained : state.pc.drained → state.events = []
  pushing : ∀ event, state.eventsOut.pushing.value = some event → state.events.head? = some event
  result : ∀ matcher, state.pc = .returned matcher → matcher = state.matcher

theorem Sequential.tryPush (sequential : Sequential state trace) (command : Command)
    (pick : Nat) :
    Sequential (step roles state (.tryPush command pick)).1
      (trace ++ (step roles state (.tryPush command pick)).2) := by
  have none := state.commands.popped_pushStep roles.commands state.memory command pick
  simp only [step, State.onCommands]
  generalize state.commands.pushStep roles.commands state.memory command pick = stepped at *
  rcases outcomes_onCommands stepped.outcome stepped.raced with ⟨commands, events, handled⟩
  exact {
    taken := by
      rw [commandOutcomes_append, processed_append, commands, handled, Fifo.popped_append, none]
      simpa using sequential.taken
    matcher := by
      rw [processed_append, handled, List.append_nil]
      exact sequential.matcher
    emitted := by
      rw [eventOutcomes_append, processed_append, events, handled]
      simpa using sequential.emitted
    drained := sequential.drained
    pushing := sequential.pushing
    result := sequential.result }

theorem Sequential.tryPop (sequential : Sequential state trace) (pick : Nat) :
    Sequential (step roles state (.tryPop pick)).1
      (trace ++ (step roles state (.tryPop pick)).2) := by
  have none := state.eventsOut.accepted_popStep roles.eventsOut state.memory pick
  have pushing := state.eventsOut.popStep_pushing roles.eventsOut state.memory pick
  simp only [step, State.onEvents]
  generalize state.eventsOut.popStep roles.eventsOut state.memory pick = stepped at *
  rcases outcomes_onEvents stepped.outcome stepped.raced with ⟨commands, events, handled⟩
  exact {
    taken := by
      rw [commandOutcomes_append, processed_append, commands, handled]
      simpa using sequential.taken
    matcher := by
      rw [processed_append, handled, List.append_nil]
      exact sequential.matcher
    emitted := by
      rw [eventOutcomes_append, processed_append, events, handled, Fifo.accepted_append, none]
      simpa using sequential.emitted
    drained := sequential.drained
    pushing := by
      rw [pushing]
      exact sequential.pushing
    result := sequential.result }

/-- A poll takes a command into the hand, finds none, or is not over. -/
theorem Sequential.poll (sequential : Sequential state trace)
    (queues : Queues roles commandCapacity eventCapacity state trace) {last : Bool}
    (pc : state.pc = .poll last) (pick : Nat) :
    Sequential (matcherStep roles state pick).1 (trace ++ (matcherStep roles state pick).2) := by
  have taken := sequential.taken
  have empty : state.events = [] := sequential.drained (by rw [pc]; rfl)
  have next := queues.matcherStep pick
  rcases next.commands with ⟨queue, carries⟩
  have initialised := carries.popped_ne_none
  have outcome := state.commands.popStep_outcome roles.commands state.memory pick
  rw [pc] at taken
  simp only [matcherStep, pc, State.onCommands] at initialised ⊢
  generalize state.commands.popStep roles.commands state.memory pick = stepped at *
  rcases outcome with returned | returned | ⟨value, returned⟩
  · simp only [returned] at initialised ⊢
    exact {
      taken := by simpa [commandOutcomes, processed, pc] using taken
      matcher := by simpa [processed] using sequential.matcher
      emitted := by simpa [eventOutcomes, processed] using sequential.emitted
      drained := fun _ => empty
      pushing := sequential.pushing
      result := fun _ impossible => by cases impossible }
  · simp only [returned] at initialised ⊢
    have hand : (if last then Pc.returned state.matcher else .loadStop).inHand = [] := by
      cases last <;> rfl
    exact {
      taken := by
        simp only [hand]
        simpa [commandOutcomes, processed, Fifo.popped, Pc.inHand] using taken
      matcher := by simpa [processed] using sequential.matcher
      emitted := by simpa [eventOutcomes, processed] using sequential.emitted
      drained := fun _ => empty
      pushing := sequential.pushing
      result := by
        intro matcher ended
        cases last with
        | true =>
            cases ended
            rfl
        | false => cases ended }
  · cases value with
    | none =>
        simp only [returned] at initialised
        have impossible := initialised none (by simp [commandOutcomes, Fifo.popped])
        exact absurd rfl impossible
    | some command =>
        simp only [returned]
        exact {
          taken := by
            simp only [Pc.inHand, List.append_nil] at taken
            rw [commandOutcomes_append, processed_append, Fifo.popped_append, taken]
            simp [commandOutcomes, processed, Fifo.popped, Pc.inHand]
          matcher := by simpa [processed] using sequential.matcher
          emitted := by simpa [eventOutcomes, processed] using sequential.emitted
          drained := fun _ => empty
          pushing := sequential.pushing
          result := fun _ impossible => by cases impossible }

/-- The command in hand is handled, which fills the buffer. -/
theorem Sequential.process (sequential : Sequential state trace) {last : Bool}
    {command : Command} (pc : state.pc = .process last command) (pick : Nat) :
    Sequential (matcherStep roles state pick).1 (trace ++ (matcherStep roles state pick).2) := by
  have taken := sequential.taken
  have emitted := sequential.emitted
  have empty : state.events = [] := sequential.drained (by rw [pc]; rfl)
  rw [pc] at taken
  rw [empty, List.map_nil, List.append_nil] at emitted
  simp only [matcherStep, pc]
  exact {
    taken := by simpa [commandOutcomes, processed, Pc.inHand] using taken
    matcher := by
      rw [processed_append, sequential.matcher]
      simp [processed, Matcher.run_concat]
    emitted := by
      rw [processed_append, eventOutcomes_append, sequential.matcher]
      simp [processed, eventOutcomes, Matcher.run_concat, emitted]
    drained := fun impossible => by cases impossible
    pushing := by
      intro event pushing
      have first := sequential.pushing event pushing
      rw [empty] at first
      cases first
    result := fun _ impossible => by cases impossible }

/-- An attempt to push the first event of the buffer succeeds, fails, or is not over. -/
theorem Sequential.publish (sequential : Sequential state trace) {last : Bool}
    (pc : state.pc = .publish last) (pick : Nat) :
    Sequential (matcherStep roles state pick).1 (trace ++ (matcherStep roles state pick).2) := by
  have taken := sequential.taken
  have emitted := sequential.emitted
  rw [pc] at taken
  cases buffer : state.events with
  | nil =>
      simp only [matcherStep, pc, buffer, List.append_nil]
      exact {
        taken := taken
        matcher := sequential.matcher
        emitted := by simpa [buffer] using emitted
        drained := fun _ => rfl
        pushing := by
          dsimp only
          rw [← buffer]
          exact sequential.pushing
        result := fun _ impossible => by cases impossible }
  | cons event events =>
      have current : state.eventsOut.pushing.value.getD event = event := by
        cases pushing : state.eventsOut.pushing.value with
        | none => rfl
        | some other =>
            have first := sequential.pushing other pushing
            rw [buffer] at first
            cases first
            rfl
      have outcome := state.eventsOut.pushStep_value roles.eventsOut state.memory event pick
      rw [buffer] at emitted
      simp only [matcherStep, pc, buffer, State.onEvents, current] at outcome ⊢
      generalize state.eventsOut.pushStep roles.eventsOut state.memory event pick = stepped at *
      rcases outcome with ⟨returned, pushing⟩ | ⟨returned, pushing⟩ | ⟨returned, pushing⟩
      · simp only [returned]
        exact {
          taken := by simpa [commandOutcomes, processed, pc] using taken
          matcher := by simpa [processed] using sequential.matcher
          emitted := by simpa [eventOutcomes, processed, buffer] using emitted
          drained := fun impossible => by cases impossible
          pushing := by
            intro other same
            rw [pushing] at same
            simpa [buffer] using same
          result := fun _ impossible => by cases impossible }
      · simp only [returned]
        exact {
          taken := by simpa [commandOutcomes, processed, pc] using taken
          matcher := by simpa [processed] using sequential.matcher
          emitted := by simpa [eventOutcomes, processed, Fifo.accepted] using emitted
          drained := fun impossible => by cases impossible
          pushing := by
            intro other impossible
            rw [pushing] at impossible
            cases impossible
          result := fun _ impossible => by cases impossible }
      · simp only [returned]
        exact {
          taken := by simpa [commandOutcomes, processed, pc] using taken
          matcher := by simpa [processed] using sequential.matcher
          emitted := by simpa [eventOutcomes, processed, Fifo.accepted, buffer] using emitted
          drained := fun impossible => by cases impossible
          pushing := by
            intro other impossible
            rw [pushing] at impossible
            cases impossible
          result := fun _ impossible => by cases impossible }

theorem Sequential.matcherStep (sequential : Sequential state trace)
    (queues : Queues roles commandCapacity eventCapacity state trace) (pick : Nat) :
    Sequential (matcherStep roles state pick).1 (trace ++ (matcherStep roles state pick).2) := by
  cases pc : state.pc with
  | poll last => exact sequential.poll queues pc pick
  | process last command => exact sequential.process pc pick
  | publish last => exact sequential.publish pc pick
  | loadStop =>
      have taken := sequential.taken
      rw [pc] at taken
      simp only [Weak.matcherStep, pc, List.append_nil]
      exact {
        taken := taken
        matcher := sequential.matcher
        emitted := sequential.emitted
        drained := fun _ => sequential.drained (by rw [pc]; rfl)
        pushing := sequential.pushing
        result := fun _ impossible => by cases impossible }
  | returned matcher =>
      simp only [Weak.matcherStep, pc, List.append_nil]
      exact sequential

end Invariant

end Weak

end Engine

end Bourse
