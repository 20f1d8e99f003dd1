import Bourse.Data.Fifo
import Bourse.Data.Machine
import Bourse.Matcher.Run

/-!
# The engine pipeline

`matcher_loop` and `drain_one` of `bourse-core/src/engine.rs` between a gateway and a
publisher.  The two queues are bounded first-in first-out queues of any capacity.  The
matcher thread is cut at its accesses to what it shares: one `try_pop` of a command,
one attempt of the retried `try_push` of an event, one load of the stop flag.  The
gateway, the publisher and whoever stops the engine move between any two of these.
-/

namespace Bourse

/-- Where the matcher thread is. `last` tells the passes of the last drain from those
of the outer loop. -/
inductive Engine.Pc where
  | poll (last : Bool)
  | process (last : Bool) (command : Command)
  | publish (last : Bool)
  | loadStop
  | returned (matcher : Matcher)
  deriving DecidableEq

/-- What the parties share and the locals of the matcher thread. `events` is the buffer
of `drain_one`, which still holds the event whose `try_push` is being retried. -/
structure Engine where
  commands : List Command
  eventsOut : List Event
  stopFlag : Bool
  matcher : Matcher
  events : List Event
  pc : Engine.Pc

namespace Engine

/-- A move of one of the parties. -/
inductive Move where
  | tryPush (command : Command)
  | tryPop
  | stop
  | matcher
  deriving DecidableEq, Repr

/-- What a move leaves behind: the outcome of an operation on either queue, the
handling of a command, the setting of the stop flag. -/
inductive Mark where
  | command (outcome : Fifo.Outcome Command)
  | event (outcome : Fifo.Outcome Event)
  | processed (command : Command)
  | stopped
  deriving DecidableEq, Repr

/-- The engine when the matcher thread is spawned. -/
def start : Engine := ⟨[], [], false, Matcher.new, [], .poll false⟩

/-- The next step of `matcher_loop`. -/
def matcherStep (eventCapacity : Nat) (engine : Engine) : Engine × List Mark :=
  match engine.pc with
  | .poll last =>
      match Fifo.pop engine.commands with
      | (commands, .popped command) =>
          ({ engine with commands, pc := .process last command }, [.command (.popped command)])
      | (commands, outcome) =>
          let pc := if last then .returned engine.matcher else .loadStop
          ({ engine with commands, pc }, [.command outcome])
  | .process last command =>
      let (matcher, events) := engine.matcher.handle command []
      ({ engine with matcher, events, pc := .publish last }, [.processed command])
  | .publish last =>
      match engine.events with
      | [] => ({ engine with pc := .poll last }, [])
      | event :: events =>
          match Fifo.push eventCapacity engine.eventsOut event with
          | (eventsOut, .accepted event) =>
              ({ engine with eventsOut, events }, [.event (.accepted event)])
          | (eventsOut, outcome) => ({ engine with eventsOut }, [.event outcome])
  | .loadStop => ({ engine with pc := .poll engine.stopFlag }, [])
  | .returned _ => (engine, [])

/-- One move. -/
def step (commandCapacity eventCapacity : Nat) (engine : Engine) :
    Move → Engine × List Mark
  | .tryPush command =>
      let (commands, outcome) := Fifo.push commandCapacity engine.commands command
      ({ engine with commands }, [.command outcome])
  | .tryPop =>
      let (eventsOut, outcome) := Fifo.pop engine.eventsOut
      ({ engine with eventsOut }, [.event outcome])
  | .stop => ({ engine with stopFlag := true }, [.stopped])
  | .matcher => engine.matcherStep eventCapacity

/-- The engine with queues of the given capacities. -/
def machine (commandCapacity eventCapacity : Nat) : Machine Engine Move Mark :=
  ⟨start, step commandCapacity eventCapacity⟩

/-- What happened to the command queue. -/
def commandOutcomes : List Mark → List (Fifo.Outcome Command)
  | [] => []
  | .command outcome :: trace => outcome :: commandOutcomes trace
  | .event _ :: trace | .processed _ :: trace | .stopped :: trace => commandOutcomes trace

/-- What happened to the event queue. -/
def eventOutcomes : List Mark → List (Fifo.Outcome Event)
  | [] => []
  | .event outcome :: trace => outcome :: eventOutcomes trace
  | .command _ :: trace | .processed _ :: trace | .stopped :: trace => eventOutcomes trace

/-- The commands that the matcher handled. -/
def processed : List Mark → List Command
  | [] => []
  | .processed command :: trace => command :: processed trace
  | .command _ :: trace | .event _ :: trace | .stopped :: trace => processed trace

/-- The commands whose `try_push` returned `Ok`. -/
def pushed (trace : List Mark) : List Command := Fifo.accepted (commandOutcomes trace)

/-- The events that the publisher popped. -/
def popped (trace : List Mark) : List Event := Fifo.popped (eventOutcomes trace)

/-- The part of a trace before the stop flag was set. -/
def beforeStop (trace : List Mark) : List Mark := Machine.before .stopped trace

@[simp] theorem commandOutcomes_append (trace more : List Mark) :
    commandOutcomes (trace ++ more) = commandOutcomes trace ++ commandOutcomes more := by
  induction trace with
  | nil => rfl
  | cons mark trace ih => cases mark <;> simp [commandOutcomes, ih]

@[simp] theorem eventOutcomes_append (trace more : List Mark) :
    eventOutcomes (trace ++ more) = eventOutcomes trace ++ eventOutcomes more := by
  induction trace with
  | nil => rfl
  | cons mark trace ih => cases mark <;> simp [eventOutcomes, ih]

@[simp] theorem processed_append (trace more : List Mark) :
    processed (trace ++ more) = processed trace ++ processed more := by
  induction trace with
  | nil => rfl
  | cons mark trace ih => cases mark <;> simp [processed, ih]

theorem beforeStop_append {trace : List Mark} (stopped : .stopped ∈ trace) (more : List Mark) :
    beforeStop (trace ++ more) = beforeStop trace :=
  Machine.before_append stopped more

theorem pushed_beforeStop_prefix (trace : List Mark) :
    pushed (beforeStop trace) <+: pushed trace := by
  rcases Machine.before_prefix .stopped trace with ⟨rest, whole⟩
  refine ⟨Fifo.accepted (commandOutcomes rest), ?_⟩
  simp only [pushed, ← Fifo.accepted_append, ← commandOutcomes_append]
  rw [beforeStop, whole]

/-- The command that was taken from the queue and not yet handled. -/
def Pc.inHand : Pc → List Command
  | .process _ command => [command]
  | .poll _ | .publish _ | .loadStop | .returned _ => []

/-- The matcher thread is in the last drain or has returned. -/
def Pc.leaving : Pc → Bool
  | .poll last | .process last _ | .publish last => last
  | .loadStop => false
  | .returned _ => true

/-- The buffer of `drain_one` is empty here. -/
def Pc.drained : Pc → Bool
  | .publish _ => false
  | .poll _ | .process _ _ | .loadStop | .returned _ => true

/-- What the matcher thread has done is the run of a fresh matcher on what it handled,
and both queues account for what went through them. -/
structure Sequential (commandCapacity eventCapacity : Nat) (engine : Engine)
    (trace : List Mark) : Prop where
  commands : Fifo.Reaches commandCapacity (commandOutcomes trace) engine.commands
  eventsOut : Fifo.Reaches eventCapacity (eventOutcomes trace) engine.eventsOut
  taken : Fifo.popped (commandOutcomes trace) = processed trace ++ engine.pc.inHand
  matcher : engine.matcher = (Matcher.new.run (processed trace)).1
  emitted : Fifo.accepted (eventOutcomes trace) ++ engine.events =
    (Matcher.new.run (processed trace)).2
  drained : engine.pc.drained → engine.events = []

variable {commandCapacity eventCapacity : Nat} {engine : Engine} {trace : List Mark}

/-- What was pushed is what was handled, what is in hand and what is queued. -/
theorem Sequential.pushed_eq (holds : Sequential commandCapacity eventCapacity engine trace) :
    pushed trace = processed trace ++ engine.pc.inHand ++ engine.commands := by
  rw [← holds.taken]
  exact holds.commands.accounts

/-- A gateway push changes the command queue only. -/
theorem Sequential.tryPush (holds : Sequential commandCapacity eventCapacity engine trace)
    (command : Command) :
    Sequential commandCapacity eventCapacity
      (engine.step commandCapacity eventCapacity (.tryPush command)).1
      (trace ++ (engine.step commandCapacity eventCapacity (.tryPush command)).2) where
  commands := by
    rw [commandOutcomes_append]
    exact holds.commands.push command
  eventsOut := by
    rw [eventOutcomes_append]
    simpa [step, eventOutcomes] using holds.eventsOut
  taken := by simpa [step, commandOutcomes, processed] using holds.taken
  matcher := by simpa [step, processed] using holds.matcher
  emitted := by simpa [step, eventOutcomes, processed] using holds.emitted
  drained := holds.drained

/-- A publisher pop changes the event queue only. -/
theorem Sequential.tryPop (holds : Sequential commandCapacity eventCapacity engine trace) :
    Sequential commandCapacity eventCapacity
      (engine.step commandCapacity eventCapacity .tryPop).1
      (trace ++ (engine.step commandCapacity eventCapacity .tryPop).2) where
  commands := by
    rw [commandOutcomes_append]
    simpa [step, commandOutcomes] using holds.commands
  eventsOut := by
    rw [eventOutcomes_append]
    exact holds.eventsOut.pop
  taken := by simpa [step, commandOutcomes, processed] using holds.taken
  matcher := by simpa [step, processed] using holds.matcher
  emitted := by simpa [step, eventOutcomes, processed] using holds.emitted
  drained := holds.drained

/-- A jump that takes nothing into the hand and leaves no event in the buffer. -/
theorem Sequential.goto (holds : Sequential commandCapacity eventCapacity engine trace)
    (pc : Pc) (hand : pc.inHand = engine.pc.inHand)
    (drained : pc.drained → engine.events = []) :
    Sequential commandCapacity eventCapacity { engine with pc } trace where
  commands := holds.commands
  eventsOut := holds.eventsOut
  taken := by rw [holds.taken, hand]
  matcher := holds.matcher
  emitted := holds.emitted
  drained := drained

/-- A poll that finds no command. -/
theorem Sequential.refuse (holds : Sequential commandCapacity eventCapacity engine trace)
    (queue : engine.commands = []) :
    Sequential commandCapacity eventCapacity engine (trace ++ [.command .empty]) where
  commands := by
    have popped := holds.commands.pop
    rw [queue] at popped ⊢
    simpa [commandOutcomes, Fifo.pop] using popped
  eventsOut := by simpa [eventOutcomes] using holds.eventsOut
  taken := by simpa [commandOutcomes, processed, Fifo.popped] using holds.taken
  matcher := by simpa [processed] using holds.matcher
  emitted := by simpa [eventOutcomes, processed] using holds.emitted
  drained := holds.drained

/-- A poll that takes a command into the hand. -/
theorem Sequential.take (holds : Sequential commandCapacity eventCapacity engine trace)
    {last : Bool} {command : Command} {commands : List Command} (pc : engine.pc = .poll last)
    (queue : engine.commands = command :: commands) :
    Sequential commandCapacity eventCapacity
      { engine with commands, pc := .process last command }
      (trace ++ [.command (.popped command)]) where
  commands := by
    have popped := holds.commands.pop
    rw [queue] at popped
    simpa [commandOutcomes, Fifo.pop] using popped
  eventsOut := by simpa [eventOutcomes] using holds.eventsOut
  taken := by
    have taken := holds.taken
    rw [pc] at taken
    simpa [commandOutcomes, processed, Fifo.popped, Pc.inHand] using taken
  matcher := by simpa [processed] using holds.matcher
  emitted := by simpa [eventOutcomes, processed] using holds.emitted
  drained _ := holds.drained (by rw [pc]; rfl)

/-- The command in hand is handled, which fills the buffer. -/
theorem Sequential.process (holds : Sequential commandCapacity eventCapacity engine trace)
    {last : Bool} {command : Command} (pc : engine.pc = .process last command) :
    Sequential commandCapacity eventCapacity
      { engine with
        matcher := (engine.matcher.handle command []).1
        events := (engine.matcher.handle command []).2
        pc := .publish last }
      (trace ++ [.processed command]) where
  commands := by simpa [commandOutcomes] using holds.commands
  eventsOut := by simpa [eventOutcomes] using holds.eventsOut
  taken := by
    have taken := holds.taken
    rw [pc] at taken
    simpa [commandOutcomes, processed, Pc.inHand] using taken
  matcher := by
    rw [processed_append, holds.matcher]
    simp [processed, Matcher.run_concat]
  emitted := by
    have emitted := holds.emitted
    rw [holds.drained (by rw [pc]; rfl), List.append_nil] at emitted
    rw [processed_append, eventOutcomes_append, holds.matcher]
    simp [processed, eventOutcomes, Matcher.run_concat, emitted]
  drained := fun impossible => by cases impossible

/-- One attempt to push the first event of the buffer, which keeps it if the queue is
full. -/
theorem Sequential.publish (holds : Sequential commandCapacity eventCapacity engine trace)
    {last : Bool} {event : Event} {events : List Event} (pc : engine.pc = .publish last)
    (buffer : engine.events = event :: events) :
    Sequential commandCapacity eventCapacity (engine.matcherStep eventCapacity).1
      (trace ++ (engine.matcherStep eventCapacity).2) := by
  have pushed := holds.eventsOut.push event
  have emitted := holds.emitted
  rw [buffer] at emitted
  unfold Engine.matcherStep
  rw [pc, buffer]
  by_cases room : engine.eventsOut.length < eventCapacity
  · simp only [Fifo.push, if_pos room] at pushed ⊢
    exact {
      commands := by simpa [commandOutcomes] using holds.commands
      eventsOut := by simpa [eventOutcomes] using pushed
      taken := by simpa [commandOutcomes, processed, pc] using holds.taken
      matcher := by simpa [processed] using holds.matcher
      emitted := by simpa [eventOutcomes, processed, Fifo.accepted] using emitted
      drained := fun impossible => by cases impossible }
  · simp only [Fifo.push, if_neg room] at pushed ⊢
    exact {
      commands := by simpa [commandOutcomes] using holds.commands
      eventsOut := by simpa [eventOutcomes] using pushed
      taken := by simpa [commandOutcomes, processed, pc] using holds.taken
      matcher := by simpa [processed] using holds.matcher
      emitted := by simpa [eventOutcomes, processed, Fifo.accepted, buffer] using emitted
      drained := fun impossible => by cases impossible }

/-- The matcher thread moves a command from the queue to its hand, handles the command in
its hand, or moves an event from its buffer to the queue. -/
theorem Sequential.matcherStep (holds : Sequential commandCapacity eventCapacity engine trace) :
    Sequential commandCapacity eventCapacity (engine.matcherStep eventCapacity).1
      (trace ++ (engine.matcherStep eventCapacity).2) := by
  cases pc : engine.pc with
  | poll last =>
      have drained := holds.drained (by rw [pc]; rfl)
      cases queue : engine.commands with
      | nil =>
          have refused := holds.refuse queue
          cases last <;>
            simpa [Engine.matcherStep, pc, queue, Fifo.pop] using
              refused.goto _ (by rw [pc]; rfl) (fun _ => drained)
      | cons command commands =>
          simpa [Engine.matcherStep, pc, queue, Fifo.pop] using holds.take pc queue
  | process last command =>
      simpa [Engine.matcherStep, pc] using holds.process pc
  | publish last =>
      cases buffer : engine.events with
      | nil =>
          simpa [Engine.matcherStep, pc, buffer] using
            holds.goto (.poll last) (by rw [pc]; rfl) (fun _ => buffer)
      | cons event events => exact holds.publish pc buffer
  | loadStop =>
      simpa [Engine.matcherStep, pc] using
        holds.goto (.poll engine.stopFlag) (by rw [pc]; rfl)
          (fun _ => holds.drained (by rw [pc]; rfl))
  | returned result => simpa [Engine.matcherStep, pc] using holds

/-- Setting the flag touches neither queue. -/
theorem Sequential.stop (holds : Sequential commandCapacity eventCapacity engine trace) :
    Sequential commandCapacity eventCapacity { engine with stopFlag := true }
      (trace ++ [.stopped]) where
  commands := by simpa [commandOutcomes] using holds.commands
  eventsOut := by simpa [eventOutcomes] using holds.eventsOut
  taken := by simpa [commandOutcomes, processed] using holds.taken
  matcher := by simpa [processed] using holds.matcher
  emitted := by simpa [eventOutcomes, processed] using holds.emitted
  drained := holds.drained

theorem Sequential.step (holds : Sequential commandCapacity eventCapacity engine trace)
    (move : Move) :
    Sequential commandCapacity eventCapacity
      (engine.step commandCapacity eventCapacity move).1
      (trace ++ (engine.step commandCapacity eventCapacity move).2) := by
  cases move with
  | tryPush command => exact holds.tryPush command
  | tryPop => exact holds.tryPop
  | stop => exact holds.stop
  | matcher => exact holds.matcherStep

/-- The last drain starts after the flag was set and ends with an empty queue, so the
matcher thread returns a matcher that has handled everything pushed before. -/
structure Shutdown (engine : Engine) (trace : List Mark) : Prop where
  flag : engine.stopFlag → .stopped ∈ trace
  leaving : engine.pc.leaving → .stopped ∈ trace
  returned : ∀ matcher, engine.pc = .returned matcher →
    matcher = engine.matcher ∧ pushed (beforeStop trace) <+: processed trace

/-- A move of another party leaves the matcher thread where it is. -/
theorem Shutdown.frame (holds : Shutdown engine trace) {next : Engine} {marks : List Mark}
    (flag : next.stopFlag → engine.stopFlag ∨ .stopped ∈ marks) (pc : next.pc = engine.pc)
    (matcher : next.matcher = engine.matcher) :
    Shutdown next (trace ++ marks) where
  flag set := by
    rw [List.mem_append]
    exact (flag set).imp_left holds.flag
  leaving leaves := List.mem_append_left _ (holds.leaving (pc ▸ leaves))
  returned result returns := by
    rw [pc] at returns
    rcases holds.returned result returns with ⟨same, covered⟩
    have stopped := holds.leaving (by rw [returns]; rfl)
    rw [matcher, beforeStop_append stopped, processed_append]
    exact ⟨same, covered.trans (List.prefix_append _ _)⟩

/-- A step of the matcher thread to a point before its return. -/
theorem Shutdown.goto (holds : Shutdown engine trace) {next : Engine} {marks : List Mark}
    (flag : next.stopFlag = engine.stopFlag)
    (leaving : next.pc.leaving → engine.pc.leaving ∨ engine.stopFlag)
    (running : ∀ matcher, next.pc ≠ .returned matcher) :
    Shutdown next (trace ++ marks) where
  flag set := List.mem_append_left _ (holds.flag (flag ▸ set))
  leaving leaves := List.mem_append_left _ ((leaving leaves).elim holds.leaving holds.flag)
  returned result returns := absurd returns (running result)

/-- The thread returns from a poll of the last drain that finds no command. -/
theorem Shutdown.matcherStep (holds : Shutdown engine trace)
    (sequential : Sequential commandCapacity eventCapacity engine trace) :
    Shutdown (engine.matcherStep eventCapacity).1
      (trace ++ (engine.matcherStep eventCapacity).2) := by
  unfold Engine.matcherStep
  cases pc : engine.pc with
  | poll last =>
      have leaving := holds.leaving
      rw [pc] at leaving
      cases queue : engine.commands with
      | cons command commands =>
          exact holds.goto rfl (fun leaves => .inl (by rw [pc]; exact leaves)) (by simp [Fifo.pop])
      | nil =>
          cases last with
          | false => exact holds.goto rfl (by simp [Fifo.pop, Pc.leaving]) (by simp [Fifo.pop])
          | true =>
              have all : pushed trace = processed trace := by
                rw [sequential.pushed_eq, pc, queue]
                simp [Pc.inHand]
              refine ⟨fun set => List.mem_append_left _ (holds.flag set),
                fun _ => List.mem_append_left _ (leaving rfl), ?_⟩
              intro result returns
              cases returns
              rw [beforeStop_append (leaving rfl)]
              refine ⟨rfl, ?_⟩
              simpa [processed, Fifo.pop, all] using pushed_beforeStop_prefix trace
  | process last command =>
      exact holds.goto rfl (fun leaves => .inl (by rw [pc]; exact leaves)) (by simp)
  | publish last =>
      have leaving : Pc.leaving (.publish last) → engine.pc.leaving ∨ engine.stopFlag :=
        fun leaves => .inl (by rw [pc]; exact leaves)
      cases buffer : engine.events with
      | nil => exact holds.goto rfl leaving (by simp)
      | cons event events =>
          by_cases room : engine.eventsOut.length < eventCapacity
          · simp only [Fifo.push, if_pos room]
            exact holds.goto rfl leaving (by simp)
          · simp only [Fifo.push, if_neg room]
            exact holds.goto rfl leaving (by simp)
  | loadStop => exact holds.goto rfl (fun leaves => .inr leaves) (by simp)
  | returned result => exact holds.frame .inl rfl rfl

theorem Shutdown.step (holds : Shutdown engine trace)
    (sequential : Sequential commandCapacity eventCapacity engine trace) (move : Move) :
    Shutdown (engine.step commandCapacity eventCapacity move).1
      (trace ++ (engine.step commandCapacity eventCapacity move).2) := by
  cases move with
  | tryPush command => exact holds.frame .inl rfl rfl
  | tryPop => exact holds.frame .inl rfl rfl
  | stop => exact holds.frame (fun _ => .inr (List.mem_singleton_self _)) rfl rfl
  | matcher => exact holds.matcherStep sequential

/-- Both invariants hold along every interleaving. -/
theorem run_holds (commandCapacity eventCapacity : Nat) (moves : List Move) :
    let engine := ((machine commandCapacity eventCapacity).run moves).1
    let trace := ((machine commandCapacity eventCapacity).run moves).2
    Sequential commandCapacity eventCapacity engine trace ∧ Shutdown engine trace := by
  apply (machine commandCapacity eventCapacity).run_invariant fun engine trace =>
    Sequential commandCapacity eventCapacity engine trace ∧ Shutdown engine trace
  · exact ⟨⟨.start, .start, rfl, rfl, rfl, fun _ => rfl⟩, by simp [machine, start],
      by simp [machine, start, Pc.leaving], by simp [machine, start]⟩
  · intro engine trace move holds
    exact ⟨holds.1.step move, holds.2.step holds.1 move⟩

/-- Whatever the capacities and the interleaving, the events popped, queued and still in
the buffer are those of a fresh matcher on the commands handled, which are a prefix of
those pushed. A matcher that the thread returns has handled every command pushed before
the flag was set. -/
theorem run_sequential (commandCapacity eventCapacity : Nat) (moves : List Move) :
    let engine := ((machine commandCapacity eventCapacity).run moves).1
    let trace := ((machine commandCapacity eventCapacity).run moves).2
    popped trace ++ engine.eventsOut ++ engine.events =
        (Matcher.new.run (processed trace)).2 ∧
      processed trace <+: pushed trace ∧
      ∀ matcher, engine.pc = .returned matcher →
        ∃ handled, handled <+: pushed trace ∧ pushed (beforeStop trace) <+: handled ∧
          matcher = (Matcher.new.run handled).1 := by
  intro engine trace
  rcases run_holds commandCapacity eventCapacity moves with ⟨sequential, shutdown⟩
  have within : processed trace <+: pushed trace := by
    rw [sequential.pushed_eq, List.append_assoc]
    exact List.prefix_append _ _
  refine ⟨?_, within, ?_⟩
  · rw [← sequential.emitted, sequential.eventsOut.accounts]
    rfl
  · intro matcher returns
    rcases shutdown.returned matcher returns with ⟨rfl, covered⟩
    exact ⟨processed trace, within, covered, sequential.matcher⟩

/-- An order that races in between the empty poll and the load of the flag is handled by the
last drain. The event queue has one slot: the thread publishes the second of its two events after
the publisher has popped the first. -/
theorem run_sequential_raced :
    let order : NewOrder := ⟨.new 1, .buy, .new 5, .market, .fromNanos 0⟩
    let moves : List Move := [.matcher, .tryPush (.new order), .stop] ++
      List.replicate 4 .matcher ++ [.tryPop] ++ List.replicate 4 .matcher
    let engine := ((machine 4 1).run moves).1
    let trace := ((machine 4 1).run moves).2
    pushed (beforeStop trace) = [.new order] ∧
      popped trace = [.accepted (.new 1) (.new 5) (.fromRaw 1)] ∧
      engine.eventsOut = [.done (.new 1) (.new 5) .noLiquidity (.fromRaw 2)] ∧
      popped trace ++ engine.eventsOut ++ engine.events =
        (Matcher.new.run (processed trace)).2 ∧
      ∃ matcher, engine.pc = .returned matcher ∧
        ∃ handled, [.new order] <+: handled ∧ matcher = (Matcher.new.run handled).1 := by
  intro order moves engine trace
  rcases run_sequential 4 1 moves with ⟨emitted, -, returned⟩
  have before : pushed (beforeStop trace) = [.new order] := by decide +kernel
  refine ⟨before, by decide +kernel, by decide +kernel, emitted, ?_⟩
  have ended : engine.pc = .returned engine.matcher := by decide +kernel
  rcases returned _ ended with ⟨handled, -, covers, final⟩
  rw [before] at covers
  exact ⟨engine.matcher, ended, handled, covers, final⟩

end Engine

end Bourse
