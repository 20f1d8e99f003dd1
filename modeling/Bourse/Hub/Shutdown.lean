import Bourse.Data.Fifo
import Bourse.Data.Machine
import Bourse.Hub.Core

/-!
# Stopping the hub

`Hub::register`, `Submitter::submit`, `Hub::stop` and the loop of `matcher_loop` of
`bourse-core/src/hub.rs` with any number of calls in progress.  The inbox is a bounded
first-in first-out queue.  A call of `register` or `submit` is in progress until its push
succeeds, and then returns.  The matcher thread is cut at its accesses to what it shares,
a pop of the inbox and a load of the stop flag; what it does with a message is its own.
-/

namespace Bourse

namespace Hub

/-- Where the matcher thread is. `didWork` is the local of the current pass. -/
inductive Pc where
  | pop (didWork : Bool)
  | loadStop
  | returned (matcher : Matcher)

/-- What the parties share, the calls in progress by the message each tries to push, the
connections whose submitter is alive, and the locals of the matcher thread. -/
structure System where
  inbox : List Msg
  nextConn : UInt64
  stopFlag : Bool
  calls : List Msg
  submitters : List ConnId
  hub : Hub
  pc : Pc

/-- A move of one of the parties. -/
inductive Move where
  | register
  | submit (conn : ConnId) (command : Command)
  | push (call : Nat)
  | drop (conn : ConnId)
  | stop
  | matcher
  deriving DecidableEq, Repr

/-- What a move leaves behind. -/
inductive Mark where
  | inbox (outcome : Fifo.Outcome Msg)
  | stopped
  deriving DecidableEq, Repr

namespace System

/-- The hub when the matcher thread is spawned. -/
def start : System := ⟨[], 1, false, [], [], Hub.new, .pop false⟩

/-- The submitter that a call returns. -/
def returnedBy : Msg → List ConnId
  | .connect id => [id]
  | .disconnect _ | .cmd _ _ => []

/-- The message is what a `submit` of the connection pushes. -/
def submittedBy (conn : ConnId) : Msg → Bool
  | .cmd other _ => other = conn
  | .connect _ | .disconnect _ => false

/-- One attempt of a call in progress. It returns if the inbox had room. -/
def push (capacity : Nat) (system : System) (call : Nat) : System × List Mark :=
  match system.calls[call]? with
  | none => (system, [])
  | some msg =>
      match Fifo.push capacity system.inbox msg with
      | (inbox, .accepted msg) =>
          let calls := system.calls.eraseIdx call
          let submitters := system.submitters ++ returnedBy msg
          ({ system with inbox, calls, submitters }, [.inbox (.accepted msg)])
      | (inbox, outcome) => ({ system with inbox }, [.inbox outcome])

/-- The next step of `matcher_loop`. -/
def matcherStep (system : System) : System × List Mark :=
  match system.pc with
  | .pop didWork =>
      match Fifo.pop system.inbox with
      | (inbox, .popped msg) =>
          let hub := (system.hub.handle msg).1
          ({ system with inbox, hub, pc := .pop true }, [.inbox (.popped msg)])
      | (inbox, outcome) =>
          let pc := if didWork then .pop false else .loadStop
          ({ system with inbox, pc }, [.inbox outcome])
  | .loadStop =>
      let pc := if system.stopFlag then .returned system.hub.matcher else .pop false
      ({ system with pc }, [])
  | .returned _ => (system, [])

/-- One move. A submitter that is alive starts calls, and is dropped when none of its
calls is in progress; the `Disconnect` of a drop is tried once. -/
def step (capacity : Nat) (system : System) : Move → System × List Mark
  | .register =>
      let calls := system.calls ++ [.connect ⟨system.nextConn⟩]
      ({ system with calls, nextConn := system.nextConn + 1 }, [])
  | .submit conn command =>
      if conn ∈ system.submitters then
        ({ system with calls := system.calls ++ [.cmd conn command] }, [])
      else (system, [])
  | .push call => system.push capacity call
  | .drop conn =>
      if conn ∈ system.submitters ∧ ¬ system.calls.any (submittedBy conn) then
        let (inbox, outcome) := Fifo.push capacity system.inbox (.disconnect conn)
        let submitters := system.submitters.erase conn
        ({ system with inbox, submitters }, [.inbox outcome])
      else (system, [])
  | .stop => ({ system with stopFlag := true }, [.stopped])
  | .matcher => system.matcherStep

end System

/-- A hub started with the given capacity of its inbox. -/
def machine (inboxCapacity : Nat) : Machine System Move Mark :=
  ⟨System.start, System.step (max inboxCapacity 8)⟩

/-- What happened to the inbox. -/
def inboxOutcomes : List Mark → List (Fifo.Outcome Msg)
  | [] => []
  | .inbox outcome :: trace => outcome :: inboxOutcomes trace
  | .stopped :: trace => inboxOutcomes trace

/-- The commands whose `submit` returned, in the order of the inbox. -/
def submitted (trace : List Mark) : List Command :=
  commands (Fifo.accepted (inboxOutcomes trace))

/-- The commands that the matcher thread took from the inbox and applied. -/
def applied (trace : List Mark) : List Command :=
  commands (Fifo.popped (inboxOutcomes trace))

/-- The part of a trace before the stop flag was set. -/
def beforeStop (trace : List Mark) : List Mark := Machine.before .stopped trace

/-- The matcher is the sequential one on the commands applied, which are a prefix of those
submitted and contain all that were submitted before the stop. -/
def LosesNone (matcher : Matcher) (trace : List Mark) : Prop :=
  matcher = (Matcher.new.run (applied trace)).1 ∧ applied trace <+: submitted trace ∧
    submitted (beforeStop trace) <+: applied trace

/-- The matcher thread has found the inbox empty in an idle pass and did not load the flag
since, while a command is in the inbox. -/
def System.Window (system : System) : Prop :=
  system.pc = .loadStop ∧ commands system.inbox ≠ []

@[simp] theorem inboxOutcomes_append (trace more : List Mark) :
    inboxOutcomes (trace ++ more) = inboxOutcomes trace ++ inboxOutcomes more := by
  induction trace with
  | nil => rfl
  | cons mark trace ih => cases mark <;> simp [inboxOutcomes, ih]

theorem mem_inboxOutcomes {outcome : Fifo.Outcome Msg} {trace : List Mark} :
    outcome ∈ inboxOutcomes trace ↔ .inbox outcome ∈ trace := by
  induction trace with
  | nil => simp [inboxOutcomes]
  | cons mark trace ih => cases mark <;> simp [inboxOutcomes, ih]

theorem applied_append (trace more : List Mark) :
    applied (trace ++ more) = applied trace ++ applied more := by
  simp [applied, commands_append]

/-- What a move other than `stop` and `matcher` does: at most one push. -/
inductive System.Pushes (capacity : Nat) (system : System) : System × List Mark → Prop where
  | none {next : System} (inbox : next.inbox = system.inbox)
      (flag : next.stopFlag = system.stopFlag) (hub : next.hub = system.hub)
      (pc : next.pc = system.pc) :
      System.Pushes capacity system (next, [])
  | one {next : System} {msg : Msg} {outcome : Fifo.Outcome Msg}
      (pushed : Fifo.push capacity system.inbox msg = (next.inbox, outcome))
      (flag : next.stopFlag = system.stopFlag) (hub : next.hub = system.hub)
      (pc : next.pc = system.pc) :
      System.Pushes capacity system (next, [.inbox outcome])

/-- A move stops the hub, is a step of the matcher thread, or is a move of a caller. -/
theorem System.step_cases (capacity : Nat) (system : System) (move : Move) :
    move = .stop ∨ move = .matcher ∨ system.Pushes capacity (system.step capacity move) := by
  cases move with
  | register => exact .inr (.inr (.none rfl rfl rfl rfl))
  | submit conn command =>
      simp only [step]
      split
      next => exact .inr (.inr (.none rfl rfl rfl rfl))
      next => exact .inr (.inr (.none rfl rfl rfl rfl))
  | push call =>
      simp only [step, push]
      split
      next => exact .inr (.inr (.none rfl rfl rfl rfl))
      next msg found =>
        split
        next inbox _ pushed => exact .inr (.inr (.one pushed rfl rfl rfl))
        next inbox outcome _ pushed => exact .inr (.inr (.one pushed rfl rfl rfl))
  | drop conn =>
      simp only [step]
      split
      next => exact .inr (.inr (.one rfl rfl rfl rfl))
      next => exact .inr (.inr (.none rfl rfl rfl rfl))
  | stop => exact .inl rfl
  | matcher => exact .inr (.inl rfl)

/-- The matcher thread is the run of a fresh hub on what it took from the inbox, and the
inbox accounts for what went through it. -/
structure Accounts (capacity : Nat) (system : System) (trace : List Mark) : Prop where
  inbox : Fifo.Reaches capacity (inboxOutcomes trace) system.inbox
  hub : system.hub = (run (Fifo.popped (inboxOutcomes trace))).1
  flag : system.stopFlag → .stopped ∈ trace
  returned : ∀ matcher, system.pc = .returned matcher →
    matcher = system.hub.matcher ∧ system.stopFlag

variable {capacity : Nat} {system : System} {trace : List Mark} {after : System × List Mark}

/-- What was submitted is what was applied and what is in the inbox. -/
theorem Accounts.submitted_eq (accounts : Accounts capacity system trace) :
    submitted trace = applied trace ++ commands system.inbox := by
  rw [submitted, accounts.inbox.accounts, commands_append]
  rfl

/-- A push takes nothing out of the inbox. -/
theorem System.Pushes.popped (pushes : system.Pushes capacity after) :
    Fifo.popped (inboxOutcomes after.2) = [] := by
  cases pushes with
  | none => rfl
  | @one _ msg outcome pushed =>
      have none := Fifo.popped_push capacity system.inbox msg
      rw [pushed] at none
      exact none

theorem Accounts.pushes (accounts : Accounts capacity system trace)
    (pushes : system.Pushes capacity after) :
    Accounts capacity after.1 (trace ++ after.2) := by
  have popped := pushes.popped
  cases pushes with
  | none inbox flag hub pc =>
      rw [List.append_nil]
      exact ⟨inbox ▸ accounts.inbox, hub ▸ accounts.hub, flag ▸ accounts.flag,
        by rw [pc, hub, flag]; exact accounts.returned⟩
  | @one _ msg outcome pushed flag hub pc =>
      have reached := accounts.inbox.push msg
      rw [pushed] at reached
      refine ⟨?_, ?_, ?_, ?_⟩
      · rw [inboxOutcomes_append]
        exact reached
      · rw [inboxOutcomes_append, Fifo.popped_append, popped, List.append_nil, hub]
        exact accounts.hub
      · rw [flag]
        exact fun set => List.mem_append_left _ (accounts.flag set)
      · rw [pc, hub, flag]
        exact accounts.returned

theorem Accounts.stop (accounts : Accounts capacity system trace) :
    Accounts capacity { system with stopFlag := true } (trace ++ [.stopped]) where
  inbox := by simpa [inboxOutcomes] using accounts.inbox
  hub := by simpa [inboxOutcomes] using accounts.hub
  flag _ := by simp
  returned matcher returns := ⟨(accounts.returned matcher returns).1, rfl⟩

theorem Accounts.matcherStep (accounts : Accounts capacity system trace) :
    Accounts capacity system.matcherStep.1 (trace ++ system.matcherStep.2) := by
  unfold System.matcherStep
  have flag : system.stopFlag → ∀ marks, Mark.stopped ∈ trace ++ marks :=
    fun set marks => List.mem_append_left marks (accounts.flag set)
  have reached := accounts.inbox.pop
  cases pc : system.pc with
  | pop didWork =>
      cases inbox : system.inbox with
      | nil =>
          rw [inbox] at reached
          refine ⟨?_, ?_, fun set => flag set _, ?_⟩
          · simpa [inboxOutcomes, Fifo.pop] using reached
          · simpa [inboxOutcomes, Fifo.pop, Fifo.popped] using accounts.hub
          · cases didWork <;> simp [Fifo.pop]
      | cons msg rest =>
          rw [inbox] at reached
          refine ⟨?_, ?_, fun set => flag set _, ?_⟩
          · simpa [inboxOutcomes, Fifo.pop] using reached
          · simp [inboxOutcomes, Fifo.pop, Fifo.popped, run_concat, accounts.hub]
          · simp [Fifo.pop]
  | loadStop =>
      rw [List.append_nil]
      refine ⟨accounts.inbox, accounts.hub, accounts.flag, ?_⟩
      intro matcher returns
      cases set : system.stopFlag with
      | false => simp [set] at returns
      | true =>
          simp only [set, if_true, Pc.returned.injEq] at returns
          exact ⟨returns.symm, rfl⟩
  | returned matcher =>
      rw [List.append_nil]
      exact accounts

theorem Accounts.step (accounts : Accounts capacity system trace) (move : Move) :
    Accounts capacity (system.step capacity move).1
      (trace ++ (system.step capacity move).2) := by
  rcases system.step_cases capacity move with rfl | rfl | pushes
  · exact accounts.stop
  · exact accounts.matcherStep
  · exact accounts.pushes pushes

theorem run_accounts (inboxCapacity : Nat) (moves : List Move) :
    Accounts (max inboxCapacity 8) ((machine inboxCapacity).run moves).1
      ((machine inboxCapacity).run moves).2 := by
  apply (machine inboxCapacity).run_invariant (Accounts (max inboxCapacity 8))
  · exact ⟨.start, rfl, by simp [machine, System.start], by simp [machine, System.start]⟩
  · intro system trace move accounts
    exact accounts.step move

/-- The thread will not look into the inbox again if the flag is set. -/
def Pc.leaving : Pc → Bool
  | .pop _ => false
  | .loadStop | .returned _ => true

theorem System.Pushes.pc_eq (pushes : system.Pushes capacity after) :
    after.1.pc = system.pc := by
  cases pushes with
  | none inbox flag hub pc => exact pc
  | one pushed flag hub pc => exact pc

theorem System.Pushes.flag_eq (pushes : system.Pushes capacity after) :
    after.1.stopFlag = system.stopFlag := by
  cases pushes with
  | none inbox flag hub pc => exact flag
  | one pushed flag hub pc => exact flag

theorem System.Pushes.applied_eq (pushes : system.Pushes capacity after)
    (trace : List Mark) : applied (trace ++ after.2) = applied trace := by
  rw [applied_append, applied.eq_def after.2, pushes.popped]
  exact List.append_nil _

/-- Commands that were submitted are applied when the thread is about to leave: it finds
the inbox empty first. -/
def Covers (due : List Command) (capacity : Nat) (system : System) (trace : List Mark) : Prop :=
  Accounts capacity system trace ∧ due <+: submitted trace ∧
    (system.pc.leaving → due <+: applied trace)

theorem prefix_submitted (trace marks : List Mark) :
    submitted trace <+: submitted (trace ++ marks) := by
  simp only [submitted, inboxOutcomes_append, Fifo.accepted_append, commands_append]
  exact List.prefix_append _ _

theorem Covers.step {due : List Command} (covers : Covers due capacity system trace)
    (move : Move) :
    Covers due capacity (system.step capacity move).1
      (trace ++ (system.step capacity move).2) := by
  rcases covers with ⟨accounts, known, applied_due⟩
  refine ⟨accounts.step move, known.trans (prefix_submitted trace _), ?_⟩
  have later : ∀ marks, system.pc.leaving → due <+: applied (trace ++ marks) := by
    intro marks leaving
    rw [applied_append]
    exact (applied_due leaving).trans (List.prefix_append _ _)
  rcases system.step_cases capacity move with rfl | rfl | pushes
  · exact later _
  · simp only [System.step, System.matcherStep]
    cases pc : system.pc with
    | pop didWork =>
        cases inbox : system.inbox with
        | nil =>
            intro _
            have all := accounts.submitted_eq
            rw [inbox] at all
            rw [applied_append]
            exact (all ▸ known).trans (by simp [commands])
        | cons msg rest => exact fun impossible => by cases impossible
    | loadStop => exact fun _ => later _ (by rw [pc]; rfl)
    | returned matcher => exact later _
  · rw [pushes.pc_eq]
    exact later _

theorem Covers.runFrom {due : List Command} {inboxCapacity : Nat}
    (covers : Covers due (max inboxCapacity 8) system trace) (moves : List Move) :
    Covers due (max inboxCapacity 8) ((machine inboxCapacity).runFrom (system, trace) moves).1
      ((machine inboxCapacity).runFrom (system, trace) moves).2 := by
  apply (machine inboxCapacity).runFrom_invariant (Covers due (max inboxCapacity 8))
  · exact covers
  · intro system trace move covers
    exact covers.step move

/-- Once the flag is set in the window, nothing more is applied. -/
def Leaves (finished : List Command) (system : System) (trace : List Mark) : Prop :=
  system.pc.leaving ∧ system.stopFlag ∧ applied trace = finished

theorem Leaves.step {finished : List Command} (leaves : Leaves finished system trace)
    (move : Move) :
    Leaves finished (system.step capacity move).1
      (trace ++ (system.step capacity move).2) := by
  rcases leaves with ⟨leaving, flag, same⟩
  rcases system.step_cases capacity move with rfl | rfl | pushes
  · exact ⟨leaving, rfl, by rw [applied_append, same]; exact List.append_nil _⟩
  · simp only [System.step, System.matcherStep]
    cases pc : system.pc with
    | pop didWork =>
        rw [pc] at leaving
        cases leaving
    | loadStop => exact ⟨by simp [flag, Pc.leaving], flag, by rw [List.append_nil, same]⟩
    | returned matcher => exact ⟨leaving, flag, by rw [List.append_nil, same]⟩
  · exact ⟨pushes.pc_eq ▸ leaving, pushes.flag_eq ▸ flag, by rw [pushes.applied_eq, same]⟩

theorem Leaves.runFrom {finished : List Command} (leaves : Leaves finished system trace)
    (inboxCapacity : Nat) (moves : List Move) :
    Leaves finished ((machine inboxCapacity).runFrom (system, trace) moves).1
      ((machine inboxCapacity).runFrom (system, trace) moves).2 := by
  apply (machine inboxCapacity).runFrom_invariant (Leaves finished)
  · exact leaves
  · intro system trace move leaves
    exact leaves.step move

theorem System.Pushes.stopped_not_mem (pushes : system.Pushes capacity after) :
    .stopped ∉ after.2 := by
  cases pushes <;> simp

theorem stopped_mem_step_iff (system : System) (move : Move) :
    .stopped ∈ (system.step capacity move).2 ↔ move = .stop := by
  rcases system.step_cases capacity move with rfl | rfl | pushes
  · simp [System.step]
  · simp only [System.step, System.matcherStep, reduceCtorEq, iff_false]
    cases system.pc with
    | pop didWork => cases system.inbox <;> simp [Fifo.pop]
    | loadStop => exact List.not_mem_nil
    | returned matcher => exact List.not_mem_nil
  · refine ⟨fun marked => absurd marked pushes.stopped_not_mem, ?_⟩
    intro stops
    subst stops
    exact absurd (List.mem_singleton_self _) pushes.stopped_not_mem

section Stop

variable {inboxCapacity : Nat} {earlier : List Move}

/-- The state right after the first stop of a run. -/
theorem run_stop (inboxCapacity : Nat) (earlier later : List Move) :
    (machine inboxCapacity).run (earlier ++ .stop :: later) =
      (machine inboxCapacity).runFrom
        ({ ((machine inboxCapacity).run earlier).1 with stopFlag := true },
          ((machine inboxCapacity).run earlier).2 ++ [.stopped]) later :=
  Machine.run_append _ _ _

theorem beforeStop_run (first : .stop ∉ earlier) (later : List Move) :
    beforeStop ((machine inboxCapacity).run (earlier ++ .stop :: later)).2 =
      ((machine inboxCapacity).run earlier).2 := by
  have never : Mark.stopped ∉ ((machine inboxCapacity).run earlier).2 := by
    rw [(machine inboxCapacity).mem_run_iff stopped_mem_step_iff earlier]
    exact first
  rw [run_stop]
  rcases (machine inboxCapacity).prefix_runFrom
    ({ ((machine inboxCapacity).run earlier).1 with stopFlag := true },
      ((machine inboxCapacity).run earlier).2 ++ [.stopped]) later with ⟨rest, whole⟩
  rw [← whole, List.append_assoc]
  exact Machine.before_of_not_mem never rest

/-- A stop outside the window: everything submitted before is applied. -/
theorem losesNone_of_not_window {later : List Move} {matcher : Matcher}
    (first : .stop ∉ earlier)
    (returns : ((machine inboxCapacity).run (earlier ++ .stop :: later)).1.pc = .returned matcher)
    (outside : ¬ ((machine inboxCapacity).run earlier).1.Window) :
    LosesNone matcher ((machine inboxCapacity).run (earlier ++ .stop :: later)).2 := by
  have accounts := run_accounts inboxCapacity earlier
  have atStop : Covers (submitted ((machine inboxCapacity).run earlier).2) (max inboxCapacity 8)
      { ((machine inboxCapacity).run earlier).1 with stopFlag := true }
      (((machine inboxCapacity).run earlier).2 ++ [.stopped]) := by
    refine ⟨accounts.stop, prefix_submitted _ _, ?_⟩
    intro leaving
    -- The thread cannot have returned: nobody has set the flag yet.
    have none : commands ((machine inboxCapacity).run earlier).1.inbox = [] := by
      cases pc : ((machine inboxCapacity).run earlier).1.pc with
      | pop didWork =>
          rw [pc] at leaving
          cases leaving
      | loadStop =>
          by_contra queued
          exact outside ⟨pc, queued⟩
      | returned early =>
          have stopped := accounts.flag (accounts.returned early pc).2
          rw [(machine inboxCapacity).mem_run_iff stopped_mem_step_iff] at stopped
          exact absurd stopped first
    rw [applied_append, accounts.submitted_eq, none, List.append_nil]
    exact List.prefix_append _ _
  have atEnd := atStop.runFrom later
  rw [← run_stop] at atEnd
  rcases atEnd with ⟨final, -, covered⟩
  refine ⟨?_, ?_, ?_⟩
  · rw [(final.returned matcher returns).1, final.hub, (run_matcher _).1]
    rfl
  · rw [final.submitted_eq]
    exact List.prefix_append _ _
  · rw [beforeStop_run first]
    exact covered (by rw [returns]; rfl)

/-- A stop inside the window: the commands in the inbox are lost. -/
theorem not_losesNone_of_window {later : List Move} {matcher : Matcher}
    (first : .stop ∉ earlier)
    (inside : ((machine inboxCapacity).run earlier).1.Window) :
    ¬ LosesNone matcher ((machine inboxCapacity).run (earlier ++ .stop :: later)).2 := by
  have accounts := run_accounts inboxCapacity earlier
  have atStop : Leaves (applied ((machine inboxCapacity).run earlier).2)
      { ((machine inboxCapacity).run earlier).1 with stopFlag := true }
      (((machine inboxCapacity).run earlier).2 ++ [.stopped]) := by
    refine ⟨by rw [inside.1]; rfl, rfl, ?_⟩
    rw [applied_append]
    exact List.append_nil _
  have atEnd := atStop.runFrom inboxCapacity later
  rw [← run_stop] at atEnd
  intro loses
  have covered := loses.2.2
  rw [beforeStop_run first, atEnd.2.2, accounts.submitted_eq] at covered
  have short := covered.length_le
  rw [List.length_append] at short
  exact inside.2 (List.eq_nil_of_length_eq_zero (by omega))

/-- A returned matcher has lost no command submitted before the stop flag was set if and
only if the flag was not set in the window. -/
theorem losesNone_iff (inboxCapacity : Nat) (moves : List Move) {matcher : Matcher}
    (returns : ((machine inboxCapacity).run moves).1.pc = .returned matcher) :
    LosesNone matcher ((machine inboxCapacity).run moves).2 ↔
      ∀ earlier later, moves = earlier ++ .stop :: later → .stop ∉ earlier →
        ¬ ((machine inboxCapacity).run earlier).1.Window := by
  constructor
  · intro loses earlier later split first inside
    rw [split] at loses
    exact not_losesNone_of_window first inside loses
  · intro outside
    have accounts := run_accounts inboxCapacity moves
    have stopped := accounts.flag (accounts.returned matcher returns).2
    rw [(machine inboxCapacity).mem_run_iff stopped_mem_step_iff] at stopped
    rcases List.eq_append_cons_of_mem stopped with ⟨earlier, later, rfl, first⟩
    exact losesNone_of_not_window first returns (outside earlier later rfl first)

/-- A hub that is stopped while its inbox is empty returns the sequential matcher. -/
theorem losesNone_iff_quiet :
    let command : Command := .new ⟨⟨1⟩, .buy, ⟨5⟩, .market, ⟨0⟩⟩
    let moves : List Move := [.register, .push 0, .submit ⟨1⟩ command, .push 0] ++
      List.replicate 4 .matcher ++ [.stop, .matcher]
    let run := (machine 8).run moves
    submitted (beforeStop run.2) = [command] ∧
      run.1.pc = .returned (Matcher.new.run [command]).1 ∧
      (LosesNone (Matcher.new.run [command]).1 run.2 ↔
        ∀ earlier later, moves = earlier ++ .stop :: later → .stop ∉ earlier →
          ¬ ((machine 8).run earlier).1.Window) := by
  intro command moves run
  exact ⟨by decide, by rfl, losesNone_iff 8 moves (by rfl)⟩

/-- A command that is submitted after the empty pop of an idle pass is lost if the flag is
set before the thread loads it. -/
theorem losesNone_lost_submit :
    let command : Command := .new ⟨⟨1⟩, .buy, ⟨5⟩, .market, ⟨0⟩⟩
    let moves : List Move := [.register, .push 0] ++ List.replicate 3 .matcher ++
      [.submit ⟨1⟩ command, .push 0, .stop, .matcher]
    let run := (machine 8).run moves
    run.1.pc = .returned Matcher.new ∧ submitted (beforeStop run.2) = [command] ∧
      ¬ ∃ handled, handled <+: submitted run.2 ∧ submitted (beforeStop run.2) <+: handled ∧
        Matcher.new = (Matcher.new.run handled).1 := by
  intro command moves run
  have all : submitted run.2 = [command] := by decide
  have due : submitted (beforeStop run.2) = [command] := by decide
  refine ⟨by rfl, due, ?_⟩
  intro kept
  rcases kept with ⟨handled, within, contains, same⟩
  rw [all] at within
  rw [due] at contains
  have whole : handled = [command] := within.eq_of_length_le contains.length_le
  rw [whole] at same
  have seqs : Matcher.new.peekSeq = (Matcher.new.run [command]).1.peekSeq :=
    congrArg Matcher.peekSeq same
  revert seqs
  decide

end Stop

end Hub

end Bourse
