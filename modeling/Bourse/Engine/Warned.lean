import Bourse.Engine.Stop
import Bourse.Engine.Weak
import Mathlib.Data.List.Induction

/-!
# What the stop flag tells

The store of the flag releases what its thread knows, so a matcher thread that has loaded the
flag as set has also seen every push that the owner knew of, and the last drain cannot miss one
of them, however old the values are that it loads.
-/

namespace Bourse

namespace Engine

namespace Weak

section Invariant

variable {τ : Type} {w : Nat} [DecidableEq τ] [Fintype τ] {roles : Roles τ}
  {commandCapacity eventCapacity : BitVec w} {state : State τ w} {trace : List Mark}

/-! ## The stop flag -/

/-- Whoever reads the flag as set learns of the first `known` pushes, and the thread leaves only
after it has read it so. -/
structure Warned (roles : Roles τ) (known : Nat) (state : State τ w) : Prop where
  unset : (state.memory.messages .stopFlag 0).value = 0#w
  flags : ∀ count ≤ state.memory.latest .stopFlag, 0 < count →
    known ≤ (state.memory.messages .stopFlag count).view.seen .commandTail
  leaving : state.pc.leaving → known ≤ (state.memory.views roles.matcher).seen .commandTail
  returned : ∀ matcher, state.pc = .returned matcher → known ≤ state.memory.latest .commandHead

variable {known : Nat}

omit [DecidableEq τ] [Fintype τ] in
/-- The memory changes elsewhere, and the matcher thread jumps. -/
theorem Warned.frame (warned : Warned roles known state) {next : State τ w}
    (grows : state.memory.Grows next.memory)
    (latest : next.memory.latest .stopFlag = state.memory.latest .stopFlag)
    (leaving : next.pc.leaving →
      known ≤ (next.memory.views roles.matcher).seen .commandTail)
    (returned : ∀ matcher, next.pc = .returned matcher →
      known ≤ next.memory.latest .commandHead) :
    Warned roles known next where
  unset := by
    rw [grows.messages _ _ (Nat.zero_le _)]
    exact warned.unset
  flags count older set := by
    rw [latest] at older
    rw [grows.messages _ _ older]
    exact warned.flags count older set
  leaving := leaving
  returned := returned

omit [DecidableEq τ] [Fintype τ] in
/-- The memory changes elsewhere. -/
theorem Warned.elsewhere (warned : Warned roles known state) {next : State τ w}
    (grows : state.memory.Grows next.memory)
    (latest : next.memory.latest .stopFlag = state.memory.latest .stopFlag)
    (pc : next.pc = state.pc) : Warned roles known next := by
  apply warned.frame grows latest
  · intro leaving
    rw [pc] at leaving
    exact Nat.le_trans (warned.leaving leaving) ((grows.views _).seen _)
  · intro matcher returned
    rw [pc] at returned
    exact Nat.le_trans (warned.returned matcher returned) (grows.latest _)

/-- The owner sets the flag when it knows of the pushes. -/
theorem Warned.stop (warned : Warned roles known state) (consistent : state.memory.Consistent)
    (owner : known ≤ (state.memory.views roles.owner).seen .commandTail) :
    Warned roles known (step roles state .stop).1 := by
  have grows := consistent.store_grows roles.owner .stopFlag .release 1#w
  refine ⟨?_, ?_, ?_, ?_⟩
  · exact (congrArg Message.value (grows.messages .stopFlag 0 (Nat.zero_le _))).trans warned.unset
  · intro count older set
    simp only [step, WeakMemory.store_latest_self] at older ⊢
    rcases Nat.lt_or_ge (state.memory.latest .stopFlag) count with newest | old
    · have last : count = state.memory.latest .stopFlag + 1 := Nat.le_antisymm older newest
      rw [last, WeakMemory.store_release_view]
      exact Nat.le_trans owner ((grows.views _).seen _)
    · rw [WeakMemory.store_messages_of_le _ _ _ _ old]
      exact warned.flags count old set
  · intro leaving
    exact Nat.le_trans (warned.leaving leaving) ((grows.views _).seen _)
  · intro matcher returned
    exact Nat.le_trans (warned.returned matcher returned) (grows.latest _)

/-- The last poll finds nothing only after all pushes that the thread knows of were popped. -/
theorem Warned.poll (warned : Warned roles known state)
    (queues : Queues roles commandCapacity eventCapacity state trace) {last : Bool}
    (pc : state.pc = .poll last) (pick : Nat) :
    Warned roles known (matcherStep roles state pick).1 := by
  rcases queues.commands with ⟨queue, carries⟩
  have follows := carries.sound.popStep pick
  have elsewhere := state.commands.popStep_elsewhere roles.commands state.memory pick
  have latest := elsewhere.latest .stopFlag (by intro impossible; cases impossible)
    (by intro impossible; cases impossible)
  have known_of_leaving : last = true →
      known ≤ (state.memory.views roles.matcher).seen .commandTail :=
    fun leaving => warned.leaving (by rw [pc]; exact leaving)
  rcases follows.returns with ⟨after, -, returns⟩
  have grows := follows.grows
  simp only [matcherStep, pc, State.onCommands]
  generalize state.commands.popStep roles.commands state.memory pick = stepped at *
  split
  next command taken =>
    apply warned.frame grows latest
    · intro leaving
      exact Nat.le_trans (known_of_leaving leaving) ((grows.views _).seen _)
    · intro matcher impossible
      cases impossible
  next empty =>
    rw [empty] at returns
    have caughtUp : (state.memory.views roles.matcher).seen .commandTail ≤
      state.memory.latest .commandHead := returns.2
    apply warned.frame grows latest
    · intro leaving
      cases last with
      | true => exact Nat.le_trans (known_of_leaving rfl) ((grows.views _).seen _)
      | false => cases leaving
    · intro matcher returned
      cases last with
      | true =>
          exact Nat.le_trans (Nat.le_trans (known_of_leaving rfl) caughtUp) (grows.latest _)
      | false => cases returned
  next => exact warned.elsewhere grows latest pc.symm

/-- The thread starts to leave only after it has read a message that sets the flag. -/
theorem Warned.loadStop (warned : Warned roles known state)
    (consistent : state.memory.Consistent) (pc : state.pc = .loadStop) (pick : Nat) :
    Warned roles known (matcherStep roles state pick).1 := by
  have grows := consistent.load_grows roles.matcher .stopFlag .acquire pick
  have current := state.memory.position_le_latest roles.matcher .stopFlag pick
  have learned : (state.memory.messages .stopFlag
      (state.memory.position roles.matcher .stopFlag pick)).view.Within
      ((state.memory.load roles.matcher .stopFlag .acquire pick).1.views roles.matcher) :=
    WeakMemory.within_load_acquire _ _ _
  simp only [matcherStep, pc]
  refine warned.frame grows rfl ?_ ?_
  · intro leaving
    have set : 0 < state.memory.position roles.matcher .stopFlag pick := by
      by_contra unread
      have first : state.memory.position roles.matcher .stopFlag pick = 0 := by omega
      have flag : flagged (state.memory.messages .stopFlag
          (state.memory.position roles.matcher .stopFlag pick)).value = true := leaving
      rw [first, warned.unset] at flag
      simp [flagged] at flag
    exact Nat.le_trans (warned.flags _ current set) (learned.seen _)
  · intro matcher impossible
    cases impossible

theorem Warned.matcherStep (warned : Warned roles known state)
    (queues : Queues roles commandCapacity eventCapacity state trace) (pick : Nat) :
    Warned roles known (matcherStep roles state pick).1 := by
  cases pc : state.pc with
  | poll last => exact warned.poll queues pc pick
  | process last command =>
      have leaving := warned.leaving
      rw [pc] at leaving
      simp only [Weak.matcherStep, pc]
      exact ⟨warned.unset, warned.flags, leaving, fun _ impossible => (by cases impossible)⟩
  | publish last =>
      have leaving := warned.leaving
      rw [pc] at leaving
      cases buffer : state.events with
      | nil =>
          simp only [Weak.matcherStep, pc, buffer]
          exact ⟨warned.unset, warned.flags, leaving, fun _ impossible => (by cases impossible)⟩
      | cons event events =>
          rcases queues.eventsOut with ⟨queue, carries⟩
          have grows := (carries.sound.pushStep event pick).grows
          have elsewhere := state.eventsOut.pushStep_elsewhere roles.eventsOut state.memory
            event pick
          have latest := elsewhere.latest .stopFlag (by intro impossible; cases impossible)
            (by intro impossible; cases impossible)
          simp only [Weak.matcherStep, pc, buffer, State.onEvents]
          generalize state.eventsOut.pushStep roles.eventsOut state.memory event pick =
            stepped at *
          split
          next => exact warned.elsewhere grows latest pc.symm
          next => exact warned.elsewhere grows latest pc.symm
  | loadStop => exact warned.loadStop queues.consistent pc pick
  | returned matcher =>
      simp only [Weak.matcherStep, pc]
      exact warned

/-- Until the flag is set, every move keeps what the flag would say. -/
theorem Warned.step (warned : Warned roles known state)
    (queues : Queues roles commandCapacity eventCapacity state trace) {move : Move}
    (running : move ≠ .stop) : Warned roles known (step roles state move).1 := by
  cases move with
  | tryPush command pick =>
      rcases queues.commands with ⟨queue, carries⟩
      exact warned.elsewhere (carries.sound.pushStep command pick).grows
        ((state.commands.pushStep_elsewhere roles.commands state.memory command pick).latest _
          (by intro impossible; cases impossible) (by intro impossible; cases impossible)) rfl
  | tryPop pick =>
      rcases queues.eventsOut with ⟨queue, carries⟩
      exact warned.elsewhere (carries.sound.popStep pick).grows
        ((state.eventsOut.popStep_elsewhere roles.eventsOut state.memory pick).latest _
          (by intro impossible; cases impossible) (by intro impossible; cases impossible)) rfl
  | stop => exact absurd rfl running
  | matcher pick => exact warned.matcherStep queues pick

/-! ## Whole runs -/

theorem Sequential.step (sequential : Sequential state trace)
    (queues : Queues roles commandCapacity eventCapacity state trace) (move : Move) :
    Sequential (step roles state move).1 (trace ++ (step roles state move).2) := by
  cases move with
  | tryPush command pick => exact sequential.tryPush command pick
  | tryPop pick => exact sequential.tryPop pick
  | stop =>
      simp only [Weak.step, List.append_nil]
      exact { sequential with }
  | matcher pick => exact sequential.matcherStep queues pick

variable {commandMinimum eventMinimum : BitVec w}

theorem run_kept (roles : Roles τ)
    (commandDivides : (Spsc.channelCapacity commandMinimum).toNat ∣ 2 ^ w)
    (eventDivides : (Spsc.channelCapacity eventMinimum).toNat ∣ 2 ^ w) (moves : List Move) :
    let run := (machine roles commandMinimum eventMinimum).run moves
    Queues roles (Spsc.channelCapacity commandMinimum) (Spsc.channelCapacity eventMinimum)
      run.1 run.2 ∧ Sequential run.1 run.2 := by
  apply (machine roles commandMinimum eventMinimum).run_invariant fun state trace =>
    Queues roles (Spsc.channelCapacity commandMinimum) (Spsc.channelCapacity eventMinimum)
      state trace ∧ Sequential state trace
  · refine ⟨⟨⟨[], .start _ commandDivides rfl rfl⟩, ⟨[], .start _ eventDivides rfl rfl⟩,
      fun _ impossible => (by cases impossible)⟩, ⟨rfl, rfl, rfl, fun _ => rfl, ?_, ?_⟩⟩
    · intro event impossible
      cases impossible
    · intro matcher impossible
      cases impossible
  · intro state trace move kept
    exact ⟨kept.1.step move, kept.2.step kept.1 move⟩

/-- Before the flag is set, it would say anything. -/
theorem run_unset (roles : Roles τ)
    (commandDivides : (Spsc.channelCapacity commandMinimum).toNat ∣ 2 ^ w)
    (eventDivides : (Spsc.channelCapacity eventMinimum).toNat ∣ 2 ^ w) {moves : List Move}
    (running : .stop ∉ moves) (known : Nat) :
    Warned roles known ((machine roles commandMinimum eventMinimum).run moves).1 := by
  induction moves using List.reverseRecOn with
  | nil =>
      refine ⟨rfl, ?_, fun impossible => (by cases impossible),
        fun _ impossible => (by cases impossible)⟩
      intro count first set
      exact absurd first (Nat.not_le_of_lt set)
  | append_singleton moves move ih =>
      rw [List.mem_append, not_or] at running
      rw [Machine.run_append]
      apply (ih running.1).step (run_kept roles commandDivides eventDivides moves).1
      intro same
      exact running.2 (by rw [same]; exact List.mem_singleton_self _)

/-- After the owner has set the flag, it tells of every push that the owner knew of. -/
theorem run_warned (roles : Roles τ)
    (commandDivides : (Spsc.channelCapacity commandMinimum).toNat ∣ 2 ^ w)
    (eventDivides : (Spsc.channelCapacity eventMinimum).toNat ∣ 2 ^ w) {earlier : List Move}
    (running : .stop ∉ earlier) (later : List Move) :
    let before := ((machine roles commandMinimum eventMinimum).run earlier).1
    let known := (before.memory.views roles.owner).seen .commandTail
    let after := ((machine roles commandMinimum eventMinimum).run
      (earlier ++ .stop :: later)).1
    Warned roles known after ∧ known ≤ (after.memory.views roles.owner).seen .commandTail := by
  intro before known after
  induction later using List.reverseRecOn with
  | nil =>
      have consistent := (run_kept roles commandDivides eventDivides earlier).1.consistent
      have unset := run_unset roles commandDivides eventDivides running known
      simp only [after, Machine.run_append]
      exact ⟨unset.stop consistent (Nat.le_refl _),
        ((consistent.store_grows roles.owner .stopFlag .release 1#w).views _).seen _⟩
  | append_singleton later move ih =>
      rcases ih with ⟨warned, owner⟩
      have queues := (run_kept roles commandDivides eventDivides (earlier ++ .stop :: later)).1
      have grows := queues.step_grows move
      simp only [after, ← List.cons_append, ← List.append_assoc,
        Machine.run_append _ (earlier ++ .stop :: later)]
      refine ⟨?_, Nat.le_trans owner ((grows.views _).seen _)⟩
      by_cases stops : move = .stop
      · rw [stops]
        exact warned.stop queues.consistent owner
      · exact warned.step queues stops

/-- Whoever holds the two halves and stops the engine, and whatever values the loads return: no
access races, the events popped are those of a fresh matcher on the commands handled, which are
the first of those pushed, and the thread returns only after the stop, with a matcher that has
handled every command that the owner knew to be pushed when it set the flag. -/
theorem run_flagged (roles : Roles τ)
    (commandDivides : (Spsc.channelCapacity commandMinimum).toNat ∣ 2 ^ w)
    (eventDivides : (Spsc.channelCapacity eventMinimum).toNat ∣ 2 ^ w) (moves : List Move) :
    let engine := machine roles commandMinimum eventMinimum
    let state := (engine.run moves).1
    let trace := (engine.run moves).2
    (∀ raced, .access raced ∈ trace → raced = false) ∧
      popped trace <+: (Matcher.new.run (processed trace)).2.map some ∧
      (processed trace).map some <+: pushed trace ∧
      ∀ matcher, state.pc = .returned matcher →
        matcher = (Matcher.new.run (processed trace)).1 ∧ .stop ∈ moves ∧
        ∀ earlier later, moves = earlier ++ .stop :: later → .stop ∉ earlier →
          let before := engine.run earlier
          let known := (before.1.memory.views roles.owner).seen .commandTail
          known ≤ (processed trace).length ∧
            (roles.owner = roles.gateway → known = (pushed before.2).length) := by
  intro engine state trace
  rcases run_kept roles commandDivides eventDivides moves with ⟨queues, sequential⟩
  rcases queues.commands with ⟨commands, onCommands⟩
  rcases queues.eventsOut with ⟨events, onEvents⟩
  have taken := sequential.taken
  refine ⟨queues.safe, ?_, ?_, ?_⟩
  · have accounts : Fifo.accepted (eventOutcomes trace) = popped trace ++ events :=
      onEvents.accounts
    have emitted : Fifo.accepted (eventOutcomes trace) ++ state.events.map some =
      (Matcher.new.run (processed trace)).2.map some := sequential.emitted
    rw [← emitted, accounts, List.append_assoc]
    exact List.prefix_append _ _
  · have accounts : pushed trace = Fifo.popped (commandOutcomes trace) ++ commands :=
      onCommands.accounts
    rw [accounts, taken, List.map_append, List.append_assoc]
    exact List.prefix_append _ _
  · intro matcher returned
    have hand : state.pc.inHand = [] := by rw [returned]; rfl
    have handled : state.memory.latest .commandHead = (processed trace).length := by
      refine onCommands.taken.trans ?_
      rw [taken, List.length_map, hand, List.append_nil]
    refine ⟨(sequential.result matcher returned).trans sequential.matcher, ?_, ?_⟩
    · by_contra running
      have unset := run_unset roles commandDivides eventDivides running
        ((processed trace).length + 1)
      have impossible := unset.returned matcher returned
      exact absurd (Nat.le_trans impossible handled.le) (Nat.not_succ_le_self _)
    · intro earlier later split running before known
      subst split
      have warned := (run_warned roles commandDivides eventDivides running later).1
      refine ⟨Nat.le_trans (warned.returned matcher returned) handled.le, ?_⟩
      intro together
      rcases (run_kept roles commandDivides eventDivides earlier).1.commands with ⟨queue, first⟩
      have seen := first.sound.seen_tail
      have published := first.length_accepted
      refine Eq.trans ?_ published.symm
      simp only [known, together]
      exact seen

end Invariant

theorem returned_of_rank {pc : Pc} (ended : pc.rank = 0) : ∃ matcher, pc = .returned matcher := by
  cases pc with
  | poll last => cases last <;> cases ended
  | process last command => cases ended
  | publish last => cases ended
  | loadStop => cases ended
  | returned matcher => exact ⟨matcher, rfl⟩

/-- One thread holds both halves and stops the engine. The order comes in after the matcher
found the queue empty and before it sees the flag. -/
theorem run_flagged_raced :
    let roles : Roles Bool := ⟨false, false, false, true, by decide, by decide⟩
    let order : Command := .new ⟨.new 1, .buy, .new 5, .market, .fromNanos 0⟩
    let earlier : List Move := [.matcher 0, .matcher 0] ++ List.replicate 3 (.tryPush order 0)
    let later : List Move := .matcher 1 :: List.replicate 14 (.matcher 0)
    let run := (machine roles 2#3 2#3).run (earlier ++ .stop :: later)
    (∃ matcher, run.1.pc = .returned matcher) ∧ 1 ≤ (processed run.2).length := by
  intro roles order earlier later run
  have divides : (Spsc.channelCapacity 2#3).toNat ∣ 2 ^ 3 := by decide
  have ordered := run_flagged roles divides divides (earlier ++ .stop :: later)
  have seen : (((machine roles 2#3 2#3).run earlier).1.memory.views roles.owner).seen
    .commandTail = 1 := by decide +kernel
  rcases returned_of_rank (show run.1.pc.rank = 0 by decide +kernel) with ⟨matcher, returned⟩
  have handled :=
    ((ordered.2.2.2 matcher returned).2.2 earlier later rfl (by decide +kernel)).1
  exact ⟨⟨matcher, returned⟩, seen ▸ handled⟩

end Weak

end Engine

end Bourse
