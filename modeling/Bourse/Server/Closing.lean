import Bourse.Server.Serving

/-!
# Closing the server

`serve_until` stops to accept, waits for its handlers and then drops the hub, whose matcher
thread takes what is left in the inbox.  While neither the grace expires nor `accept` fails,
every reader that runs belongs to a handler that is waited for, so that no command is submitted
after the stop.
-/

namespace Bourse

namespace Server

/-- The reader task still takes frames. -/
def Reader.running : Reader → Bool
  | .reading | .submitting => true
  | .unspawned | .returned _ | .failed => false

variable {server : Server} {trace : List Mark} {id : ConnId} {capacity registered : Nat}

/-! ## Readers and their handlers -/

/-- Only the readers of the given connections run. -/
def RunsOnly (server : Server) (allowed : ConnId → Prop) : Prop :=
  ∀ id, (server.conns id).reader.running → allowed id

section RunsOnly

variable {allowed : ConnId → Prop}

theorem RunsOnly.update (only : server.RunsOnly allowed) (other : ConnId)
    {change : Conn → Conn}
    (keeps : (change (server.conns other)).reader.running → allowed other) :
    (server.update other change).RunsOnly allowed := by
  intro id
  by_cases mine : id = other
  · subst mine
    rw [update_conns_self]
    exact keeps
  · rw [update_conns_of_ne mine]
    exact only id

theorem RunsOnly.readerEnds (only : server.RunsOnly allowed) (id : ConnId) {reader : Reader}
    (finished : reader.finished) : (server.readerEnds capacity id reader).1.RunsOnly allowed := by
  have same : (server.hubMove capacity (.drop id)).1.RunsOnly allowed := only
  unfold Server.readerEnds
  dsimp only
  apply same.update id
  intro runs
  change reader.running = true at runs
  cases reader with
  | unspawned | returned | failed => cases runs
  | reading | submitting => cases finished

theorem RunsOnly.read (only : server.RunsOnly allowed) (id : ConnId) :
    (server.read capacity id).1.RunsOnly allowed := by
  unfold Server.read
  dsimp only
  split
  next reading =>
    split
    · split
      next command unread _ =>
        have same : (server.hubMove capacity (.submit id command)).1.RunsOnly allowed := only
        dsimp only
        apply same.update id
        exact fun _ => only id (by rw [reading]; rfl)
      · exact only.readerEnds id rfl
      · exact only.readerEnds id rfl
    · exact only
  all_goals exact only

/-- A reader starts to run when its `register` returns, and runs on when its `submit` does. -/
theorem RunsOnly.step (only : server.RunsOnly allowed)
    (registering : ∀ id, .connect id ∈ server.hub.calls → allowed id)
    (submitting : ∀ id, commandsOf id server.hub.calls ≠ [] → allowed id) (move : Move) :
    (server.step capacity move).1.RunsOnly allowed := by
  cases move with
  | accept | acceptFails | shutdown | expire | abort | abortSpawned =>
      simp only [Server.step]
      split <;> exact only
  | finish | dropHub =>
      simp only [Server.step]
      split
      · split <;> exact only
      all_goals exact only
  | register =>
      simp only [Server.step]
      split <;> exact only
  | push call =>
      have attempts := attempts_push capacity server.hub call
      have same : (server.hubMove capacity (.push call)).1.RunsOnly allowed := only
      simp only [Server.step, hubMove] at same ⊢
      generalize server.hub.step capacity (.push call) = result at attempts same ⊢
      cases attempts with
      | none => exact same
      | refused msg => exact same
      | @accepted msg inbox earlier later split =>
          simp only [List.foldl_cons, List.foldl_nil, resume]
          cases msg with
          | disconnect conn => exact same
          | connect conn =>
              apply same.update conn
              exact fun _ => registering conn (by simp [split])
          | cmd conn command =>
              apply same.update conn
              exact fun _ => submitting conn (by simp [split, commandsOf])
  | matcher =>
      simp only [Server.step]
      split
      next target event outgoing _ =>
        have same : ({ server with outgoing } : Server).RunsOnly allowed := only
        apply same.update target
        rw [(send_keeps event _).1]
        exact only target
      next => exact only
  | arrive conn bytes =>
      simp only [Server.step]
      split
      · dsimp only
        apply only.update conn
        exact only conn
      · exact only
  | close conn =>
      simp only [Server.step]
      apply only.update conn
      exact only conn
  | read conn => exact only.read conn
  | readFails conn =>
      simp only [Server.step]
      split
      · exact only.readerEnds conn rfl
      all_goals exact only
  | receive conn =>
      simp only [Server.step, receive]
      split
      · apply only.update conn
        exact only conn
      · split
        · apply only.update conn
          exact only conn
        · exact only
      all_goals exact only
  | write conn count =>
      simp only [Server.step, write]
      split
      · dsimp only
        apply only.update conn
        exact only conn
      all_goals exact only
  | writeFails conn =>
      simp only [Server.step]
      split
      · dsimp only
        apply only.update conn
        exact only conn
      all_goals exact only
  | endHandler conn =>
      simp only [Server.step]
      split
      · have same : ({ server with handlers := server.handlers.erase conn } : Server).RunsOnly
          allowed := only
        dsimp only
        apply same.update conn
        exact only conn
      · exact only

end RunsOnly

/-! ## Handlers that are waited for -/

/-- The server neither aborts nor has it lost its listener. -/
def Phase.graceful : Phase → Bool
  | .accepting | .draining false | .returned true => true
  | .draining true | .returned false => false

/-- Every reader that runs and every connection that is being registered has a handler, and
the hub is dropped after the last handler. -/
structure Tended (server : Server) : Prop where
  graceful : server.phase.graceful
  readers : server.RunsOnly (· ∈ server.handlers)
  registering : ∀ id, .connect id ∈ server.hub.calls → id ∈ server.handlers
  stopped : server.hub.stopFlag → server.phase = .returned true ∧ server.handlers = [] ∧
    server.spawned = 0

theorem Phase.graceful_aborts {phase : Phase} (graceful : phase.graceful) :
    phase.aborts = false := by
  cases phase with
  | accepting => rfl
  | draining expired => cases expired <;> first | rfl | cases graceful
  | returned ok => cases ok <;> first | rfl | cases graceful

/-- What a step does to the control of a server that does not abort. -/
structure Controls (capacity : Nat) (server : Server) (move : Move) (after : Server) : Prop where
  graceful : after.phase.graceful
  handlers : ∀ id ∈ server.handlers, id ∈ after.handlers ∨
    move = .endHandler id ∧ (server.conns id).reader.finished
  calls : ∀ id, .connect id ∈ after.hub.calls → .connect id ∈ server.hub.calls ∨
    id ∈ after.handlers
  stopped : after.hub.stopFlag → server.hub.stopFlag ∨
    after.phase = .returned true ∧ after.handlers = [] ∧ after.spawned = 0
  closed : server.phase = .returned true → server.handlers = [] → server.spawned = 0 →
    after.phase = .returned true ∧ after.handlers = [] ∧ after.spawned = 0

/-- A step that leaves the control alone. -/
theorem Controls.still {move : Move} {after : Server} (graceful : server.phase.graceful)
    (phase : after.phase = server.phase) (handlers : after.handlers = server.handlers)
    (spawned : after.spawned = server.spawned)
    (calls : ∀ id, .connect id ∈ after.hub.calls → .connect id ∈ server.hub.calls)
    (flag : after.hub.stopFlag = server.hub.stopFlag) :
    Controls capacity server move after where
  graceful := by rw [phase]; exact graceful
  handlers id member := .inl (handlers ▸ member)
  calls id member := .inl (calls id member)
  stopped set := .inl (flag ▸ set)
  closed returned none left := by rw [phase, handlers, spawned]; exact ⟨returned, none, left⟩

theorem foldl_resume_control (marks : List Hub.Mark) (server : Server) :
    (marks.foldl resume server).phase = server.phase ∧
      (marks.foldl resume server).handlers = server.handlers ∧
      (marks.foldl resume server).spawned = server.spawned := by
  induction marks generalizing server with
  | nil => exact ⟨rfl, rfl, rfl⟩
  | cons mark marks ih =>
      rw [List.foldl_cons]
      rcases ih (server.resume mark) with ⟨phase, handlers, spawned⟩
      rw [phase, handlers, spawned]
      unfold resume
      split <;> exact ⟨rfl, rfl, rfl⟩

theorem drop_flag (system : Hub.System) (conn : ConnId) :
    (system.step capacity (.drop conn)).1.stopFlag = system.stopFlag := by
  simp only [Hub.System.step]
  split <;> rfl

theorem matcherStep_flag (system : Hub.System) :
    system.matcherStep.1.stopFlag = system.stopFlag := by
  unfold Hub.System.matcherStep
  cases system.pc with
  | pop didWork => cases system.inbox <;> rfl
  | loadStop => rfl
  | returned matcher => rfl

theorem Controls.readerEnds {move : Move} (graceful : server.phase.graceful) (id : ConnId)
    (reader : Reader) :
    Controls capacity server move (server.readerEnds capacity id reader).1 := by
  apply Controls.still graceful
  · rfl
  · rfl
  · rfl
  · intro conn member
    change .connect conn ∈ (server.hub.step capacity (.drop id)).1.calls at member
    rwa [drop_calls] at member
  · exact drop_flag server.hub id

theorem Controls.read {move : Move} (graceful : server.phase.graceful) (id : ConnId) :
    Controls capacity server move (server.read capacity id).1 := by
  have still : Controls capacity server move server :=
    .still graceful rfl rfl rfl (fun _ member => member) rfl
  unfold Server.read
  dsimp only
  split
  · split
    · split
      next command unread _ =>
        apply Controls.still graceful
        · rfl
        · rfl
        · rfl
        · intro conn member
          change .connect conn ∈ (server.hub.step capacity (.submit id command)).1.calls at member
          simp only [Hub.System.step] at member
          split at member
          · simpa using member
          · exact member
        · change (server.hub.step capacity (.submit id command)).1.stopFlag = _
          simp only [Hub.System.step]
          split <;> rfl
      · exact Controls.readerEnds graceful id _
      · exact Controls.readerEnds graceful id _
    · exact still
  all_goals exact still

/-- Unless the grace expires or `accept` fails, a handler leaves when its reader is finished. -/
theorem Controls.step (graceful : server.phase.graceful) {move : Move}
    (waits : move ≠ .expire ∧ move ≠ .acceptFails) :
    Controls capacity server move (server.step capacity move).1 := by
  have still : Controls capacity server move server :=
    .still graceful rfl rfl rfl (fun _ member => member) rfl
  have kept : ∀ after : Server, after.phase = server.phase → after.handlers = server.handlers →
      after.spawned = server.spawned → after.hub = server.hub →
      Controls capacity server move after := by
    intro after phase handlers spawned hub
    exact .still graceful phase handlers spawned (fun _ member => hub ▸ member) (by rw [hub])
  cases move with
  | expire => exact absurd rfl waits.1
  | acceptFails => exact absurd rfl waits.2
  | accept =>
      simp only [Server.step]
      split
      next accepting =>
        refine ⟨graceful, fun _ member => .inl member, fun _ member => .inl member,
          fun set => .inl set, ?_⟩
        intro returned
        rw [accepting] at returned
        cases returned
      next => exact still
  | shutdown =>
      simp only [Server.step]
      split
      next accepting =>
        refine ⟨rfl, fun _ member => .inl member, fun _ member => .inl member,
          fun set => .inl set, ?_⟩
        intro returned
        rw [accepting] at returned
        cases returned
      next => exact still
  | finish =>
      simp only [Server.step]
      split
      next draining =>
        split
        next empty =>
          exact ⟨rfl, fun _ member => .inl member, fun _ member => .inl member,
            fun set => .inl set, fun _ none left => ⟨rfl, none, left⟩⟩
        next => exact still
      all_goals exact still
  | dropHub =>
      simp only [Server.step]
      split
      next ok returned =>
        split
        next empty =>
          cases ok with
          | false =>
              rw [returned] at graceful
              cases graceful
          | true =>
              exact ⟨graceful, fun _ member => .inl member, fun _ member => .inl member,
                fun _ => .inr ⟨returned, empty.2, empty.1⟩,
                fun _ none left => ⟨returned, none, left⟩⟩
        next => exact still
      all_goals exact still
  | register =>
      simp only [Server.step]
      split
      · exact still
      next spawned left =>
        refine ⟨graceful, fun _ member => .inl (List.mem_append_left _ member), ?_,
          fun set => .inl set, ?_⟩
        · intro id member
          rcases List.mem_append.mp member with before | now
          · exact .inl before
          · rw [List.mem_singleton, Msg.connect.injEq] at now
            exact .inr (List.mem_append_right _ (List.mem_singleton.mpr now))
        · intro _ _ none
          rw [left] at none
          cases none
  | push call =>
      rcases foldl_resume_control (server.hub.step capacity (.push call)).2
        (server.hubMove capacity (.push call)).1 with ⟨phase, handlers, spawned⟩
      have hub := foldl_resume_hub (server.hub.step capacity (.push call)).2
        (server.hubMove capacity (.push call)).1
      have attempts := attempts_push capacity server.hub call
      simp only [Server.step]
      simp only [hubMove] at phase handlers spawned hub ⊢
      generalize server.hub.step capacity (.push call) = result at *
      apply Controls.still graceful phase handlers spawned
      · intro id
        rw [hub]
        cases attempts with
        | none => exact fun member => member
        | refused msg => exact fun member => member
        | accepted split =>
            rw [split]
            intro member
            rcases List.mem_append.mp member with before | after
            · exact List.mem_append_left _ before
            · exact List.mem_append_right _ (List.mem_cons_of_mem _ after)
      · rw [hub]
        cases attempts <;> rfl
  | matcher =>
      simp only [Server.step]
      split
      · exact kept _ rfl rfl rfl rfl
      · apply Controls.still graceful
        · rfl
        · rfl
        · rfl
        · intro id member
          change .connect id ∈ server.hub.matcherStep.1.calls at member
          rwa [(matcherStep_calls server.hub).1] at member
        · exact matcherStep_flag server.hub
  | arrive conn bytes =>
      simp only [Server.step]
      split <;> exact kept _ rfl rfl rfl rfl
  | close conn => exact kept _ rfl rfl rfl rfl
  | read conn => exact Controls.read graceful conn
  | readFails conn =>
      simp only [Server.step]
      split
      · exact Controls.readerEnds graceful conn .failed
      all_goals exact still
  | receive conn =>
      simp only [Server.step, receive]
      split
      · exact kept _ rfl rfl rfl rfl
      · split <;> exact kept _ rfl rfl rfl rfl
      all_goals exact still
  | write conn count =>
      simp only [Server.step, write]
      split <;> exact kept _ rfl rfl rfl rfl
  | writeFails conn =>
      simp only [Server.step]
      split <;> exact kept _ rfl rfl rfl rfl
  | endHandler conn =>
      simp only [Server.step]
      split
      next ready =>
        refine ⟨graceful, ?_, fun _ member => .inl member, fun set => .inl set, ?_⟩
        · intro id member
          by_cases mine : id = conn
          · exact .inr ⟨by rw [mine], by rw [mine]; exact ready.2⟩
          · exact .inl ((List.mem_erase_of_ne mine).mpr member)
        · intro returned none left
          rw [none] at ready
          cases ready.1
      next => exact still
  | abort conn =>
      simp only [Server.step]
      split
      next ready =>
        rw [Phase.graceful_aborts graceful] at ready
        cases ready.2
      next => exact still
  | abortSpawned =>
      simp only [Server.step]
      split
      next aborts =>
        rw [Phase.graceful_aborts graceful] at aborts
        cases aborts
      next => exact still

/-- A reader that runs keeps its handler. -/
theorem Tended.step (tended : server.Tended) (serving : Serving capacity registered server trace)
    {move : Move} (waits : move ≠ .expire ∧ move ≠ .acceptFails) :
    (server.step capacity move).1.Tended := by
  have controls : Controls capacity server move (server.step capacity move).1 :=
    .step tended.graceful waits
  have submitting : ∀ id, commandsOf id server.hub.calls ≠ [] → id ∈ server.handlers := by
    intro id busy
    apply tended.readers id
    rw [Takes.submitting (serving.takes id) busy]
    rfl
  have only : (server.step capacity move).1.RunsOnly (· ∈ server.handlers) :=
    tended.readers.step tended.registering submitting move
  have alive : (server.step capacity move).1.RunsOnly
      fun id => (server.conns id).reader.finished = false := by
    apply RunsOnly.step
    · intro id runs
      cases reader : (server.conns id).reader with
      | reading | submitting => rfl
      | unspawned | returned | failed =>
          rw [reader] at runs
          cases runs
    · intro id called
      rw [(Takes.unspawned (serving.takes id) (serving.fresh called)).1]
      rfl
    · intro id busy
      rw [Takes.submitting (serving.takes id) busy]
      rfl
  refine ⟨controls.graceful, ?_, ?_, ?_⟩
  · intro id runs
    rcases controls.handlers id (only id runs) with kept | ⟨rfl, finished⟩
    · exact kept
    · rw [alive id runs] at finished
      cases finished
  · intro id member
    rcases controls.calls id member with before | now
    · rcases controls.handlers id (tended.registering id before) with kept | ⟨_, finished⟩
      · exact kept
      · rw [(Takes.unspawned (serving.takes id) (serving.fresh before)).1] at finished
        cases finished
    · exact now
  · intro set
    rcases controls.stopped set with before | now
    · rcases tended.stopped before with ⟨returned, none, left⟩
      exact controls.closed returned none left
    · exact now

/-- No call is in progress once the hub of a tended server is dropped. -/
theorem Tended.no_calls (tended : server.Tended)
    (serving : Serving capacity registered server trace) (stopped : server.hub.stopFlag) :
    server.hub.calls = [] := by
  have none := (tended.stopped stopped).2.1
  apply List.eq_nil_iff_forall_not_mem.mpr
  intro msg member
  cases msg with
  | connect id =>
      have handler := tended.registering id member
      rw [none] at handler
      cases handler
  | disconnect id =>
      rcases serving.lives.stages id with ⟨stage, staged⟩
      exact staged.plain member
  | cmd id command =>
      have busy : commandsOf id server.hub.calls ≠ [] :=
        List.ne_nil_of_mem (List.mem_filterMap.mpr ⟨_, member, if_pos rfl⟩)
      have handler := tended.readers id (by rw [Takes.submitting (serving.takes id) busy]; rfl)
      rw [none] at handler
      cases handler

/-- A tended server whose hub was dropped outside the window leaves no command in the inbox. -/
structure Settles (server : Server) : Prop where
  tended : server.Tended
  stopped : server.hub.stopFlag
  emptied : server.hub.pc.leaving → Hub.commands server.hub.inbox = []

/-- Only the matcher thread moves in the hub of a settled server. -/
theorem Settles.step_hub (settles : server.Settles)
    (serving : Serving capacity registered server trace) (move : Move) :
    (server.step capacity move).1.hub = server.hub ∨
      (server.step capacity move).1.hub = { server.hub with stopFlag := true } ∨
      (server.step capacity move).1.hub = server.hub.matcherStep.1 := by
  rcases settles.tended.stopped settles.stopped with ⟨_, none, left⟩
  have idle : ∀ id, (server.conns id).reader ≠ .reading := by
    intro id reading
    have handler := settles.tended.readers id (by rw [reading]; rfl)
    rw [none] at handler
    cases handler
  cases move with
  | accept | acceptFails | shutdown | expire | arrive | abort | abortSpawned | endHandler =>
      left
      simp only [Server.step]
      split <;> rfl
  | finish =>
      left
      simp only [Server.step]
      split
      · split <;> rfl
      all_goals rfl
  | dropHub =>
      simp only [Server.step]
      split
      · split
        · exact .inr (.inl rfl)
        · exact .inl rfl
      all_goals exact .inl rfl
  | register => exact .inl (by simp only [Server.step, left])
  | push call =>
      left
      have calls := settles.tended.no_calls serving settles.stopped
      have nothing : server.hub.step capacity (.push call) = (server.hub, []) := by
        simp only [Hub.System.step, Hub.System.push, calls, List.getElem?_nil]
      simp only [Server.step, hubMove, nothing, List.foldl_nil]
  | matcher =>
      simp only [Server.step]
      split
      · exact .inl rfl
      · exact .inr (.inr rfl)
  | close => exact .inl rfl
  | read conn =>
      left
      simp only [Server.step, Server.read]
      split
      next reading => exact absurd reading (idle conn)
      all_goals rfl
  | readFails conn =>
      left
      simp only [Server.step]
      split
      next reading => exact absurd reading (idle conn)
      all_goals rfl
  | receive conn =>
      left
      simp only [Server.step, receive]
      split
      · rfl
      · split <;> rfl
      all_goals rfl
  | write conn count =>
      left
      simp only [Server.step, write]
      split <;> rfl
  | writeFails conn =>
      left
      simp only [Server.step]
      split <;> rfl

/-- The matcher thread leaves an inbox that it found empty. -/
theorem matcherStep_emptied {system : Hub.System}
    (emptied : system.pc.leaving → Hub.commands system.inbox = []) :
    system.matcherStep.1.pc.leaving → Hub.commands system.matcherStep.1.inbox = [] := by
  unfold Hub.System.matcherStep
  cases pc : system.pc with
  | pop didWork =>
      cases system.inbox with
      | nil => exact fun _ => rfl
      | cons msg rest => exact fun impossible => (by cases impossible)
  | loadStop => exact fun _ => emptied (by rw [pc]; rfl)
  | returned matcher => exact emptied

theorem Settles.step (settles : server.Settles)
    (serving : Serving capacity registered server trace) {move : Move}
    (waits : move ≠ .expire ∧ move ≠ .acceptFails) :
    (server.step capacity move).1.Settles := by
  refine ⟨settles.tended.step serving waits, ?_, ?_⟩
  · rcases settles.step_hub serving move with same | stops | steps
    · rw [same]
      exact settles.stopped
    · rw [stops]
    · rw [steps, matcherStep_flag]
      exact settles.stopped
  · rcases settles.step_hub serving move with same | stops | steps
    · rw [same]
      exact settles.emptied
    · rw [stops]
      exact settles.emptied
    · rw [steps]
      exact matcherStep_emptied settles.emptied

/-- Only `dropHub` stops the hub, and it does nothing else to it. -/
theorem step_stops {move : Move} (running : ¬ server.hub.stopFlag)
    (stops : (server.step capacity move).1.hub.stopFlag) :
    move = .dropHub ∧
      (server.step capacity move).1.hub = { server.hub with stopFlag := true } := by
  have hub := Server.step_hub capacity server move
  generalize server.step capacity move = result at hub stops ⊢
  cases hub with
  | @moved after marks hubMove hub left registers drops =>
      change after.hub.stopFlag = true at stops
      rw [hub] at stops
      rcases server.hub.step_cases capacity hubMove with rfl | rfl | pushes
      · exact ⟨drops rfl, hub⟩
      · change server.hub.matcherStep.1.stopFlag = true at stops
        rw [matcherStep_flag] at stops
        exact absurd stops running
      · rw [pushes.flag_eq] at stops
        exact absurd stops running
  | @still after marks hub left =>
      change after.hub.stopFlag = true at stops
      rw [hub] at stops
      exact absurd stops running

/-! ## Whole runs -/

/-- Neither does the grace expire nor does `accept` fail. -/
def Graceful (moves : List Move) : Prop := ∀ move ∈ moves, move ≠ .expire ∧ move ≠ .acceptFails

/-- Whenever the hub is dropped, the matcher thread is not between finding the inbox empty and
loading the stop flag while a command is in the inbox. -/
def DropsOutsideWindow (inboxCapacity : Nat) (moves : List Move) : Prop :=
  ∀ earlier later, moves = earlier ++ .dropHub :: later →
    ¬ ((machine inboxCapacity).run earlier).1.hub.Window

/-- The step that drops the hub settles the server. -/
theorem Tended.settles (tended : server.Tended)
    (serving : Serving capacity registered server trace) {move : Move}
    (waits : move ≠ .expire ∧ move ≠ .acceptFails)
    (running : ¬ server.hub.stopFlag) (clear : move = .dropHub → ¬ server.hub.Window)
    (stops : (server.step capacity move).1.hub.stopFlag) :
    (server.step capacity move).1.Settles := by
  have drops := step_stops running stops
  refine ⟨tended.step serving waits, stops, ?_⟩
  rw [drops.2]
  intro leaving
  change server.hub.pc.leaving = true at leaving
  change Hub.commands server.hub.inbox = []
  cases pc : server.hub.pc with
  | pop didWork =>
      rw [pc] at leaving
      cases leaving
  | loadStop => exact not_not.mp fun left => clear drops.1 ⟨pc, left⟩
  | returned matcher => exact absurd (serving.accounts.returned matcher pc).2 running

theorem run_settles (inboxCapacity : Nat) {moves : List Move}
    (few : moves.count .register < 2 ^ 64) (graceful : Graceful moves)
    (clear : DropsOutsideWindow inboxCapacity moves) :
    ((machine inboxCapacity).run moves).1.Tended ∧
      (((machine inboxCapacity).run moves).1.hub.stopFlag →
        ((machine inboxCapacity).run moves).1.Settles) := by
  induction moves using List.reverseRecOn with
  | nil =>
      refine ⟨⟨rfl, ?_, ?_, ?_⟩, ?_⟩
      · exact fun _ runs => (by cases runs)
      · exact fun _ member => (by cases member)
      · exact fun set => (by cases set)
      · exact fun set => (by cases set)
  | append_singleton moves move ih =>
      rw [List.count_append] at few
      have fewer := Nat.lt_of_le_of_lt (Nat.le_add_right _ _) few
      have waits := graceful move (List.mem_append_right _ (List.mem_singleton_self move))
      rcases run_serving inboxCapacity fewer with ⟨registered, _, serving⟩
      have clearer : DropsOutsideWindow inboxCapacity moves := by
        intro earlier later split
        exact clear earlier (later ++ [move]) (by rw [split]; simp)
      rcases ih fewer (fun earlier member => graceful earlier (List.mem_append_left _ member))
        clearer with ⟨tended, settles⟩
      rw [Machine.run_append]
      refine ⟨tended.step serving waits, ?_⟩
      intro stops
      by_cases stopped : ((machine inboxCapacity).run moves).1.hub.stopFlag = true
      · exact (settles stopped).step serving waits
      · exact tended.settles serving waits stopped
          (fun drops => clear moves [] (by rw [drops])) stops

theorem commandsOf_eq_nil (id : ConnId) {msgs : List Msg} (none : Hub.commands msgs = []) :
    commandsOf id msgs = [] := by
  apply List.filterMap_eq_nil_iff.mpr
  intro msg member
  cases msg with
  | connect conn | disconnect conn => rfl
  | cmd conn command => cases List.filterMap_eq_nil_iff.mp none _ member

/-- A graceful shutdown loses nothing. If the grace does not expire and the hub is not dropped
in the window, the matcher that is returned has applied every command of every whole frame that
the clients sent, unless their socket failed. -/
theorem run_closes (inboxCapacity : Nat) {moves : List Move}
    (few : moves.count .register < 2 ^ 64) (graceful : Graceful moves)
    (clear : DropsOutsideWindow inboxCapacity moves) {matcher : Matcher}
    (returned : ((machine inboxCapacity).run moves).1.hub.pc = .returned matcher) :
    let server := ((machine inboxCapacity).run moves).1
    let trace := ((machine inboxCapacity).run moves).2
    matcher = (Matcher.new.run (Hub.commands (pushed trace))).1 ∧
    ∀ id, (server.conns id).reader ≠ .failed →
      commandsOf id (handled trace) = (Protocol.readerLoop (arrived id trace)).1 := by
  intro server trace
  rcases run_serving inboxCapacity few with ⟨registered, _, serving⟩
  rcases serving.accounts.returned matcher returned with ⟨last, stopped⟩
  have settles := (run_settles inboxCapacity few graceful clear).2 stopped
  have empty : Hub.commands server.hub.inbox = [] := settles.emptied (by rw [returned]; rfl)
  have all : pushed trace = handled trace ++ server.hub.inbox := serving.accounts.inbox.accounts
  constructor
  · rw [last, serving.accounts.hub, (Hub.run_matcher _).1, all, Hub.commands_append, empty,
      List.append_nil]
    rfl
  · intro id working
    have none := commandsOf_eq_nil id empty
    have same : commandsOf id (handled trace) = commandsOf id (pushed trace) := by
      rw [all, commandsOf_append, none, List.append_nil]
    rw [same]
    apply Takes.rest (serving.takes id)
    · rw [settles.tended.no_calls serving stopped]
      rfl
    · intro reading
      have handler := settles.tended.readers id (by rw [reading]; rfl)
      rw [(settles.tended.stopped stopped).2.1] at handler
      cases handler
    · exact working

/-- A client sends an order and disconnects, and the server is shut down before the matcher thread
has seen the order. -/
theorem run_closes_one_order :
    let order : NewOrder := ⟨.new 7, .sell, .new 5, .limit (.fromRaw 100), .fromNanos 0⟩
    let before : List Move := [.accept, .register, .push 0,
      .arrive ⟨1⟩ (Protocol.encodeClient (.newOrder order) []), .read ⟨1⟩, .push 0, .close ⟨1⟩,
      .read ⟨1⟩, .endHandler ⟨1⟩, .shutdown, .finish]
    let moves := before ++ .dropHub :: List.replicate 7 .matcher
    Hub.commands (pushed ((machine 0).run moves).2) = [.new order] ∧
      ∃ matcher, ((machine 0).run moves).1.hub.pc = .returned matcher ∧
        matcher = (Matcher.new.run (Hub.commands (pushed ((machine 0).run moves).2))).1 := by
  intro order before moves
  have few : moves.count .register < 2 ^ 64 := by decide
  have graceful : Graceful moves := by
    intro move member
    revert move
    decide
  have outside : ((machine 0).run before).1.hub.pc.leaving = false := by decide +kernel
  have clear : DropsOutsideWindow 0 moves := by
    intro earlier later split
    rcases (List.append_cons_inj_of_notMem (by decide) (by decide)).mp split with ⟨rfl, -, -⟩
    intro window
    rw [window.1] at outside
    cases outside
  have gone : matcherGone ((machine 0).run moves).1.hub.pc = true := by decide +kernel
  refine ⟨by decide +kernel, ?_⟩
  cases pc : ((machine 0).run moves).1.hub.pc with
  | returned matcher => exact ⟨matcher, rfl, (run_closes 0 few graceful clear pc).1⟩
  | pop didWork =>
      rw [pc] at gone
      cases gone
  | loadStop =>
      rw [pc] at gone
      cases gone

end Server

end Bourse
