import Bourse.Server.Reading

/-!
# From the matcher to the socket

What was written to the socket of a connection, what `write_all` has still to write, and the
frames of what is in the channel and of what the matcher thread has still to send, are the
frames of the events that the hub sent to the connection.
-/

namespace Bourse

namespace Server

/-- The events among the sends that go to a connection. -/
def eventsTo (id : ConnId) : List (ConnId × Event) → List Event :=
  List.filterMap fun outgoing => if outgoing.1 = id then some outgoing.2 else none

/-- The events that the hub sends to a connection when it handles the messages. -/
def eventsFor (id : ConnId) (msgs : List Msg) : List Event :=
  eventsTo id (sendsOf (Hub.run msgs).2)

@[simp] theorem eventsTo_append (id : ConnId) (sends more : List (ConnId × Event)) :
    eventsTo id (sends ++ more) = eventsTo id sends ++ eventsTo id more :=
  List.filterMap_append

theorem eventsFor_concat (id : ConnId) (msgs : List Msg) (msg : Msg) :
    eventsFor id (msgs ++ [msg]) =
      eventsFor id msgs ++ eventsTo id (sendsOf ((Hub.run msgs).1.handle msg).2) := by
  simp only [eventsFor, Hub.run_concat, sendsOf, List.flatMap_append, eventsTo_append]

theorem writerLoop_append (events more : List Event) :
    Protocol.writerLoop (events ++ more) =
      Protocol.writerLoop events ++ Protocol.writerLoop more := by
  simp only [Protocol.writerLoop_eq, List.map_append,
    Protocol.encodeAll_eq_frames Protocol.encodeServer_eq, Framing.frames, List.flatMap_append]

theorem writerLoop_cons (event : Event) (events : List Event) :
    Protocol.writerLoop (event :: events) =
      Protocol.encodeServer (.execution event) [] ++ Protocol.writerLoop events := by
  rw [← List.singleton_append, writerLoop_append]
  rfl

/-! ## The writer of a connection -/

/-- What the writer knows: `events` went to the connection, of which the matcher thread has
still to send the last ones, `pending`. -/
def Gives (conn : Conn) (pending events : List Event) (written : Bytes) : Prop :=
  match conn.writer with
  | .unspawned | .receiving =>
      written ++ Protocol.writerLoop (conn.events ++ pending) = Protocol.writerLoop events
  | .writing buf =>
      written ++ (buf ++ Protocol.writerLoop (conn.events ++ pending)) =
        Protocol.writerLoop events
  | .ended => written <+: Protocol.writerLoop events

/-- What the writer of a connection of the server knows. -/
def GivesAt (server : Server) (trace : List Mark) (id : ConnId) : Prop :=
  Gives (server.conns id) (eventsTo id server.outgoing) (eventsFor id (handled trace))
    (written id trace)

section Gives

variable {conn : Conn} {pending events : List Event} {written : Bytes}

/-- Only frames of events of the connection are written. -/
theorem Gives.within (gives : Gives conn pending events written) :
    written <+: Protocol.writerLoop events := by
  unfold Gives at gives
  split at gives
  · exact ⟨_, gives⟩
  · exact ⟨_, gives⟩
  · exact ⟨_, gives⟩
  · exact gives

/-- A writer that waits for an event has written all of them. -/
theorem Gives.rest (gives : Gives conn [] events written) (drained : conn.events = [])
    (idle : ∀ buf, conn.writer ≠ .writing buf) (running : conn.writer ≠ .ended) :
    written = Protocol.writerLoop events := by
  cases writer : conn.writer with
  | unspawned | receiving =>
      simp only [Gives, writer, drained] at gives
      rw [← gives]
      exact (List.append_nil written).symm
  | writing buf => exact absurd writer (idle buf)
  | ended => exact absurd writer running

/-- A writer may stop at any point. -/
theorem Gives.stop (gives : Gives conn pending events written) :
    Gives { conn with writer := .ended } pending events written :=
  gives.within

/-- The matcher thread handled a message and has its events to send. -/
theorem Gives.emit (gives : Gives conn [] events written) (more : List Event) :
    Gives conn more (events ++ more) written := by
  unfold Gives at gives ⊢
  simp only [List.append_nil] at gives
  split at gives
  · rw [writerLoop_append, writerLoop_append, ← List.append_assoc, gives]
  · rw [writerLoop_append, writerLoop_append, ← List.append_assoc, gives]
  · rw [writerLoop_append, writerLoop_append, ← gives]
    simp only [List.append_assoc]
  · rw [writerLoop_append]
    exact gives.trans (List.prefix_append _ _)

/-- The matcher thread sends to the channel. -/
theorem Gives.send {event : Event} (gives : Gives conn (event :: pending) events written) :
    Gives (send event conn) pending events written := by
  have moved : conn.events ++ event :: pending = (conn.events ++ [event]) ++ pending := by simp
  cases writer : conn.writer with
  | ended => simpa only [Gives, Server.send, writer] using gives
  | unspawned | receiving | writing =>
      simp only [Gives, Server.send, writer, moved] at gives ⊢
      exact gives

end Gives

/-! ## One step -/

variable {server after : Server} {trace marks : List Mark} {id : ConnId} {capacity : Nat}

/-- A step that concerns neither the writer of the connection nor what is sent to it. -/
theorem GivesAt.frame (before : GivesAt server trace id)
    (writer : (after.conns id).writer = (server.conns id).writer)
    (events : (after.conns id).events = (server.conns id).events)
    (outgoing : after.outgoing = server.outgoing) (popped : handled marks = [])
    (silent : written id marks = []) : GivesAt after (trace ++ marks) id := by
  unfold GivesAt Gives at before ⊢
  rw [writer, events, outgoing, handled_append, popped, List.append_nil, written_append, silent,
    List.append_nil]
  exact before

/-- A step of the server that takes nothing from the inbox. -/
theorem handled_map (marks : List Hub.Mark) :
    handled (marks.map .hub) = Fifo.popped (Hub.inboxOutcomes marks) := by
  rw [handled, hubMarks_map]

/-- A change of one connection that keeps what its writer knows. -/
theorem GivesAt.update (before : GivesAt server trace id) (other : ConnId)
    {change : Conn → Conn}
    (keeps : ∀ {pending events : List Event} {written : Bytes},
      Gives (server.conns other) pending events written →
        Gives (change (server.conns other)) pending events written) :
    GivesAt (server.update other change) trace id := by
  by_cases mine : id = other
  · subst mine
    unfold GivesAt
    rw [update_conns_self]
    exact keeps before
  · unfold GivesAt
    rw [update_conns_of_ne mine]
    exact before

/-- Moves of the callers pop nothing. -/
theorem handled_step (capacity : Nat) (system : Hub.System) {move : Hub.Move}
    (other : move ≠ .matcher) : handled ((system.step capacity move).2.map .hub) = [] := by
  rw [handled_map]
  rcases system.step_cases capacity move with rfl | same | pushes
  · rfl
  · exact absurd same other
  · exact pushes.popped

/-! ## Both tasks of a connection -/

/-- Both tasks of a connection are spawned together. -/
def Paired (server : Server) : Prop :=
  ∀ id, (server.conns id).reader = .unspawned → (server.conns id).writer = .unspawned

theorem Paired.update (paired : server.Paired) (other : ConnId) {change : Conn → Conn}
    (keeps : (change (server.conns other)).reader = .unspawned →
      (change (server.conns other)).writer = .unspawned) :
    (server.update other change).Paired := by
  intro id
  by_cases mine : id = other
  · subst mine
    rw [update_conns_self]
    exact keeps
  · rw [update_conns_of_ne mine]
    exact paired id

theorem Paired.resume (paired : server.Paired) (mark : Hub.Mark) :
    (server.resume mark).Paired := by
  unfold Server.resume
  split
  · exact paired.update _ fun impossible => (by cases impossible)
  · exact paired.update _ fun impossible => (by cases impossible)
  all_goals exact paired

theorem Paired.readerEnds (paired : server.Paired) (id : ConnId) {reader : Reader}
    (finished : reader.finished) : (server.readerEnds capacity id reader).1.Paired := by
  have same : (server.hubMove capacity (.drop id)).1.Paired := paired
  unfold Server.readerEnds
  dsimp only
  apply same.update id
  intro unspawned
  change reader = .unspawned at unspawned
  rw [unspawned] at finished
  cases finished

theorem Paired.read (paired : server.Paired) (id : ConnId) :
    (server.read capacity id).1.Paired := by
  unfold Server.read
  dsimp only
  split
  · split
    · split
      next command unread _ =>
        have same : (server.hubMove capacity (.submit id command)).1.Paired := paired
        dsimp only
        apply same.update id
        exact fun impossible => (by cases impossible)
      · exact paired.readerEnds id rfl
      · exact paired.readerEnds id rfl
    · exact paired
  all_goals exact paired

/-- A step of the server spawns both tasks of a connection or none. -/
theorem Paired.step (paired : server.Paired) (capacity : Nat) (move : Move) :
    (server.step capacity move).1.Paired := by
  cases move with
  | accept | acceptFails | shutdown | expire | abort | abortSpawned =>
      simp only [Server.step]
      split <;> exact paired
  | finish | dropHub =>
      simp only [Server.step]
      split
      · split <;> exact paired
      all_goals exact paired
  | register =>
      simp only [Server.step]
      split <;> exact paired
  | push call =>
      simp only [Server.step]
      have same : (server.hubMove capacity (.push call)).1.Paired := paired
      generalize (server.hub.step capacity (.push call)).2 = marks
      generalize (server.hubMove capacity (.push call)).1 = next at same
      induction marks generalizing next with
      | nil => exact same
      | cons mark marks ih => exact ih _ (same.resume mark)
  | matcher =>
      simp only [Server.step]
      split
      next target event outgoing _ =>
        have same : ({ server with outgoing } : Server).Paired := paired
        apply same.update target
        have before := paired target
        unfold send
        split <;> exact before
      next => exact paired
  | arrive conn bytes =>
      simp only [Server.step]
      split
      · dsimp only
        apply paired.update conn
        exact paired conn
      · exact paired
  | close conn =>
      simp only [Server.step]
      apply paired.update conn
      exact paired conn
  | read conn => exact paired.read conn
  | readFails conn =>
      simp only [Server.step]
      split
      · exact paired.readerEnds conn rfl
      all_goals exact paired
  | receive conn =>
      simp only [Server.step, Server.receive]
      split
      next receiving _ =>
        apply paired.update conn
        exact fun unspawned => absurd (paired conn unspawned) (by simp [receiving])
      next receiving _ =>
        split
        · apply paired.update conn
          exact fun unspawned => absurd (paired conn unspawned) (by simp [receiving])
        · exact paired
      all_goals exact paired
  | write conn count =>
      simp only [Server.step, Server.write]
      split
      next writing =>
        dsimp only
        apply paired.update conn
        exact fun unspawned => absurd (paired conn unspawned) (by simp [writing])
      all_goals exact paired
  | writeFails conn =>
      simp only [Server.step]
      split
      next writing =>
        dsimp only
        apply paired.update conn
        exact fun unspawned => absurd (paired conn unspawned) (by simp [writing])
      all_goals exact paired
  | endHandler conn =>
      simp only [Server.step]
      split
      next ready =>
        have same : ({ server with handlers := server.handlers.erase conn } : Server).Paired :=
          paired
        dsimp only
        apply same.update conn
        intro unspawned
        change (server.conns conn).reader = .unspawned at unspawned
        rw [unspawned] at ready
        cases ready.2
      next => exact paired

/-- What a successful push lets continue does not concern what the writer knows. -/
theorem GivesAt.resume (before : GivesAt server trace id) (mark : Hub.Mark)
    (unspawned : ∀ conn, mark = .inbox (.accepted (.connect conn)) →
      (server.conns conn).writer = .unspawned) :
    GivesAt (server.resume mark) trace id := by
  unfold Server.resume
  split
  next conn =>
    apply before.update conn
    intro pending events written gives
    simpa only [Gives, unspawned conn rfl] using gives
  next conn _ =>
    apply before.update conn
    exact fun gives => gives
  all_goals exact before

/-! ## Every step -/

/-- The matcher thread sends an event, or takes a message from the inbox. -/
theorem GivesAt.matcher (before : GivesAt server trace id)
    (current : server.hub.hub = (Hub.run (handled trace)).1) :
    GivesAt (server.step capacity .matcher).1 (trace ++ (server.step capacity .matcher).2)
      id := by
  simp only [Server.step]
  split
  next target event outgoing due =>
    rw [List.append_nil]
    unfold GivesAt at before ⊢
    rw [due] at before
    by_cases mine : id = target
    · subst mine
      rw [update_conns_self]
      simp only [eventsTo, List.filterMap_cons, if_true] at before
      exact before.send
    · rw [update_conns_of_ne mine]
      simp only [eventsTo, List.filterMap_cons, Ne.symm mine, if_false] at before
      exact before
  next due =>
    unfold GivesAt at before ⊢
    rw [due] at before
    simp only [hubMove, written_append, written_map, List.append_nil, handled_append, handled_map,
      Hub.System.step, Hub.System.matcherStep]
    cases server.hub.pc with
    | pop didWork =>
        cases server.hub.inbox with
        | nil => simpa [Fifo.pop, Fifo.popped, Hub.inboxOutcomes, sends] using before
        | cons msg rest =>
            have emitted := before.emit (eventsTo id (sendsOf (server.hub.hub.handle msg).2))
            rw [current, ← eventsFor_concat, ← current] at emitted
            simpa [Fifo.pop, Fifo.popped, Hub.inboxOutcomes, sends] using emitted
    | loadStop => simpa [Fifo.popped, Hub.inboxOutcomes] using before
    | returned matcher => simpa [Fifo.popped, Hub.inboxOutcomes] using before

/-- The writer takes an event from the channel. -/
theorem GivesAt.receive (before : GivesAt server trace id) (conn : ConnId) :
    GivesAt (server.receive conn) trace id := by
  unfold Server.receive
  split
  next event events receiving queued =>
    apply before.update conn
    intro pending sent written gives
    simp only [Gives, receiving, queued] at gives ⊢
    rw [← gives, List.cons_append, writerLoop_cons]
  next =>
    split
    · apply before.update conn
      exact Gives.stop
    · exact before
  all_goals exact before

/-- The writer writes some bytes. -/
theorem GivesAt.write (before : GivesAt server trace id) (conn : ConnId) (count : Nat) :
    GivesAt (server.write conn count).1 (trace ++ (server.write conn count).2) id := by
  have stays : GivesAt server (trace ++ []) id := by
    rw [List.append_nil]
    exact before
  unfold Server.write
  split
  next buf writing =>
    by_cases mine : id = conn
    · subst mine
      have bytes : written id [.wrote id (buf.take count)] = buf.take count := by simp [written]
      have nothing : handled [.wrote id (buf.take count)] = [] := rfl
      simp only [GivesAt, update_conns_self, handled_append, nothing, List.append_nil,
        written_append, bytes]
      simp only [GivesAt, Gives, writing] at before
      by_cases whole : buf.length ≤ count
      · rw [if_pos whole, List.take_of_length_le whole]
        simp only [Gives]
        rw [← before, List.append_assoc]
        rfl
      · rw [if_neg whole]
        simp only [Gives]
        rw [← before, List.append_assoc, ← List.append_assoc (buf.take count),
          List.take_append_drop]
        rfl
    · have silent : GivesAt server (trace ++ [.wrote conn (buf.take count)]) id :=
        before.frame rfl rfl rfl rfl (by simp [written, Ne.symm mine])
      dsimp only
      unfold GivesAt at silent ⊢
      rw [update_conns_of_ne mine]
      exact silent
  all_goals exact stays

theorem GivesAt.readerEnds (before : GivesAt server trace id) (conn : ConnId)
    (reader : Reader) :
    GivesAt (server.readerEnds capacity conn reader).1
      (trace ++ (server.readerEnds capacity conn reader).2) id := by
  have dropped : GivesAt (server.hubMove capacity (.drop conn)).1
      (trace ++ (server.hub.step capacity (.drop conn)).2.map .hub) id :=
    before.frame rfl rfl rfl (handled_step capacity server.hub (by simp)) (written_map id _)
  unfold Server.readerEnds
  dsimp only
  apply dropped.update conn
  exact fun gives => gives

theorem GivesAt.read (before : GivesAt server trace id) (conn : ConnId) :
    GivesAt (server.read capacity conn).1 (trace ++ (server.read capacity conn).2) id := by
  have stays : GivesAt server (trace ++ []) id := by
    rw [List.append_nil]
    exact before
  simp only [Server.read]
  split
  · split
    · split
      next command unread _ =>
        have submitted : GivesAt (server.hubMove capacity (.submit conn command)).1
            (trace ++ (server.hub.step capacity (.submit conn command)).2.map .hub) id :=
          before.frame rfl rfl rfl (handled_step capacity server.hub (by simp)) (written_map id _)
        dsimp only
        apply submitted.update conn
        exact fun gives => gives
      · exact before.readerEnds conn (.returned (.ok ()))
      next error _ => exact before.readerEnds conn (.returned (.error error))
    · exact stays
  all_goals exact stays

/-- A step of the server keeps what every writer knows. -/
theorem GivesAt.step (before : GivesAt server trace id) (paired : server.Paired)
    (takes : ∀ conn, TakesAt server trace conn)
    (fresh : ∀ conn, .connect conn ∈ server.hub.calls → .connect conn ∉ pushed trace)
    (current : server.hub.hub = (Hub.run (handled trace)).1) (move : Move) :
    GivesAt (server.step capacity move).1 (trace ++ (server.step capacity move).2) id := by
  have stays : GivesAt server (trace ++ []) id := by
    rw [List.append_nil]
    exact before
  cases move with
  | accept | acceptFails | shutdown | expire | abort | abortSpawned =>
      simp only [Server.step]
      split
      · exact before.frame rfl rfl rfl rfl rfl
      · exact stays
  | finish =>
      simp only [Server.step]
      split
      · split <;> exact stays
      all_goals exact stays
  | dropHub =>
      simp only [Server.step]
      split
      · split
        · exact before.frame rfl rfl rfl rfl rfl
        · exact stays
      all_goals exact stays
  | register =>
      simp only [Server.step]
      split
      · exact stays
      · exact before.frame rfl rfl rfl rfl rfl
  | push call =>
      have attempts := attempts_push capacity server.hub call
      have moved : GivesAt (server.hubMove capacity (.push call)).1
          (trace ++ (server.hub.step capacity (.push call)).2.map .hub) id :=
        before.frame rfl rfl rfl (handled_step capacity server.hub (by simp)) (written_map id _)
      simp only [Server.step, hubMove] at moved ⊢
      generalize server.hub.step capacity (.push call) = result at attempts moved ⊢
      cases attempts with
      | none => exact moved
      | refused msg => exact moved
      | @accepted msg inbox earlier later split =>
          apply moved.resume
          intro conn connects
          cases connects
          have called : .connect conn ∈ server.hub.calls := by simp [split]
          exact paired conn (Takes.unspawned (takes conn) (fresh conn called)).1
  | matcher => exact before.matcher current
  | arrive conn bytes =>
      simp only [Server.step]
      split
      · have silent : GivesAt server (trace ++ [.arrived conn bytes]) id :=
          before.frame rfl rfl rfl rfl rfl
        dsimp only
        apply silent.update conn
        exact fun gives => gives
      · exact stays
  | close conn =>
      simp only [Server.step]
      apply stays.update conn
      exact fun gives => gives
  | read conn => exact before.read conn
  | readFails conn =>
      simp only [Server.step]
      split
      · exact before.readerEnds conn .failed
      all_goals exact stays
  | receive conn =>
      simp only [Server.step, List.append_nil]
      exact before.receive conn
  | write conn count => exact before.write conn count
  | writeFails conn =>
      simp only [Server.step]
      split
      · dsimp only
        apply stays.update conn
        exact Gives.stop
      all_goals exact stays
  | endHandler conn =>
      simp only [Server.step]
      split
      · have same : GivesAt { server with handlers := server.handlers.erase conn } (trace ++ [])
          id := stays
        dsimp only
        apply same.update conn
        exact Gives.stop
      · exact stays

end Server

end Bourse
