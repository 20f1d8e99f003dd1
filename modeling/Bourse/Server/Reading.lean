import Bourse.Hub.Stages
import Bourse.Server.Core

/-!
# From the socket to the inbox

What `reader_loop` has taken from the socket of a connection is what it has submitted: the
commands of the connection that the inbox took, and the one that is being submitted, are what
the bytes in front of the unread ones decode to.
-/

namespace Bourse

namespace Server

/-! ## What a run leaves behind -/

/-- What the hub did. -/
def hubMarks : List Mark → List Hub.Mark :=
  List.filterMap fun mark =>
    match mark with
    | .hub mark => some mark
    | .accepted | .shutdown | .arrived _ _ | .wrote _ _ => none

/-- What arrived from the client of a connection. -/
def arrived (id : ConnId) : List Mark → Bytes :=
  List.flatMap fun mark =>
    match mark with
    | .arrived conn bytes => if conn = id then bytes else []
    | .hub _ | .accepted | .shutdown | .wrote _ _ => []

/-- What was written to the client of a connection. -/
def written (id : ConnId) : List Mark → Bytes :=
  List.flatMap fun mark =>
    match mark with
    | .wrote conn bytes => if conn = id then bytes else []
    | .hub _ | .accepted | .shutdown | .arrived _ _ => []

/-- The messages that the inbox took. -/
def pushed (trace : List Mark) : List Msg :=
  Fifo.accepted (Hub.inboxOutcomes (hubMarks trace))

/-- The messages that the matcher thread handled. -/
def handled (trace : List Mark) : List Msg :=
  Fifo.popped (Hub.inboxOutcomes (hubMarks trace))

/-- The commands of a connection. -/
def commandsOf (id : ConnId) : List Msg → List Command :=
  List.filterMap fun msg =>
    match msg with
    | .cmd conn command => if conn = id then some command else none
    | .connect _ | .disconnect _ => none

@[simp] theorem hubMarks_append (trace more : List Mark) :
    hubMarks (trace ++ more) = hubMarks trace ++ hubMarks more :=
  List.filterMap_append

@[simp] theorem hubMarks_map (marks : List Hub.Mark) : hubMarks (marks.map .hub) = marks := by
  simp [hubMarks, List.filterMap_map]

@[simp] theorem arrived_append (id : ConnId) (trace more : List Mark) :
    arrived id (trace ++ more) = arrived id trace ++ arrived id more :=
  List.flatMap_append

@[simp] theorem arrived_map (id : ConnId) (marks : List Hub.Mark) :
    arrived id (marks.map .hub) = [] := by
  simp [arrived, List.flatMap_map]

@[simp] theorem written_append (id : ConnId) (trace more : List Mark) :
    written id (trace ++ more) = written id trace ++ written id more :=
  List.flatMap_append

@[simp] theorem written_map (id : ConnId) (marks : List Hub.Mark) :
    written id (marks.map .hub) = [] := by
  simp [written, List.flatMap_map]

@[simp] theorem pushed_append (trace more : List Mark) :
    pushed (trace ++ more) = pushed trace ++ pushed more := by
  simp [pushed]

@[simp] theorem handled_append (trace more : List Mark) :
    handled (trace ++ more) = handled trace ++ handled more := by
  simp [handled]

@[simp] theorem commandsOf_append (id : ConnId) (msgs more : List Msg) :
    commandsOf id (msgs ++ more) = commandsOf id msgs ++ commandsOf id more :=
  List.filterMap_append

/-- The call with an index, and the calls around it. -/
theorem split_call {calls : List Msg} {call : Nat} {msg : Msg}
    (found : calls[call]? = some msg) :
    ∃ before after, calls = before ++ msg :: after ∧ calls.eraseIdx call = before ++ after := by
  rcases List.getElem?_eq_some_iff.mp found with ⟨bound, isMsg⟩
  refine ⟨calls.take call, calls.drop (call + 1), ?_, List.eraseIdx_eq_take_drop_succ calls call⟩
  rw [← isMsg, List.getElem_cons_drop, List.take_append_drop]

/-! ## The reader of a connection -/

/-- What the reader knows: `calls` are the commands it is submitting, `commands` those that
the inbox took from it, and `arrived` is everything that its client sent. -/
def Takes (conn : Conn) (calls commands : List Command) (connected alive : Prop)
    (arrived : Bytes) : Prop :=
  match conn.reader with
  | .unspawned => ¬ connected ∧ arrived = [] ∧ conn.unread = [] ∧ commands = [] ∧ calls = []
  | .reading => connected ∧ alive ∧ calls = [] ∧ ∃ consumed, arrived = consumed ++ conn.unread ∧
      Framing.Consumes .unexpectedEof Protocol.decodeCommand consumed commands
  | .submitting => connected ∧ alive ∧ ∃ command consumed, calls = [command] ∧
      arrived = consumed ++ conn.unread ∧
      Framing.Consumes .unexpectedEof Protocol.decodeCommand consumed (commands ++ [command])
  | .returned result => connected ∧ calls = [] ∧
      ((conn.closed = true ∧ Protocol.readerLoop arrived = (commands, result)) ∨
        ∀ more, Protocol.readerLoop (arrived ++ more) = (commands, result))
  | .failed => connected ∧ calls = [] ∧ ∃ consumed rest, arrived = consumed ++ rest ∧
      Framing.Consumes .unexpectedEof Protocol.decodeCommand consumed commands

/-- What the reader of a connection of the server knows. -/
def TakesAt (server : Server) (trace : List Mark) (id : ConnId) : Prop :=
  Takes (server.conns id) (commandsOf id server.hub.calls) (commandsOf id (pushed trace))
    (.connect id ∈ pushed trace) (id ∈ server.hub.submitters) (arrived id trace)

section Takes

variable {conn : Conn} {calls commands : List Command} {connected alive : Prop}
  {arrived : Bytes}

/-- A reader that returned has submitted all that its client sent it to submit. -/
theorem Takes.returned {result : Except Protocol.ReadError Unit}
    (takes : Takes conn calls commands connected alive arrived)
    (returned : conn.reader = .returned result) :
    Protocol.readerLoop arrived = (commands, result) := by
  simp only [Takes, returned] at takes
  rcases takes.2.2 with ⟨_, read⟩ | stable
  · exact read
  · simpa using stable []

/-- The commands that the inbox took are the first that the client sent. -/
theorem Takes.within (takes : Takes conn calls commands connected alive arrived) :
    commands <+: (Protocol.readerLoop arrived).1 := by
  cases reader : conn.reader with
  | unspawned =>
      simp only [Takes, reader] at takes
      rw [takes.2.2.2.1]
      exact List.nil_prefix
  | reading =>
      simp only [Takes, reader] at takes
      rcases takes with ⟨_, _, _, consumed, rfl, consumes⟩
      exact consumes.prefix_readAll conn.unread
  | submitting =>
      simp only [Takes, reader] at takes
      rcases takes with ⟨_, _, command, consumed, _, rfl, consumes⟩
      exact (List.prefix_append _ _).trans (consumes.prefix_readAll conn.unread)
  | returned result =>
      exact ⟨[], by rw [takes.returned reader, List.append_nil]⟩
  | failed =>
      simp only [Takes, reader] at takes
      rcases takes with ⟨_, _, consumed, rest, rfl, consumes⟩
      exact consumes.prefix_readAll rest

/-- A reader that waits for the rest of a frame has submitted all that its client sent. -/
theorem Takes.rest (takes : Takes conn calls commands connected alive arrived)
    (idle : calls = [])
    (waits : conn.reader = .reading → Framing.complete conn.unread = false)
    (working : conn.reader ≠ .failed) : commands = (Protocol.readerLoop arrived).1 := by
  cases reader : conn.reader with
  | unspawned =>
      simp only [Takes, reader] at takes
      rw [takes.2.1, takes.2.2.2.1]
      rfl
  | reading =>
      simp only [Takes, reader] at takes
      rcases takes with ⟨_, _, _, consumed, rfl, consumes⟩
      rw [Protocol.readerLoop, consumes, Framing.readAll_incomplete (waits reader),
        List.append_nil]
  | submitting =>
      simp only [Takes, reader] at takes
      rcases takes with ⟨_, _, command, _, one, _⟩
      rw [idle] at one
      cases one
  | returned result => rw [takes.returned reader]
  | failed => exact absurd reader working

/-- Before the connection is registered nothing was read. -/
theorem Takes.unspawned (takes : Takes conn calls commands connected alive arrived)
    (absent : ¬ connected) :
    conn.reader = .unspawned ∧ arrived = [] ∧ conn.unread = [] ∧ commands = [] ∧ calls = [] := by
  cases reader : conn.reader with
  | unspawned =>
      simp only [Takes, reader] at takes
      exact ⟨rfl, takes.2⟩
  | reading | submitting | returned | failed =>
      simp only [Takes, reader] at takes
      exact absurd takes.1 absent

/-- A reader with a command to submit is submitting it. -/
theorem Takes.submitting (takes : Takes conn calls commands connected alive arrived)
    (busy : calls ≠ []) : conn.reader = .submitting := by
  cases reader : conn.reader with
  | submitting => rfl
  | unspawned =>
      simp only [Takes, reader] at takes
      exact absurd takes.2.2.2.2 busy
  | reading =>
      simp only [Takes, reader] at takes
      exact absurd takes.2.2.1 busy
  | returned | failed =>
      simp only [Takes, reader] at takes
      exact absurd takes.2.1 busy

/-- Bytes that arrive are unread. -/
theorem Takes.arrive (takes : Takes conn calls commands connected alive arrived)
    (spawned : conn.reader ≠ .unspawned) (isOpen : conn.closed = false) (bytes : Bytes) :
    Takes { conn with unread := conn.unread ++ bytes } calls commands connected alive
      (arrived ++ bytes) := by
  unfold Takes at takes ⊢
  cases reader : conn.reader with
  | unspawned => exact absurd reader spawned
  | reading =>
      rw [reader] at takes
      rcases takes with ⟨known, up, none, consumed, rfl, consumes⟩
      exact ⟨known, up, none, consumed, List.append_assoc _ _ _, consumes⟩
  | submitting =>
      rw [reader] at takes
      rcases takes with ⟨known, up, command, consumed, one, rfl, consumes⟩
      exact ⟨known, up, command, consumed, one, List.append_assoc _ _ _, consumes⟩
  | returned result =>
      rw [reader] at takes
      refine ⟨takes.1, takes.2.1, .inr ?_⟩
      rcases takes.2.2 with ⟨shut, _⟩ | stable
      · rw [isOpen] at shut
        cases shut
      · intro more
        rw [List.append_assoc]
        exact stable (bytes ++ more)
  | failed =>
      rw [reader] at takes
      rcases takes with ⟨known, none, consumed, rest, rfl, consumes⟩
      exact ⟨known, none, consumed, rest ++ bytes, List.append_assoc _ _ _, consumes⟩

/-- The end of what the client sends changes nothing that the reader knows. -/
theorem Takes.close (takes : Takes conn calls commands connected alive arrived) :
    Takes { conn with closed := true } calls commands connected alive arrived := by
  unfold Takes at takes ⊢
  cases reader : conn.reader with
  | returned result =>
      rw [reader] at takes
      refine ⟨takes.1, takes.2.1, ?_⟩
      rcases takes.2.2 with ⟨_, read⟩ | stable
      · exact .inl ⟨rfl, read⟩
      · exact .inr stable
  | unspawned | reading | submitting | failed =>
      rw [reader] at takes
      exact takes

/-- A reader that is finished needs no submitter. -/
theorem Takes.finished {other : Prop} (takes : Takes conn calls commands connected alive arrived)
    (finished : conn.reader.finished) : Takes conn calls commands connected other arrived := by
  unfold Takes at takes ⊢
  cases reader : conn.reader with
  | unspawned | reading | submitting =>
      rw [reader] at finished
      cases finished
  | returned | failed =>
      rw [reader] at takes
      exact takes

/-- What is not the reader's does not matter to it. -/
theorem Takes.congr {other : Conn} (takes : Takes conn calls commands connected alive arrived)
    (reader : other.reader = conn.reader) (unread : other.unread = conn.unread)
    (closed : other.closed = conn.closed) :
    Takes other calls commands connected alive arrived := by
  unfold Takes at takes ⊢
  rw [reader, unread, closed]
  exact takes

end Takes

/-! ## One step -/

variable {server after : Server} {trace marks : List Mark} {id : ConnId} {capacity : Nat}

@[simp] theorem pushed_map (marks : List Hub.Mark) :
    pushed (marks.map .hub) = Fifo.accepted (Hub.inboxOutcomes marks) := by
  rw [pushed, hubMarks_map]

@[simp] theorem pushed_accepted (msg : Msg) : pushed [.hub (.inbox (.accepted msg))] = [msg] := rfl

@[simp] theorem arrived_hub (id : ConnId) (mark : Hub.Mark) : arrived id [.hub mark] = [] := rfl

@[simp] theorem update_conns_self (server : Server) (id : ConnId) (change : Conn → Conn) :
    (server.update id change).conns id = change (server.conns id) :=
  Function.update_self ..

@[simp] theorem update_conns_of_ne {other : ConnId} (differ : id ≠ other) (server : Server)
    (change : Conn → Conn) : (server.update other change).conns id = server.conns id :=
  Function.update_of_ne differ ..

@[simp] theorem update_hub (server : Server) (id : ConnId) (change : Conn → Conn) :
    (server.update id change).hub = server.hub := rfl

/-- A step that does not concern the reader of the connection. -/
theorem TakesAt.frame (before : TakesAt server trace id)
    (reader : (after.conns id).reader = (server.conns id).reader)
    (unread : (after.conns id).unread = (server.conns id).unread)
    (closed : (after.conns id).closed = (server.conns id).closed)
    (calls : commandsOf id after.hub.calls = commandsOf id server.hub.calls)
    (commands : commandsOf id (pushed marks) = []) (connect : .connect id ∉ pushed marks)
    (alive : id ∈ after.hub.submitters ↔ id ∈ server.hub.submitters)
    (silent : arrived id marks = []) : TakesAt after (trace ++ marks) id := by
  unfold TakesAt
  rw [calls, pushed_append, commandsOf_append, commands, List.append_nil, arrived_append, silent,
    List.append_nil, alive, List.mem_append, or_iff_left connect]
  exact before.congr reader unread closed

/-- A step that touches neither the hub nor the socket of the connection. -/
theorem TakesAt.frame_conn (before : TakesAt server trace id)
    (reader : (after.conns id).reader = (server.conns id).reader)
    (unread : (after.conns id).unread = (server.conns id).unread)
    (closed : (after.conns id).closed = (server.conns id).closed)
    (hub : after.hub = server.hub) (noHub : hubMarks marks = [])
    (silent : arrived id marks = []) : TakesAt after (trace ++ marks) id := by
  apply before.frame reader unread closed
  · rw [hub]
  · rw [pushed, noHub]
    rfl
  · rw [pushed, noHub]
    exact List.not_mem_nil
  · rw [hub]
  · exact silent

theorem commandsOf_disconnects (id : ConnId) {msgs : List Msg}
    (disconnects : ∀ msg ∈ msgs, ∃ conn, msg = .disconnect conn) :
    commandsOf id msgs = [] ∧ .connect id ∉ msgs := by
  constructor
  · apply List.filterMap_eq_nil_iff.mpr
    intro msg member
    rcases disconnects msg member with ⟨conn, rfl⟩
    rfl
  · intro member
    rcases disconnects _ member with ⟨conn, same⟩
    cases same

/-- A step of the hub that pushes at most a `Disconnect`. -/
theorem TakesAt.frame_hub (before : TakesAt server trace id) (capacity : Nat) (move : Hub.Move)
    (conns : after.conns id = server.conns id)
    (hub : after.hub = (server.hub.step capacity move).1)
    (calls : commandsOf id (server.hub.step capacity move).1.calls =
      commandsOf id server.hub.calls)
    (msgs : ∀ msg ∈ Fifo.accepted (Hub.inboxOutcomes (server.hub.step capacity move).2),
      ∃ conn, msg = .disconnect conn)
    (alive : id ∈ (server.hub.step capacity move).1.submitters ↔ id ∈ server.hub.submitters) :
    TakesAt after (trace ++ (server.hub.step capacity move).2.map .hub) id := by
  apply before.frame
  · rw [conns]
  · rw [conns]
  · rw [conns]
  · rw [hub, calls]
  · rw [pushed_map, (commandsOf_disconnects id msgs).1]
  · rw [pushed_map]
    exact (commandsOf_disconnects id msgs).2
  · rw [hub, alive]
  · exact arrived_map id _

theorem accepted_matcherStep (system : Hub.System) :
    Fifo.accepted (Hub.inboxOutcomes system.matcherStep.2) = [] := by
  unfold Hub.System.matcherStep
  cases system.pc with
  | pop didWork => cases system.inbox <;> rfl
  | loadStop => rfl
  | returned matcher => rfl

theorem matcherStep_calls (system : Hub.System) :
    system.matcherStep.1.calls = system.calls ∧
      system.matcherStep.1.submitters = system.submitters := by
  unfold Hub.System.matcherStep
  cases system.pc with
  | pop didWork => cases system.inbox <;> exact ⟨rfl, rfl⟩
  | loadStop => exact ⟨rfl, rfl⟩
  | returned matcher => exact ⟨rfl, rfl⟩

/-- What the drop of a submitter pushes. -/
theorem accepted_drop (capacity : Nat) (system : Hub.System) (conn : ConnId) :
    ∀ msg ∈ Fifo.accepted (Hub.inboxOutcomes (system.step capacity (.drop conn)).2),
      ∃ conn, msg = .disconnect conn := by
  intro msg member
  simp only [Hub.System.step] at member
  split at member
  next =>
    simp only [Fifo.push] at member
    split at member
    · exact ⟨conn, List.mem_singleton.mp member⟩
    · cases member
  next => cases member

theorem drop_calls (system : Hub.System) (conn : ConnId) :
    (system.step capacity (.drop conn)).1.calls = system.calls := by
  simp only [Hub.System.step]
  split <;> rfl

theorem drop_submitters {conn : ConnId} (system : Hub.System) (differ : id ≠ conn) :
    id ∈ (system.step capacity (.drop conn)).1.submitters ↔ id ∈ system.submitters := by
  simp only [Hub.System.step]
  split
  · exact List.mem_erase_of_ne differ
  · exact Iff.rfl

/-- The end of another reader. -/
theorem TakesAt.readerEnds_other (before : TakesAt server trace id) {other : ConnId}
    (differ : id ≠ other) (reader : Reader) :
    TakesAt (server.readerEnds capacity other reader).1
      (trace ++ (server.readerEnds capacity other reader).2) id := by
  apply before.frame_hub capacity (.drop other)
  · exact update_conns_of_ne differ (server.hubMove capacity (.drop other)).1
      fun conn => { conn with reader }
  · rfl
  · rw [drop_calls]
  · exact accepted_drop capacity server.hub other
  · exact drop_submitters server.hub differ

/-- The end of the reader drops its submitter, which is not needed any more. -/
theorem TakesAt.readerEnds {reader : Reader} (finished : reader.finished)
    (ended : Takes { server.conns id with reader } (commandsOf id server.hub.calls)
      (commandsOf id (pushed trace)) (.connect id ∈ pushed trace) (id ∈ server.hub.submitters)
      (arrived id trace)) :
    TakesAt (server.readerEnds capacity id reader).1
      (trace ++ (server.readerEnds capacity id reader).2) id := by
  rcases commandsOf_disconnects id (accepted_drop capacity server.hub id) with ⟨commands, connect⟩
  unfold TakesAt Server.readerEnds
  simp only [hubMove, update_conns_self, update_hub, pushed_append, pushed_map, arrived_append,
    arrived_map, commandsOf_append, commands, drop_calls, List.append_nil, List.mem_append,
    or_iff_left connect]
  exact ended.finished finished

/-- The reader takes a frame and starts to submit its command. -/
theorem TakesAt.submit (before : TakesAt server trace id)
    (reader : (server.conns id).reader = .reading) {body rest : Bytes} {command : Command}
    (fits : body.length < 2 ^ 32) (decoded : Protocol.decodeCommand body = .ok command)
    (whole : (server.conns id).unread = Framing.frame body ++ rest) :
    TakesAt ((server.hubMove capacity (.submit id command)).1.update id fun conn =>
        { conn with reader := .submitting, unread := rest })
      (trace ++ (server.hubMove capacity (.submit id command)).2) id := by
  simp only [TakesAt, Takes, reader] at before
  rcases before with ⟨connected, alive, none, consumed, all, consumes⟩
  have submits : server.hub.step capacity (.submit id command) =
      ({ server.hub with calls := server.hub.calls ++ [.cmd id command] }, []) := by
    simp only [Hub.System.step, if_pos alive]
  simp only [TakesAt, Takes, hubMove, submits, update_conns_self, update_hub, List.map_nil,
    List.append_nil]
  refine ⟨connected, alive, command, consumed ++ Framing.frame body, ?_, ?_, ?_⟩
  · rw [commandsOf_append, none]
    simp [commandsOf]
  · rw [all, whole, List.append_assoc]
  · exact consumes.concat fits decoded

/-- One iteration of the reader. -/
theorem TakesAt.read (before : TakesAt server trace id) :
    TakesAt (server.read capacity id).1 (trace ++ (server.read capacity id).2) id := by
  have stays : TakesAt server (trace ++ []) id := by
    rw [List.append_nil]
    exact before
  cases reader : (server.conns id).reader with
  | unspawned | submitting | returned | failed => simpa only [Server.read, reader] using stays
  | reading =>
      have known := before
      simp only [TakesAt, Takes, reader] at known
      rcases known with ⟨connected, alive, idle, consumed, all, consumes⟩
      simp only [Server.read, reader]
      split
      next ready =>
        rcases Framing.stream_cases (server.conns id).unread with
          short | ⟨len, body, short, cut⟩ | ⟨body, rest, fits, whole⟩
        · have incomplete : Framing.complete (server.conns id).unread = false :=
            Framing.complete_of_short short
          have read : Framing.readFrame .unexpectedEof Protocol.decodeCommand
              (server.conns id).unread = .ok none := Framing.readFrame_ended short
          rw [read]
          apply TakesAt.readerEnds rfl
          refine ⟨connected, idle, .inl ⟨?_, ?_⟩⟩
          · simpa [incomplete] using ready
          · rw [Protocol.readerLoop, all, consumes, Framing.readAll_of_end read, List.append_nil]
        · have incomplete : Framing.complete (server.conns id).unread = false := by
            rw [cut]
            exact Framing.complete_of_cut short
          have read : Framing.readFrame .unexpectedEof Protocol.decodeCommand
              (server.conns id).unread = .error .unexpectedEof := by
            rw [cut]
            exact Framing.readFrame_cut short
          rw [read]
          apply TakesAt.readerEnds rfl
          refine ⟨connected, idle, .inl ⟨?_, ?_⟩⟩
          · simpa [incomplete] using ready
          · rw [Protocol.readerLoop, all, consumes, Framing.readAll_of_error read,
              List.append_nil]
        · rw [whole, Framing.readFrame_frame fits]
          cases decoded : Protocol.decodeCommand body with
          | error error =>
              apply TakesAt.readerEnds rfl
              refine ⟨connected, idle, .inr ?_⟩
              intro more
              rw [Protocol.readerLoop, all, whole, List.append_assoc, List.append_assoc]
              exact consumes.refused fits decoded (rest ++ more)
          | ok command =>
              exact before.submit reader fits decoded whole
      next => exact stays

/-! ## Attempts to push -/

/-- What one attempt to push does. -/
inductive Attempts (capacity : Nat) (system : Hub.System) :
    Hub.System × List Hub.Mark → Prop where
  | none : Attempts capacity system (system, [])
  | refused (msg : Msg) : Attempts capacity system (system, [.inbox (.rejected msg)])
  | accepted {msg : Msg} {inbox before after : List Msg}
      (split : system.calls = before ++ msg :: after) :
      Attempts capacity system
        ({ system with
            inbox := inbox
            calls := before ++ after
            submitters := system.submitters ++ Hub.System.returnedBy msg },
          [.inbox (.accepted msg)])

theorem attempts_push (capacity : Nat) (system : Hub.System) (call : Nat) :
    Attempts capacity system (system.step capacity (.push call)) := by
  simp only [Hub.System.step, Hub.System.push]
  cases found : system.calls[call]? with
  | none => exact .none
  | some msg =>
      by_cases room : system.inbox.length < capacity
      · simp only [Fifo.push, if_pos room]
        rcases split_call found with ⟨before, after, split, erased⟩
        rw [erased]
        exact .accepted split
      · simp only [Fifo.push, if_neg room]
        exact .refused msg

/-- A call that returns: `register` has a connection that was not pushed before. -/
theorem TakesAt.push (before : TakesAt server trace id) (call : Nat)
    (fresh : .connect id ∈ server.hub.calls → .connect id ∉ pushed trace) :
    TakesAt (server.step capacity (.push call)).1
      (trace ++ (server.step capacity (.push call)).2) id := by
  have attempts := attempts_push capacity server.hub call
  simp only [step, hubMove]
  generalize server.hub.step capacity (.push call) = result at attempts ⊢
  cases attempts with
  | none => exact before.frame_conn rfl rfl rfl rfl rfl rfl
  | refused msg =>
      exact before.frame rfl rfl rfl rfl rfl List.not_mem_nil Iff.rfl rfl
  | @accepted msg inbox earlier later split =>
      simp only [List.foldl_cons, List.foldl_nil, List.map_cons, List.map_nil]
      cases msg with
      | disconnect conn =>
          apply before.frame
          · rfl
          · rfl
          · rfl
          · simp [split, commandsOf, resume]
          · rfl
          · simp
          · simp [Hub.System.returnedBy, resume]
          · rfl
      | connect conn =>
          by_cases mine : id = conn
          · subst mine
            have absent := fresh (by rw [split]; exact List.mem_append_right _ List.mem_cons_self)
            rcases Takes.unspawned before absent with ⟨-, nothing, unread, none, first⟩
            simp only [TakesAt, Takes, resume, update_conns_self, update_hub, pushed_append,
              pushed_accepted, arrived_append, arrived_hub, commandsOf_append, none, nothing]
            refine ⟨by simp, by simp [Hub.System.returnedBy], ?_, [], ?_, ?_⟩
            · simpa [split, commandsOf] using first
            · rw [unread, List.append_nil]
            · exact Framing.Consumes.nil
          · apply before.frame
            · simp [resume, mine]
            · simp [resume, mine]
            · simp [resume, mine]
            · simp [split, commandsOf, resume]
            · rfl
            · simp [mine]
            · simp [Hub.System.returnedBy, resume, mine]
            · rfl
      | cmd conn command =>
          by_cases mine : id = conn
          · subst mine
            have one : commandsOf id server.hub.calls =
                commandsOf id earlier ++ command :: commandsOf id later := by
              simp [split, commandsOf]
            have busy : commandsOf id server.hub.calls ≠ [] := by simp [one]
            have submitting := Takes.submitting before busy
            simp only [TakesAt, Takes, submitting] at before
            rcases before with ⟨connected, alive, submitted, consumed, same, all, consumes⟩
            rw [one] at same
            rcases List.append_eq_singleton_iff.mp same with ⟨none, rest⟩ | ⟨_, impossible⟩
            · rcases List.cons.inj rest with ⟨rfl, idle⟩
              simp only [TakesAt, Takes, resume, update_conns_self, update_hub, pushed_append,
                pushed_accepted, arrived_append, arrived_hub, commandsOf_append, none, idle,
                List.append_nil]
              refine ⟨List.mem_append_left _ connected, List.mem_append_left _ alive, trivial,
                consumed, all, ?_⟩
              simpa [commandsOf] using consumes
            · cases impossible
          · apply before.frame
            · simp [resume, mine]
            · simp [resume, mine]
            · simp [resume, mine]
            · simp [split, commandsOf, resume, Ne.symm mine]
            · simp [commandsOf, Ne.symm mine]
            · simp
            · simp [Hub.System.returnedBy, resume]
            · rfl

/-! ## Every step -/

/-- A change of a connection that is none of its reader's business. -/
theorem TakesAt.update (before : TakesAt server trace id) (other : ConnId)
    {change : Conn → Conn}
    (keeps : ∀ conn, (change conn).reader = conn.reader ∧ (change conn).unread = conn.unread ∧
      (change conn).closed = conn.closed) : TakesAt (server.update other change) trace id := by
  by_cases mine : id = other
  · subst mine
    unfold TakesAt
    rw [update_conns_self]
    exact before.congr (keeps _).1 (keeps _).2.1 (keeps _).2.2
  · unfold TakesAt
    rw [update_conns_of_ne mine]
    exact before

theorem TakesAt.update_other (before : TakesAt server trace id) {other : ConnId}
    (differ : id ≠ other) (change : Conn → Conn) :
    TakesAt (server.update other change) trace id := by
  unfold TakesAt
  rw [update_conns_of_ne differ]
  exact before

/-- Bytes arrive from a client. -/
theorem TakesAt.arrive (before : TakesAt server trace id) (conn : ConnId) (bytes : Bytes) :
    TakesAt (server.step capacity (.arrive conn bytes)).1
      (trace ++ (server.step capacity (.arrive conn bytes)).2) id := by
  have stays : TakesAt server (trace ++ []) id := by
    rw [List.append_nil]
    exact before
  simp only [Server.step]
  split
  next ready =>
    by_cases mine : id = conn
    · subst mine
      have spawned : (server.conns id).reader ≠ .unspawned := by
        intro unspawned
        rw [unspawned] at ready
        cases ready.1
      simp only [TakesAt, update_conns_self, update_hub, pushed_append, arrived_append]
      have bytesOf : arrived id [.arrived id bytes] = bytes := by simp [arrived]
      have nothing : pushed [.arrived id bytes] = [] := rfl
      rw [bytesOf, nothing, List.append_nil]
      exact Takes.arrive before spawned (by simpa using ready.2) bytes
    · have silent : TakesAt server (trace ++ [.arrived conn bytes]) id :=
        before.frame_conn rfl rfl rfl rfl rfl (by simp [arrived, Ne.symm mine])
      exact silent.update_other mine fun conn => { conn with unread := conn.unread ++ bytes }
  next => exact stays

/-- An iteration of another reader. -/
theorem TakesAt.read_other (before : TakesAt server trace id) {other : ConnId}
    (differ : id ≠ other) :
    TakesAt (server.read capacity other).1 (trace ++ (server.read capacity other).2) id := by
  have stays : TakesAt server (trace ++ []) id := by
    rw [List.append_nil]
    exact before
  simp only [Server.read]
  split
  · split
    · split
      next command unread _ =>
        apply before.frame_hub capacity (.submit other command)
        · exact update_conns_of_ne differ (server.hubMove capacity (.submit other command)).1
            fun conn => { conn with reader := .submitting, unread }
        · rfl
        · simp only [Hub.System.step]
          split
          · simp [commandsOf, Ne.symm differ]
          · rfl
        · simp only [Hub.System.step]
          split <;> exact fun _ member => (by cases member)
        · simp only [Hub.System.step]
          split <;> rfl
      · exact before.readerEnds_other differ (.returned (.ok ()))
      next error _ => exact before.readerEnds_other differ (.returned (.error error))
    · exact stays
  all_goals exact stays

theorem send_keeps (event : Event) (conn : Conn) : (send event conn).reader = conn.reader ∧
    (send event conn).unread = conn.unread ∧ (send event conn).closed = conn.closed := by
  unfold send
  split <;> exact ⟨rfl, rfl, rfl⟩

/-- A step of the server keeps what every reader knows. -/
theorem TakesAt.step (before : TakesAt server trace id) (move : Move)
    (fresh : .connect id ∈ server.hub.calls → .connect id ∉ pushed trace) :
    TakesAt (server.step capacity move).1 (trace ++ (server.step capacity move).2) id := by
  have stays : TakesAt server (trace ++ []) id := by
    rw [List.append_nil]
    exact before
  cases move with
  | accept =>
      simp only [Server.step]
      split
      · exact before.frame_conn rfl rfl rfl rfl rfl rfl
      · exact stays
  | acceptFails =>
      simp only [Server.step]
      split <;> exact stays
  | shutdown =>
      simp only [Server.step]
      split
      · exact before.frame_conn rfl rfl rfl rfl rfl rfl
      · exact stays
  | expire =>
      simp only [Server.step]
      split <;> exact stays
  | finish =>
      simp only [Server.step]
      split
      · split <;> exact stays
      · exact stays
      · exact stays
  | dropHub =>
      simp only [Server.step]
      split
      · split
        · apply before.frame_hub capacity .stop
          · rfl
          · rfl
          · rfl
          · exact fun _ member => (by cases member)
          · rfl
        · exact stays
      · exact stays
      · exact stays
  | register =>
      simp only [Server.step]
      split
      · exact stays
      · apply before.frame_hub capacity .register
        · rfl
        · rfl
        · simp [Hub.System.step, commandsOf]
        · exact fun _ member => (by cases member)
        · rfl
  | push call => exact before.push call fresh
  | matcher =>
      simp only [Server.step]
      split
      next target event outgoing _ =>
        have same : TakesAt { server with outgoing } (trace ++ []) id := stays
        exact same.update target (send_keeps event)
      next =>
        rcases matcherStep_calls server.hub with ⟨calls, submitters⟩
        apply before.frame_hub capacity .matcher
        · rfl
        · rfl
        · exact congrArg (commandsOf id) calls
        · intro msg member
          rw [Hub.System.step, accepted_matcherStep] at member
          cases member
        · exact iff_of_eq (congrArg (id ∈ ·) submitters)
  | arrive conn bytes => exact before.arrive conn bytes
  | close conn =>
      by_cases mine : id = conn
      · subst mine
        simp only [Server.step, TakesAt, update_conns_self, update_hub, List.append_nil]
        exact Takes.close before
      · exact stays.update_other mine fun conn => { conn with closed := true }
  | read conn =>
      by_cases mine : id = conn
      · subst mine
        exact before.read
      · exact before.read_other mine
  | readFails conn =>
      simp only [Server.step]
      split
      next reading =>
        by_cases mine : id = conn
        · subst mine
          apply TakesAt.readerEnds rfl
          simp only [TakesAt, Takes, reading] at before
          rcases before with ⟨connected, _, idle, consumed, all, consumes⟩
          exact ⟨connected, idle, consumed, _, all, consumes⟩
        · exact before.readerEnds_other mine .failed
      all_goals exact stays
  | receive conn =>
      simp only [Server.step, receive]
      split
      · exact stays.update conn fun _ => ⟨rfl, rfl, rfl⟩
      · split
        · exact stays.update conn fun _ => ⟨rfl, rfl, rfl⟩
        · exact stays
      all_goals exact stays
  | write conn count =>
      simp only [Server.step, write]
      split
      next buf _ =>
        have silent : TakesAt server (trace ++ [.wrote conn (buf.take count)]) id :=
          before.frame_conn rfl rfl rfl rfl rfl rfl
        dsimp only
        apply silent.update conn
        exact fun _ => ⟨rfl, rfl, rfl⟩
      all_goals exact stays
  | writeFails conn =>
      simp only [Server.step]
      split
      · dsimp only
        apply stays.update conn
        exact fun _ => ⟨rfl, rfl, rfl⟩
      all_goals exact stays
  | endHandler conn =>
      simp only [Server.step]
      split
      · have same : TakesAt { server with handlers := server.handlers.erase conn } (trace ++ [])
          id := stays
        dsimp only
        apply same.update conn
        exact fun _ => ⟨rfl, rfl, rfl⟩
      · exact stays
  | abort conn =>
      simp only [Server.step]
      split <;> exact stays
  | abortSpawned =>
      simp only [Server.step]
      split <;> exact stays

end Server

end Bourse
