import Bourse.Hub.Shutdown
import Bourse.Protocol.Stream

/-!
# The server

`bourse-server/src/lib.rs`: `serve_until`, `handle_connection`, `reader_loop` and
`writer_loop` around one hub.  Every task is cut at what others can see of it: a frame taken
from the socket, an attempt to push into the inbox, an event taken from the channel, some
bytes written to the socket.  A connection is named by the id that `register` hands out;
what its socket carried before is bytes that arrive later.
-/

namespace Bourse

namespace Server

/-- Where `reader_loop` is. A reader whose socket failed has no result of its own. -/
inductive Reader where
  | unspawned
  | reading
  | submitting
  | returned (result : Except Protocol.ReadError Unit)
  | failed
  deriving DecidableEq

/-- Where `writer_loop` is. `buf` is what `write_all` has still to write. -/
inductive Writer where
  | unspawned
  | receiving
  | writing (buf : Bytes)
  | ended
  deriving DecidableEq

/-- The two tasks of a connection, what its socket holds for the reader, whether the client
has closed its side, and the channel of its events. -/
structure Conn where
  reader : Reader
  writer : Writer
  unread : Bytes
  closed : Bool
  events : List Event
  deriving DecidableEq

/-- The reader task is finished, and with it the submitter that it owned. -/
def Reader.finished : Reader → Bool
  | .returned _ | .failed => true
  | .unspawned | .reading | .submitting => false

/-- The handler has spawned the reader task. -/
def Reader.spawned : Reader → Bool
  | .unspawned => false
  | .reading | .submitting | .returned _ | .failed => true

/-- A connection before its tasks are spawned. -/
def Conn.new : Conn := ⟨.unspawned, .unspawned, [], false, []⟩

/-- Where `serve_until` is. After the grace has expired it aborts its handlers; `ok` tells a
drained server from one whose `accept` failed. -/
inductive Phase where
  | accepting
  | draining (expired : Bool)
  | returned (ok : Bool)
  deriving DecidableEq, Repr

/-- Handlers that no longer await anything but their cancellation. -/
def Phase.aborts : Phase → Bool
  | .draining expired => expired
  | .returned ok => !ok
  | .accepting => false

end Server

/-- The server. `spawned` handlers have not called `register` yet, `handlers` have, and
`outgoing` is what the matcher thread has still to send of the message in hand. -/
structure Server where
  hub : Hub.System
  conns : ConnId → Server.Conn
  outgoing : List (ConnId × Event)
  spawned : Nat
  handlers : List ConnId
  phase : Server.Phase

namespace Server

/-- A step of one of the tasks, of a client, or of the network. -/
inductive Move where
  | accept
  | acceptFails
  | shutdown
  | expire
  | finish
  | dropHub
  | register
  | push (call : Nat)
  | matcher
  | arrive (conn : ConnId) (bytes : Bytes)
  | close (conn : ConnId)
  | read (conn : ConnId)
  | readFails (conn : ConnId)
  | receive (conn : ConnId)
  | write (conn : ConnId) (count : Nat)
  | writeFails (conn : ConnId)
  | endHandler (conn : ConnId)
  | abort (conn : ConnId)
  | abortSpawned
  deriving DecidableEq, Repr

/-- What a step leaves behind. -/
inductive Mark where
  | hub (mark : Hub.Mark)
  | accepted
  | shutdown
  | arrived (conn : ConnId) (bytes : Bytes)
  | wrote (conn : ConnId) (bytes : Bytes)
  deriving DecidableEq, Repr

/-- The server when the hub is started. -/
def start : Server := ⟨Hub.System.start, fun _ => Conn.new, [], 0, [], .accepting⟩

/-- Change one connection. -/
def update (server : Server) (conn : ConnId) (change : Conn → Conn) : Server :=
  { server with conns := Function.update server.conns conn (change (server.conns conn)) }

/-- A move of the hub that concerns no task. -/
def hubMove (capacity : Nat) (server : Server) (move : Hub.Move) : Server × List Mark :=
  ({ server with hub := (server.hub.step capacity move).1 },
    (server.hub.step capacity move).2.map .hub)

/-- What a successful push lets continue: `register` returns and the tasks are spawned, or
`submit` returns and the reader reads on. -/
def resume (server : Server) : Hub.Mark → Server
  | .inbox (.accepted (.connect id)) =>
      server.update id fun conn => { conn with reader := .reading, writer := .receiving }
  | .inbox (.accepted (.cmd id _)) =>
      server.update id fun conn => { conn with reader := .reading }
  | .inbox (.accepted (.disconnect _)) | .inbox (.rejected _) | .inbox (.popped _)
  | .inbox .empty | .stopped => server

/-- The sends of events that left the matcher, in order. -/
def sendsOf (sents : List Sent) : List (ConnId × Event) :=
  sents.flatMap fun sent => sent.targets.map fun target => (target, sent.event)

/-- The sends that a message taken from the inbox leads to. -/
def sends (hub : Hub) : Hub.Mark → List (ConnId × Event)
  | .inbox (.popped msg) => sendsOf (hub.handle msg).2
  | .inbox (.accepted _) | .inbox (.rejected _) | .inbox .empty | .stopped => []

/-- A send to a channel, which is lost if the receiver is gone. -/
def send (event : Event) (conn : Conn) : Conn :=
  match conn.writer with
  | .ended => conn
  | .unspawned | .receiving | .writing _ => { conn with events := conn.events ++ [event] }

/-- The matcher thread has returned, and with it the routes are gone. -/
def matcherGone : Hub.Pc → Bool
  | .returned _ => true
  | .pop _ | .loadStop => false

/-- All senders of a connection are gone. -/
def hungUp (server : Server) (conn : ConnId) : Bool :=
  !server.hub.inbox.contains (.connect conn) &&
    ((server.hub.hub.routes.get? conn).isNone || matcherGone server.hub.pc)

/-- The reader of the connection is finished, which drops its submitter. -/
def readerEnds (capacity : Nat) (server : Server) (id : ConnId) (reader : Reader) :
    Server × List Mark :=
  let (server, marks) := server.hubMove capacity (.drop id)
  (server.update id fun conn => { conn with reader }, marks)

/-- One iteration of `reader_loop`, if the socket has what it waits for. -/
def read (capacity : Nat) (server : Server) (id : ConnId) : Server × List Mark :=
  let conn := server.conns id
  match conn.reader with
  | .reading =>
      if conn.closed ∨ Framing.complete conn.unread then
        match Framing.readFrame .unexpectedEof Protocol.decodeCommand conn.unread with
        | .ok (some (command, unread)) =>
            let (server, marks) := server.hubMove capacity (.submit id command)
            (server.update id fun conn => { conn with reader := .submitting, unread }, marks)
        | .ok none => server.readerEnds capacity id (.returned (.ok ()))
        | .error error => server.readerEnds capacity id (.returned (.error error))
      else (server, [])
  | .unspawned | .submitting | .returned _ | .failed => (server, [])

/-- `writer_loop` takes an event, or ends when no sender is left. -/
def receive (server : Server) (id : ConnId) : Server :=
  match (server.conns id).writer, (server.conns id).events with
  | .receiving, event :: events =>
      let buf := Protocol.encodeServer (.execution event) []
      server.update id fun conn => { conn with writer := .writing buf, events }
  | .receiving, [] =>
      if server.hungUp id then server.update id fun conn => { conn with writer := .ended }
      else server
  | .unspawned, _ | .writing _, _ | .ended, _ => server

/-- Some bytes of `write_all`. -/
def write (server : Server) (id : ConnId) (count : Nat) : Server × List Mark :=
  match (server.conns id).writer with
  | .writing buf =>
      let writer := if buf.length ≤ count then .receiving else .writing (buf.drop count)
      (server.update id fun conn => { conn with writer }, [.wrote id (buf.take count)])
  | .unspawned | .receiving | .ended => (server, [])

/-- One step. -/
def step (capacity : Nat) (server : Server) : Move → Server × List Mark
  | .accept =>
      if server.phase = .accepting then
        ({ server with spawned := server.spawned + 1 }, [.accepted])
      else (server, [])
  | .acceptFails =>
      if server.phase = .accepting then ({ server with phase := .returned false }, [])
      else (server, [])
  | .shutdown =>
      if server.phase = .accepting then ({ server with phase := .draining false }, [.shutdown])
      else (server, [])
  | .expire =>
      if server.phase = .draining false then ({ server with phase := .draining true }, [])
      else (server, [])
  | .finish =>
      match server.phase with
      | .draining _ =>
          if server.spawned = 0 ∧ server.handlers = [] then
            ({ server with phase := .returned true }, [])
          else (server, [])
      | .accepting | .returned _ => (server, [])
  | .dropHub =>
      match server.phase with
      | .returned _ =>
          if server.spawned = 0 ∧ server.handlers = [] then server.hubMove capacity .stop
          else (server, [])
      | .accepting | .draining _ => (server, [])
  | .register =>
      match server.spawned with
      | 0 => (server, [])
      | spawned + 1 =>
          let handlers := server.handlers ++ [⟨server.hub.nextConn⟩]
          ({ server with spawned, handlers }).hubMove capacity .register
  | .push call =>
      let marks := (server.hub.step capacity (.push call)).2
      (marks.foldl resume (server.hubMove capacity (.push call)).1, marks.map .hub)
  | .matcher =>
      match server.outgoing with
      | (target, event) :: outgoing =>
          (({ server with outgoing }).update target (send event), [])
      | [] =>
          let marks := (server.hub.step capacity .matcher).2
          ({ server with outgoing := marks.flatMap (sends server.hub.hub) }).hubMove capacity
            .matcher
  | .arrive id bytes =>
      if (server.conns id).reader.spawned ∧ ¬ (server.conns id).closed then
        (server.update id fun conn => { conn with unread := conn.unread ++ bytes },
          [.arrived id bytes])
      else (server, [])
  | .close id => (server.update id fun conn => { conn with closed := true }, [])
  | .read id => server.read capacity id
  | .readFails id =>
      match (server.conns id).reader with
      | .reading => server.readerEnds capacity id .failed
      | .unspawned | .submitting | .returned _ | .failed => (server, [])
  | .receive id => (server.receive id, [])
  | .write id count => server.write id count
  | .writeFails id =>
      match (server.conns id).writer with
      | .writing _ => (server.update id fun conn => { conn with writer := .ended }, [])
      | .unspawned | .receiving | .ended => (server, [])
  | .endHandler id =>
      if id ∈ server.handlers ∧ (server.conns id).reader.finished then
        let server := { server with handlers := server.handlers.erase id }
        (server.update id fun conn => { conn with writer := .ended }, [])
      else (server, [])
  | .abort id =>
      if (server.conns id).reader.spawned ∧ server.phase.aborts then
        ({ server with handlers := server.handlers.erase id }, [])
      else (server, [])
  | .abortSpawned =>
      if server.phase.aborts then ({ server with spawned := server.spawned - 1 }, [])
      else (server, [])

end Server

end Bourse
