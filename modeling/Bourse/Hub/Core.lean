import Bourse.Matcher.Run
import Mathlib.Data.List.Induction

/-!
# The multi-tenant hub

`matcher_loop` of `bourse-core/src/hub.rs`: one matcher fed by many connections.
The messages are taken in the order in which the inbox yields them.  `register`
creates the channel of a connection together with its id, so a channel is named by
the connection that reads it, and what a `send` does is recorded as that name.
-/

namespace Bourse

/-- Unique connection id. -/
structure ConnId where new ::
  get : UInt64
  deriving DecidableEq, Repr

namespace ConnId

theorem toNat_injective : Function.Injective fun id : ConnId => id.get.toNat := by
  intro left right equal
  cases left
  cases right
  exact congrArg ConnId.new (UInt64.toNat_inj.mp equal)

instance : LinearOrder ConnId := LinearOrder.lift' _ toNat_injective

end ConnId

/-- The sending half of a connection's channel. -/
structure Sender where
  reader : ConnId
  deriving DecidableEq, Repr

/-- What the inbox carries. -/
inductive Msg where
  | connect (id : ConnId)
  | disconnect (id : ConnId)
  | cmd (conn : ConnId) (command : Command)
  deriving DecidableEq, Repr

/-- An event that left the matcher: the connection whose command was being handled,
and the connections it was sent to, in the order of sending. -/
structure Sent where
  conn : ConnId
  event : Event
  targets : List ConnId
  deriving DecidableEq, Repr

/-- The local state of the matcher thread. -/
structure Hub where
  matcher : Matcher
  routes : OrderedMap ConnId Sender
  orderOwner : OrderedMap OrderId ConnId

namespace Hub

/-- The state before the first message. -/
def new : Hub := ⟨Matcher.new, .empty, .empty⟩

/-- Send to a connection if it has a route. -/
def send (routes : OrderedMap ConnId Sender) (target : ConnId) : List ConnId :=
  match routes.get? target with
  | some sender => [sender.reader]
  | none => []

/-- Where an event goes. An id without owner falls back to the current connection. -/
def dispatch (routes : OrderedMap ConnId Sender) (orderOwner : OrderedMap OrderId ConnId)
    (conn : ConnId) : Event → List ConnId
  | .accepted id _ _ | .done id _ _ _ => send routes ((orderOwner.get? id).getD conn)
  | .trade taker maker _ _ _ =>
      let takerConn := (orderOwner.get? taker).getD conn
      let makerConn := (orderOwner.get? maker).getD conn
      send routes takerConn ++
        if makerConn ≠ takerConn then send routes makerConn else []

/-- A `Done` ends the ownership of its id. -/
def release (orderOwner : OrderedMap OrderId ConnId) :
    Event → OrderedMap OrderId ConnId
  | .done id _ _ _ => orderOwner.remove id
  | .accepted _ _ _ | .trade _ _ _ _ _ => orderOwner

/-- Drain the events of one command. -/
def drain (routes : OrderedMap ConnId Sender) (conn : ConnId) :
    OrderedMap OrderId ConnId → List Event → OrderedMap OrderId ConnId × List Sent
  | orderOwner, [] => (orderOwner, [])
  | orderOwner, event :: events =>
      let sent := ⟨conn, event, dispatch routes orderOwner conn event⟩
      let (orderOwner, rest) := drain routes conn (release orderOwner event) events
      (orderOwner, sent :: rest)

/-- Process one message. The owner of a new order is recorded before the matcher
decides about it. -/
def handle (hub : Hub) : Msg → Hub × List Sent
  | .connect id => ({ hub with routes := hub.routes.insert id ⟨id⟩ }, [])
  | .disconnect id => ({ hub with routes := hub.routes.remove id }, [])
  | .cmd conn command =>
      let orderOwner :=
        match command with
        | .new order => hub.orderOwner.insert order.id conn
        | .cancel _ => hub.orderOwner
      let (matcher, events) := hub.matcher.handle command []
      let (orderOwner, sents) := drain hub.routes conn orderOwner events
      ({ hub with matcher, orderOwner }, sents)

/-- Process a list of messages, collecting everything that was sent. -/
def runFrom (state : Hub × List Sent) (msgs : List Msg) : Hub × List Sent :=
  msgs.foldl (fun state msg => ((state.1.handle msg).1, state.2 ++ (state.1.handle msg).2))
    state

/-- The run of a fresh hub. -/
def run (msgs : List Msg) : Hub × List Sent := runFrom (Hub.new, []) msgs

theorem run_concat (msgs : List Msg) (msg : Msg) :
    run (msgs ++ [msg]) =
      (((run msgs).1.handle msg).1, (run msgs).2 ++ ((run msgs).1.handle msg).2) := by
  simp [run, runFrom]

@[simp] theorem drain_events (routes : OrderedMap ConnId Sender) (conn : ConnId)
    (orderOwner : OrderedMap OrderId ConnId) (events : List Event) :
    (drain routes conn orderOwner events).2.map Sent.event = events := by
  induction events generalizing orderOwner with
  | nil => rfl
  | cons event events ih => simp [drain, ih]

theorem drain_conn {routes : OrderedMap ConnId Sender} {conn : ConnId}
    {orderOwner : OrderedMap OrderId ConnId} {events : List Event} {sent : Sent}
    (member : sent ∈ (drain routes conn orderOwner events).2) : sent.conn = conn := by
  induction events generalizing orderOwner with
  | nil => cases member
  | cons event events ih =>
      rcases List.mem_cons.mp member with rfl | later
      · rfl
      · exact ih later

/-- The commands among the messages. -/
def commands : List Msg → List Command :=
  List.filterMap fun msg =>
    match msg with
    | .cmd _ command => some command
    | .connect _ | .disconnect _ => none

theorem commands_append (msgs more : List Msg) :
    commands (msgs ++ more) = commands msgs ++ commands more :=
  List.filterMap_append

/-- The hub's matcher is fed the commands in the order of the messages. -/
theorem run_matcher (msgs : List Msg) :
    (run msgs).1.matcher = (Matcher.new.run (commands msgs)).1 ∧
      (run msgs).2.map Sent.event = (Matcher.new.run (commands msgs)).2 := by
  induction msgs using List.reverseRecOn with
  | nil => exact ⟨rfl, rfl⟩
  | append_singleton msgs msg ih =>
      rcases ih with ⟨matcher, events⟩
      cases msg with
      | connect id =>
          rw [run_concat, commands_append]
          simpa [handle, commands] using ⟨matcher, events⟩
      | disconnect id =>
          rw [run_concat, commands_append]
          simpa [handle, commands] using ⟨matcher, events⟩
      | cmd conn command =>
          have last : commands [.cmd conn command] = [command] := rfl
          rw [run_concat, commands_append, last, Matcher.run_concat, List.map_append]
          simp only [handle, drain_events, matcher, events, and_self]

end Hub

end Bourse
