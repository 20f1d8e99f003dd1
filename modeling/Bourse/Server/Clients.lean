import Bourse.Server.Serving

/-!
# What the clients of a server see

The events that a client decodes are events of the one matcher, in the order in which it
emitted them and none of them twice.  A server at rest has handled every command that its
clients sent and has told them everything that concerns them.
-/

namespace Bourse

namespace Hub

variable {routes : OrderedMap ConnId Sender} {msgs : List Msg}

/-- No event goes to a connection twice. -/
theorem dispatch_nodup (agree : RoutesOf msgs routes) (orderOwner : OrderedMap OrderId ConnId)
    (conn : ConnId) (event : Event) : (dispatch routes orderOwner conn event).Nodup := by
  cases event with
  | accepted id qty seq =>
      rw [dispatch, agree.send]
      exact (List.nodup_singleton _).filter _
  | done id leavesQty reason seq =>
      rw [dispatch, agree.send]
      exact (List.nodup_singleton _).filter _
  | trade taker maker price qty seq =>
      rw [dispatch, agree.send, agree.send]
      by_cases apart : (orderOwner.get? maker).getD conn ≠ (orderOwner.get? taker).getD conn
      · rw [if_pos apart, ← List.filter_append]
        apply List.Nodup.filter
        simpa using Ne.symm apart
      · rw [if_neg apart, List.append_nil]
        exact (List.nodup_singleton _).filter _

theorem drain_nodup (agree : RoutesOf msgs routes) (orderOwner : OrderedMap OrderId ConnId)
    (conn : ConnId) (events : List Event) :
    ∀ sent ∈ (drain routes conn orderOwner events).2, sent.targets.Nodup := by
  induction events generalizing orderOwner with
  | nil => exact fun _ member => (by cases member)
  | cons event events ih =>
      intro sent member
      rcases List.mem_cons.mp member with rfl | later
      · exact dispatch_nodup agree orderOwner conn event
      · exact ih _ sent later

theorem run_nodup (msgs : List Msg) : ∀ sent ∈ (run msgs).2, sent.targets.Nodup := by
  induction msgs using List.reverseRecOn with
  | nil => exact fun _ member => (by cases member)
  | append_singleton msgs msg ih =>
      intro sent member
      rw [run_concat] at member
      rcases List.mem_append.mp member with before | now
      · exact ih sent before
      · cases msg with
        | connect conn => cases now
        | disconnect conn => cases now
        | cmd conn command => exact drain_nodup (run_routes msgs) _ conn _ sent now

theorem connect_mem_of_connected {conn : ConnId} (known : connected msgs conn = true) :
    .connect conn ∈ msgs := by
  induction msgs using List.reverseRecOn with
  | nil => cases known
  | append_singleton msgs msg ih =>
      rw [connected_concat] at known
      rw [List.mem_append, List.mem_singleton]
      cases msg with
      | connect id =>
          by_cases mine : id = conn
          · exact .inr (by rw [mine])
          · exact .inl (ih (by simpa [mine] using known))
      | disconnect id =>
          by_cases mine : id = conn
          · simp [mine] at known
          · exact .inl (ih (by simpa [mine] using known))
      | cmd id command => exact .inl (ih known)

/-- Events go to connections that are registered. -/
theorem dispatch_connected (agree : RoutesOf msgs routes) {orderOwner : OrderedMap OrderId ConnId}
    {conn target : ConnId} {event : Event}
    (member : target ∈ dispatch routes orderOwner conn event) : connected msgs target = true := by
  have known : ∀ other, target ∈ send routes other → connected msgs target = true := by
    intro other sent
    rw [agree.send] at sent
    rw [(List.mem_filter.mp sent).2]
  cases event with
  | accepted | done => exact known _ member
  | trade taker maker price qty seq =>
      rcases List.mem_append.mp member with first | second
      · exact known _ first
      · split at second
        · exact known _ second
        · cases second

theorem drain_connected (agree : RoutesOf msgs routes) {conn target : ConnId} {events : List Event}
    {orderOwner : OrderedMap OrderId ConnId} {sent : Sent}
    (member : sent ∈ (drain routes conn orderOwner events).2) (goes : target ∈ sent.targets) :
    connected msgs target = true := by
  induction events generalizing orderOwner with
  | nil => cases member
  | cons event events ih =>
      rcases List.mem_cons.mp member with rfl | later
      · exact dispatch_connected agree goes
      · exact ih later

theorem run_connected {sent : Sent} {target : ConnId} (member : sent ∈ (run msgs).2)
    (goes : target ∈ sent.targets) : .connect target ∈ msgs := by
  induction msgs using List.reverseRecOn with
  | nil => cases member
  | append_singleton msgs msg ih =>
      rw [run_concat] at member
      apply List.mem_append_left
      rcases List.mem_append.mp member with before | now
      · exact ih before
      · cases msg with
        | connect conn => cases now
        | disconnect conn => cases now
        | cmd conn command =>
            exact connect_mem_of_connected (drain_connected (run_routes msgs) now goes)

end Hub

namespace Server

variable {id : ConnId}

/-- A connection that was not registered is sent nothing. -/
theorem eventsFor_stranger {msgs : List Msg} (unknown : .connect id ∉ msgs) :
    eventsFor id msgs = [] := by
  apply List.filterMap_eq_nil_iff.mpr
  intro outgoing member
  rcases List.mem_flatMap.mp member with ⟨sent, emitted, target⟩
  rcases List.mem_map.mp target with ⟨conn, goes, rfl⟩
  have registered := Hub.run_connected emitted goes
  exact if_neg fun same : conn = id => unknown (same ▸ registered)

/-- An event that goes to nobody twice is sent to a connection at most once. -/
theorem eventsTo_targets {targets : List ConnId} (nodup : targets.Nodup) (id : ConnId)
    (event : Event) :
    (eventsTo id (targets.map fun target => (target, event))).Sublist [event] := by
  induction targets with
  | nil => exact List.nil_sublist _
  | cons target targets ih =>
      rcases List.nodup_cons.mp nodup with ⟨absent, rest⟩
      by_cases mine : target = id
      · subst mine
        have none : eventsTo target (targets.map fun target => (target, event)) = [] := by
          apply List.filterMap_eq_nil_iff.mpr
          intro outgoing member
          rcases List.mem_map.mp member with ⟨other, found, rfl⟩
          have other : other ≠ target := fun same => absent (same ▸ found)
          exact if_neg other
        simp only [eventsTo, List.map_cons, List.filterMap_cons, if_true] at none ⊢
        rw [none]
      · simpa [eventsTo, mine] using ih rest

theorem eventsTo_sublist {sents : List Sent} (nodup : ∀ sent ∈ sents, sent.targets.Nodup) :
    (eventsTo id (sendsOf sents)).Sublist (sents.map Sent.event) := by
  induction sents with
  | nil => exact List.nil_sublist _
  | cons sent sents ih =>
      have first := eventsTo_targets (nodup sent List.mem_cons_self) id sent.event
      have rest := ih fun other member => nodup other (List.mem_cons_of_mem sent member)
      rw [sendsOf, List.flatMap_cons, eventsTo_append, List.map_cons]
      exact first.append rest

/-- A connection is sent some of the events of the matcher, in their order. -/
theorem eventsFor_sublist (id : ConnId) (msgs : List Msg) :
    (eventsFor id msgs).Sublist (Matcher.new.run (Hub.commands msgs)).2 := by
  rw [← (Hub.run_matcher msgs).2]
  exact eventsTo_sublist (Hub.run_nodup msgs)

/-- The events of a run are numbered upwards. -/
theorem run_seq_lt {commands : List Command}
    (few : (Matcher.new.run commands).2.length < 2 ^ 64) :
    (Matcher.new.run commands).2.Pairwise fun earlier later => earlier.seq < later.seq := by
  have numbered : ∀ (pos : Nat) (event : Event),
      (Matcher.new.run commands).2[pos]? = some event → event.seq.get.toNat = 1 + pos := by
    intro pos event found
    rcases List.getElem?_eq_some_iff.mp found with ⟨bound, -⟩
    rw [Matcher.seq_of_getElem? found]
    apply toNat_add_ofNat
    change 1 + pos < 2 ^ 64
    omega
  apply List.pairwise_iff_getElem.mpr
  intro earlier later earlierBound laterBound less
  rw [Sequence.lt_iff, numbered earlier _ (List.getElem?_eq_getElem earlierBound),
    numbered later _ (List.getElem?_eq_getElem laterBound)]
  omega

/-! ## Replies -/

/-- A client decodes whole events only, in the order of the matcher and none of them twice. Where
what it has received breaks off inside a frame, it waits for the rest of that frame. -/
theorem run_replies (inboxCapacity : Nat) {moves : List Move}
    (few : moves.count .register < 2 ^ 64) {id : ConnId} {received : Bytes}
    (part : received <+: written id ((machine inboxCapacity).run moves).2) :
    let msgs := handled ((machine inboxCapacity).run moves).2
    let stream := (Matcher.new.run (Hub.commands msgs)).2
    ∃ events ending,
      Protocol.readServerMessages received = (events.map .execution, ending) ∧
      (ending = .ok () ∨ ending = .error .unexpectedEof) ∧
      events <+: eventsFor id msgs ∧ events.Sublist stream ∧
      (stream.length < 2 ^ 64 →
        events.Pairwise fun earlier later => earlier.seq < later.seq) := by
  intro msgs stream
  rcases run_serving inboxCapacity few with ⟨registered, _, serving⟩
  have decoded : ∀ event, Protocol.decodeReply (Protocol.serverBody (.execution event)) =
      .ok (Protocol.ServerMessage.execution event) := by
    intro event
    rw [Protocol.decodeReply, Protocol.decodeServer_serverBody]
  have frames : received <+:
      Framing.frames (fun event => Protocol.serverBody (.execution event)) (eventsFor id msgs) := by
    have whole := part.trans (Gives.within (serving.gives id))
    rw [Protocol.writerLoop_eq, Protocol.encodeAll_eq_frames Protocol.encodeServer_eq] at whole
    simpa only [Framing.frames, List.flatMap_map] using whole
  rcases Framing.readAll_prefix (fun event => Protocol.serverBody_fits (.execution event)) decoded
    (eventsFor id msgs) frames with ⟨whole, _, _, read⟩
  have sublist : ((eventsFor id msgs).take whole).Sublist stream :=
    (List.take_sublist _ _).trans (eventsFor_sublist id msgs)
  refine ⟨(eventsFor id msgs).take whole, _, read, ?_, List.take_prefix _ _, sublist, ?_⟩
  · split
    · exact .inl rfl
    · exact .inr rfl
  · intro fits
    exact (run_seq_lt fits).sublist sublist

/-- A client that has received a part of its second frame. -/
theorem run_replies_partial :
    let order : NewOrder := ⟨.new 7, .buy, .new 5, .market, .fromNanos 0⟩
    let moves : List Move := [.accept, .register, .push 0,
      .arrive ⟨1⟩ (Protocol.encodeClient (.newOrder order) []), .read ⟨1⟩, .push 0, .matcher,
      .matcher, .matcher, .matcher, .receive ⟨1⟩, .write ⟨1⟩ 40, .receive ⟨1⟩, .write ⟨1⟩ 6]
    moves.count .register < 2 ^ 64 ∧
      (Protocol.readServerMessages (written ⟨1⟩ ((machine 0).run moves).2)).1 =
        [.execution (.accepted (.new 7) (.new 5) (.fromRaw 1))] ∧
      ∃ events ending,
        Protocol.readServerMessages (written ⟨1⟩ ((machine 0).run moves).2) =
          (events.map .execution, ending) ∧
        events <+: eventsFor ⟨1⟩ (handled ((machine 0).run moves).2) := by
  intro order moves
  have few : moves.count .register < 2 ^ 64 := by decide
  rcases run_replies 0 few (List.prefix_refl (written ⟨1⟩ ((machine 0).run moves).2)) with
    ⟨events, ending, read, -, within, -⟩
  exact ⟨few, by decide +kernel, events, ending, read, within⟩

/-! ## A server at rest -/

/-- Nobody has anything left to do until more bytes arrive. -/
structure Quiet (server : Server) : Prop where
  inbox : server.hub.inbox = []
  calls : server.hub.calls = []
  outgoing : server.outgoing = []
  readers : ∀ id, (server.conns id).reader = .reading →
    Framing.complete (server.conns id).unread = false
  writers : ∀ id, (server.conns id).events = [] ∧ ∀ buf, (server.conns id).writer ≠ .writing buf

/-- A server at rest has handled every command of every whole frame that a client sent, unless
the socket failed, and has written every event to every client whose writer still runs. -/
theorem run_quiet (inboxCapacity : Nat) {moves : List Move}
    (few : moves.count .register < 2 ^ 64)
    (quiet : ((machine inboxCapacity).run moves).1.Quiet) (id : ConnId) :
    let server := ((machine inboxCapacity).run moves).1
    let trace := ((machine inboxCapacity).run moves).2
    handled trace = pushed trace ∧
    ((server.conns id).reader ≠ .failed →
      commandsOf id (handled trace) = (Protocol.readerLoop (arrived id trace)).1) ∧
    ((server.conns id).writer ≠ .ended →
      written id trace = Protocol.writerLoop (eventsFor id (handled trace))) := by
  intro server trace
  rcases run_serving inboxCapacity few with ⟨registered, _, serving⟩
  have all : handled trace = pushed trace := by
    have accounts := serving.accounts.inbox.accounts
    rw [quiet.inbox, List.append_nil] at accounts
    exact accounts.symm
  refine ⟨all, ?_, ?_⟩
  · intro working
    rw [all]
    apply Takes.rest (serving.takes id)
    · rw [quiet.calls]
      rfl
    · exact quiet.readers id
    · exact working
  · intro running
    have gives := serving.gives id
    unfold GivesAt at gives
    rw [quiet.outgoing] at gives
    exact Gives.rest gives (quiet.writers id).1 (quiet.writers id).2 running

/-- A connection that was not registered has no tasks and no events. -/
theorem Serving.stranger {capacity registered : Nat} {server : Server} {trace : List Mark}
    (serving : Serving capacity registered server trace) (sent : server.outgoing = [])
    (unknown : .connect id ∉ pushed trace) :
    (server.conns id).reader = .unspawned ∧ (server.conns id).writer = .unspawned ∧
      (server.conns id).events = [] := by
  have reader : (server.conns id).reader = .unspawned := by
    have takes := serving.takes id
    unfold TakesAt Takes at takes
    split at takes
    next unspawned => exact unspawned
    all_goals exact absurd takes.1 unknown
  have writer := serving.paired id reader
  have unhandled : .connect id ∉ handled trace := by
    intro member
    apply unknown
    rw [pushed, serving.accounts.inbox.accounts]
    exact List.mem_append_left _ member
  refine ⟨reader, writer, ?_⟩
  have gives := serving.gives id
  simp only [GivesAt, Gives, writer, sent, eventsFor_stranger unhandled] at gives
  have empty := (List.append_eq_nil_iff.mp gives).2
  cases events : (server.conns id).events with
  | nil => rfl
  | cons event rest =>
      rw [events, List.cons_append, writerLoop_cons, Protocol.encodeServer_eq] at empty
      have short := congrArg List.length (List.append_eq_nil_iff.mp empty).1
      simp [Framing.frame] at short

/-- A server with nothing under way whose connections all wait for their clients is at rest. -/
theorem Serving.quiet {capacity registered : Nat} {server : Server} {trace : List Mark}
    (serving : Serving capacity registered server trace) (inbox : server.hub.inbox = [])
    (calls : server.hub.calls = []) (sent : server.outgoing = [])
    (waits : ∀ id, .connect id ∈ pushed trace →
      server.conns id = ⟨.reading, .receiving, [], false, []⟩) : server.Quiet := by
  refine ⟨inbox, calls, sent, ?_, ?_⟩
  · intro id reading
    by_cases known : .connect id ∈ pushed trace
    · rw [waits id known]
      rfl
    · rw [(serving.stranger sent known).1] at reading
      cases reading
  · intro id
    by_cases known : .connect id ∈ pushed trace
    · rw [waits id known]
      exact ⟨rfl, fun buf same => (by cases same)⟩
    · rcases serving.stranger sent known with ⟨-, writer, events⟩
      rw [writer, events]
      exact ⟨rfl, fun buf same => (by cases same)⟩

/-- A client whose order was handled and who has been told what became of it. -/
theorem run_quiet_one_client :
    let order : NewOrder := ⟨.new 7, .buy, .new 5, .market, .fromNanos 0⟩
    let moves : List Move := [.accept, .register, .push 0,
      .arrive ⟨1⟩ (Protocol.encodeClient (.newOrder order) []), .read ⟨1⟩, .push 0, .matcher,
      .matcher, .matcher, .matcher, .receive ⟨1⟩, .write ⟨1⟩ 64, .receive ⟨1⟩, .write ⟨1⟩ 64]
    ((machine 0).run moves).1.Quiet ∧
      commandsOf ⟨1⟩ (handled ((machine 0).run moves).2) = [.new order] ∧
      written ⟨1⟩ ((machine 0).run moves).2 =
        Protocol.writerLoop [.accepted (.new 7) (.new 5) (.fromRaw 1),
          .done (.new 7) (.new 5) .noLiquidity (.fromRaw 2)] := by
  intro order moves
  have few : moves.count .register < 2 ^ 64 := by decide
  have client : ((machine 0).run moves).1.conns ⟨1⟩ = ⟨.reading, .receiving, [], false, []⟩ := by
    decide +kernel
  have pushes : pushed ((machine 0).run moves).2 = [.connect ⟨1⟩, .cmd ⟨1⟩ (.new order)] := by
    decide +kernel
  have inbox : ((machine 0).run moves).1.hub.inbox = [] := by decide +kernel
  have calls : ((machine 0).run moves).1.hub.calls = [] := by decide +kernel
  have sent : ((machine 0).run moves).1.outgoing = [] := by decide +kernel
  have quiet : ((machine 0).run moves).1.Quiet := by
    rcases run_serving 0 few with ⟨registered, _, serving⟩
    refine serving.quiet inbox calls sent ?_
    intro id known
    rw [pushes] at known
    have one : id = ⟨1⟩ := by simpa using known
    rw [one, client]
  have working : (((machine 0).run moves).1.conns ⟨1⟩).reader ≠ .failed := by
    rw [client]
    exact fun same => (by cases same)
  have running : (((machine 0).run moves).1.conns ⟨1⟩).writer ≠ .ended := by
    rw [client]
    exact fun same => (by cases same)
  have decoded : (Protocol.readerLoop (arrived ⟨1⟩ ((machine 0).run moves).2)).1 =
      [.new order] := by decide +kernel
  have told : eventsFor ⟨1⟩ (handled ((machine 0).run moves).2) =
      [.accepted (.new 7) (.new 5) (.fromRaw 1),
        .done (.new 7) (.new 5) .noLiquidity (.fromRaw 2)] := by decide +kernel
  rcases run_quiet 0 few quiet ⟨1⟩ with ⟨-, commands, events⟩
  have wrote := events running
  rw [told] at wrote
  exact ⟨quiet, (commands working).trans decoded, wrote⟩

end Server

end Bourse
