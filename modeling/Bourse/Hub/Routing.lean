import Bourse.Hub.Core
import Bourse.Matcher.Lifecycle

/-!
# Event routing

Who should receive an event is read off the history: the connection whose command
was being handled when the order it names was last accepted.  The hub instead asks
its owner map, which follows the open orders as long as no new order carries the
id of an order that is resting.
-/

namespace Bourse

namespace Hub

/-! ## Who should receive an event -/

/-- The last message about `conn` is its `Connect`. -/
def connected (msgs : List Msg) (conn : ConnId) : Bool :=
  msgs.foldl (fun status msg =>
    match msg with
    | .connect id => if id = conn then true else status
    | .disconnect id => if id = conn then false else status
    | .cmd _ _ => status) false

/-- The connection that submitted the order last accepted under `id`. -/
def submitter (sents : List Sent) (id : OrderId) : Option ConnId :=
  sents.foldl (fun last sent =>
    match sent.event with
    | .accepted opened _ _ => if opened = id then some sent.conn else last
    | .trade _ _ _ _ _ | .done _ _ _ _ => last) none

/-- The event went once to everyone who should receive it and to nobody else.
`past` ends with the event itself, `msgs` are the messages before the current one. -/
def Routed (msgs : List Msg) (past : List Sent) (sent : Sent) : Prop :=
  match sent.event with
  | .accepted id _ _ => ∃ conn, submitter past id = some conn ∧
      sent.targets = [conn].filter (connected msgs)
  | .done _ _ .rejected _ => sent.targets = [sent.conn].filter (connected msgs)
  | .done id _ _ _ => ∃ conn, submitter past id = some conn ∧
      sent.targets = [conn].filter (connected msgs)
  | .trade taker maker _ _ _ => ∃ takerConn makerConn,
      submitter past taker = some takerConn ∧ submitter past maker = some makerConn ∧
      sent.targets = (if makerConn = takerConn then [takerConn]
        else [takerConn, makerConn]).filter (connected msgs)

/-- Every event of a list that follows `past` is routed. -/
def AllRouted (msgs : List Msg) (past sents : List Sent) : Prop :=
  ∀ before sent after, sents = before ++ sent :: after →
    Routed msgs (past ++ before ++ [sent]) sent

theorem AllRouted.nil (msgs : List Msg) (past : List Sent) : AllRouted msgs past [] := by
  intro before sent after split
  cases before <;> cases split

theorem AllRouted.cons {msgs : List Msg} {past rest : List Sent} {sent : Sent}
    (first : Routed msgs (past ++ [sent]) sent)
    (others : AllRouted msgs (past ++ [sent]) rest) :
    AllRouted msgs past (sent :: rest) := by
  intro before other after split
  cases before with
  | nil =>
      cases split
      simpa using first
  | cons head before =>
      cases split
      simpa using others before other after rfl

/-! ## The history one event at a time -/

theorem submitter_accepted (past : List Sent) (conn : ConnId) (id : OrderId) (qty : Qty)
    (seq : Sequence) (targets : List ConnId) (other : OrderId) :
    submitter (past ++ [⟨conn, .accepted id qty seq, targets⟩]) other =
      if id = other then some conn else submitter past other := by
  simp [submitter]

/-- An event that reports on an accepted order. -/
def Settles : Event → Prop
  | .accepted _ _ _ => False
  | .trade _ _ _ _ _ => True
  | .done _ _ reason _ => reason ≠ .rejected

theorem submitter_settles (past : List Sent) {sent : Sent} (settles : Settles sent.event)
    (id : OrderId) : submitter (past ++ [sent]) id = submitter past id := by
  rcases sent with ⟨conn, event, targets⟩
  cases event with
  | accepted opened qty seq => exact settles.elim
  | trade taker maker price qty seq => simp [submitter]
  | done closed leaves reason seq => simp [submitter]

/-- The routes are those of the connected connections. -/
def RoutesOf (msgs : List Msg) (routes : OrderedMap ConnId Sender) : Prop :=
  ∀ conn, routes.get? conn = if connected msgs conn then some ⟨conn⟩ else none

theorem RoutesOf.send {msgs : List Msg} {routes : OrderedMap ConnId Sender}
    (agree : RoutesOf msgs routes) (conn : ConnId) :
    send routes conn = [conn].filter (connected msgs) := by
  rw [Hub.send, agree conn]
  cases status : connected msgs conn <;> simp [status]

/-- The owner map knows the submitter of every open order. -/
def Owns (opened : OpenMap) (orderOwner : OrderedMap OrderId ConnId)
    (past : List Sent) : Prop :=
  ∀ id entry, opened.get? id = some entry → ∃ conn,
    orderOwner.get? id = some conn ∧ submitter past id = some conn

/-! ## Draining the events of a command -/

variable {msgs : List Msg} {routes : OrderedMap ConnId Sender} {conn : ConnId}
  {opened next : OpenMap} {orderOwner : OrderedMap OrderId ConnId} {past : List Sent}
  {command : Command}

/-- Both parties of an observed trade are open and stay so. -/
theorem open_of_trade {taker maker : OrderId} {price : Price} {qty : Qty} {seq : Sequence}
    (observed : observe opened (command, .trade taker maker price qty seq) = some next) :
    (∃ entry, opened.get? taker = some entry) ∧ (∃ entry, opened.get? maker = some entry) ∧
      ∀ id entry, next.get? id = some entry → ∃ entry, opened.get? id = some entry := by
  cases command <;> {
    simp only [observe] at observed
    split at observed
    · cases observed
    · split at observed
      next take make takerOpen makerOpen =>
        split at observed
        · cases observed
          refine ⟨⟨take, takerOpen⟩, ⟨make, makerOpen⟩, ?_⟩
          intro id entry found
          rw [OrderedMap.get?_insert] at found
          split at found
          next isMaker => exact ⟨make, isMaker ▸ makerOpen⟩
          next =>
            rw [OrderedMap.get?_insert] at found
            split at found
            next isTaker => exact ⟨take, isTaker ▸ takerOpen⟩
            next => exact ⟨entry, found⟩
        · cases observed
      next => cases observed }

/-- An observed `Done` that is not a reject closes an open order. -/
theorem open_of_done {id : OrderId} {leavesQty : Qty} {reason : DoneReason}
    {seq : Sequence} (accepted : reason ≠ .rejected)
    (observed : observe opened (command, .done id leavesQty reason seq) = some next) :
    (∃ entry, opened.get? id = some entry) ∧ next = opened.remove id := by
  cases command <;> cases reason <;> first
    | exact absurd rfl accepted
    | (simp only [observe] at observed
       split at observed
       next entry found =>
         split at observed
         · cases observed
           exact ⟨⟨entry, found⟩, rfl⟩
         · cases observed
       next => cases observed)

/-- One event about accepted orders. -/
theorem dispatch_settles {event : Event} (conn : ConnId) (agree : RoutesOf msgs routes)
    (owns : Owns opened orderOwner past) (settles : Settles event)
    (observed : observe opened (command, event) = some next) :
    Routed msgs (past ++ [⟨conn, event, dispatch routes orderOwner conn event⟩])
        ⟨conn, event, dispatch routes orderOwner conn event⟩ ∧
      Owns next (release orderOwner event)
        (past ++ [⟨conn, event, dispatch routes orderOwner conn event⟩]) := by
  have sameSubmitter := submitter_settles past
    (show Settles (Sent.mk conn event (dispatch routes orderOwner conn event)).event
      from settles)
  generalize targets : dispatch routes orderOwner conn event = sentTo at *
  cases event with
  | accepted id qty seq => exact settles.elim
  | trade taker maker price qty seq =>
      rcases open_of_trade observed with ⟨⟨take, takerOpen⟩, ⟨make, makerOpen⟩, still⟩
      rcases owns taker take takerOpen with ⟨takerConn, takerOwner, takerSubmitter⟩
      rcases owns maker make makerOpen with ⟨makerConn, makerOwner, makerSubmitter⟩
      refine ⟨⟨takerConn, makerConn, ?_, ?_, ?_⟩, ?_⟩
      · rw [sameSubmitter, takerSubmitter]
      · rw [sameSubmitter, makerSubmitter]
      · simp only [← targets, dispatch, takerOwner, makerOwner, Option.getD_some, agree.send]
        by_cases same : makerConn = takerConn
        · simp [same]
        · simp only [ne_eq, same, not_false_eq_true, if_true, if_false]
          rw [← List.filter_append]
          rfl
      · intro id entry found
        rcases still id entry found with ⟨before, wasOpen⟩
        rw [sameSubmitter]
        exact owns id before wasOpen
  | done id leavesQty reason seq =>
      rcases open_of_done settles observed with ⟨⟨entry, wasOpen⟩, rfl⟩
      rcases owns id entry wasOpen with ⟨owner, owned, submitted⟩
      have sent : sentTo = [owner].filter (connected msgs) := by
        rw [← targets, dispatch, owned, Option.getD_some, agree.send]
      refine ⟨?_, ?_⟩
      · cases reason with
        | rejected => exact absurd rfl settles
        | _ => exact ⟨owner, (sameSubmitter id).trans submitted, sent⟩
      · intro other remaining found
        rw [OrderedMap.get?_remove] at found
        split at found
        · cases found
        next distinct =>
          rw [release, OrderedMap.get?_remove, if_neg distinct, sameSubmitter]
          exact owns other remaining found

/-- Draining events about accepted orders. -/
theorem drain_settles {events : List Event} (conn : ConnId) (agree : RoutesOf msgs routes)
    (settles : ∀ event ∈ events, Settles event) (owns : Owns opened orderOwner past)
    (observed : observeAll command opened events = some next) :
    AllRouted msgs past (drain routes conn orderOwner events).2 ∧
      Owns next (drain routes conn orderOwner events).1
        (past ++ (drain routes conn orderOwner events).2) := by
  induction events generalizing opened orderOwner past with
  | nil =>
      have unchanged : opened = next := by simpa [observeAll] using observed
      subst unchanged
      refine ⟨AllRouted.nil _ _, ?_⟩
      simpa [drain] using owns
  | cons event events ih =>
      rcases Option.bind_eq_some_iff.mp
        (show (observe opened (command, event) >>= fun middle =>
          observeAll command middle events) = some next by
            simpa [observeAll] using observed) with ⟨middle, observedOne, observedRest⟩
      rcases dispatch_settles conn agree owns (settles event List.mem_cons_self)
        observedOne with ⟨routed, ownsMiddle⟩
      rcases ih (fun other member => settles other (List.mem_cons_of_mem _ member))
        ownsMiddle observedRest with ⟨rest, ownsNext⟩
      refine ⟨AllRouted.cons routed rest, ?_⟩
      simpa [drain] using ownsNext

/-- Draining the events of an accepted order whose id was not open. -/
theorem drain_accepted {order : NewOrder} {qty : Qty} {seq : Sequence}
    {rest : List Event} (conn : ConnId) (agree : RoutesOf msgs routes)
    (owns : Owns opened orderOwner past) (closed : opened.get? order.id = none)
    (settles : ∀ event ∈ rest, Settles event)
    (observed : observeAll (.new order) opened (.accepted order.id qty seq :: rest) =
      some next) :
    let drained := drain routes conn (orderOwner.insert order.id conn)
      (.accepted order.id qty seq :: rest)
    AllRouted msgs past drained.2 ∧ Owns next drained.1 (past ++ drained.2) := by
  intro drained
  have owner : (orderOwner.insert order.id conn).get? order.id = some conn := by
    simp [OrderedMap.get?_insert]
  have step : observe opened (.new order, .accepted order.id qty seq) =
      some (opened.insert order.id ⟨order, qty, seq⟩) := by
    simp [observe, OrderedMap.containsKey_eq_false.mpr closed]
  have observedRest : observeAll (.new order) (opened.insert order.id ⟨order, qty, seq⟩)
      rest = some next := by
    simpa [observeAll, step] using observed
  have ownsFirst : Owns (opened.insert order.id ⟨order, qty, seq⟩)
      (orderOwner.insert order.id conn)
      (past ++ [⟨conn, .accepted order.id qty seq, [conn].filter (connected msgs)⟩]) := by
    intro id entry found
    rw [submitter_accepted, OrderedMap.get?_insert]
    rw [OrderedMap.get?_insert] at found
    by_cases sameId : id = order.id
    · simp [sameId]
    · rw [if_neg sameId] at found ⊢
      rw [if_neg (Ne.symm sameId)]
      exact owns id entry found
  have sent : dispatch routes (orderOwner.insert order.id conn) conn
      (.accepted order.id qty seq) = [conn].filter (connected msgs) := by
    rw [dispatch, owner, Option.getD_some, agree.send]
  rcases drain_settles conn agree settles ownsFirst observedRest with
    ⟨routedRest, ownsRest⟩
  simp only [drained, drain, sent, release]
  refine ⟨AllRouted.cons ⟨conn, ?_, rfl⟩ routedRest, ?_⟩
  · simp [submitter_accepted]
  · simpa using ownsRest

/-- Draining the reject of an order whose id was not open. -/
theorem drain_rejected {id : OrderId} {qty : Qty} {seq : Sequence} (conn : ConnId)
    (agree : RoutesOf msgs routes) (owns : Owns opened orderOwner past)
    (closed : opened.get? id = none) :
    let drained := drain routes conn (orderOwner.insert id conn)
      [.done id qty .rejected seq]
    AllRouted msgs past drained.2 ∧ Owns opened drained.1 (past ++ drained.2) := by
  intro drained
  have owner : (orderOwner.insert id conn).get? id = some conn := by
    simp [OrderedMap.get?_insert]
  have sent : dispatch routes (orderOwner.insert id conn) conn (.done id qty .rejected seq) =
      [conn].filter (connected msgs) := by
    rw [dispatch, owner, Option.getD_some, agree.send]
  simp only [drained, drain, sent, release]
  refine ⟨AllRouted.cons rfl (AllRouted.nil _ _), ?_⟩
  intro other entry found
  have distinct : other ≠ id := by
    intro sameId
    rw [sameId, closed] at found
    cases found
  rw [OrderedMap.get?_remove, if_neg distinct, OrderedMap.get?_insert, if_neg distinct]
  simpa [submitter] using owns other entry found

/-! ## The events of a command -/

theorem accept_events {matcher : Matcher} {order : NewOrder}
    (admits : matcher.Admits order) :
    ∃ rest, (matcher.accept order []).2 =
        .accepted order.id order.qty matcher.peekSeq :: rest ∧
      ∀ event ∈ rest, Settles event := by
  have extend : ∀ {out : List Event} {event : Event}, Settles event →
      (∃ rest, out = .accepted order.id order.qty matcher.peekSeq :: rest ∧
        ∀ event ∈ rest, Settles event) →
      ∃ rest, out ++ [event] = .accepted order.id order.qty matcher.peekSeq :: rest ∧
        ∀ event ∈ rest, Settles event := by
    intro out event settles shape
    rcases shape with ⟨rest, rfl, others⟩
    refine ⟨rest ++ [event], rfl, ?_⟩
    intro other member
    rcases List.mem_append.mp member with member | member
    · exact others other member
    · rw [List.mem_singleton.mp member]
      exact settles
  have looped := (Matcher.matchLoop order).run_invariant
    (fun walk => ∃ rest, walk.out = .accepted order.id order.qty matcher.peekSeq :: rest ∧
      ∀ event ∈ rest, Settles event)
    (by
      intro walk next step shape
      rcases Matcher.matchBody_cases step with
        ⟨price, front, rest, -, -, -, -, ⟨-, rfl⟩ | ⟨-, rfl⟩⟩
      · exact extend (by simp [Settles]) (extend trivial shape)
      · exact extend trivial shape)
    (matcher.opening order []) ⟨[], rfl, by simp⟩
  rw [Matcher.accept_of_admits admits]
  rcases Matcher.settle_cases order matcher.peekSeq
      ((Matcher.matchLoop order).run (matcher.opening order [])) with
    ⟨-, settled⟩ | ⟨-, price, -, settled⟩ | ⟨-, -, settled⟩
  · rw [settled]
    exact extend (by simp [Settles]) looped
  · rw [settled]
    exact looped
  · rw [settled]
    exact extend order.kind.remainderReason_ne_rejected looped

theorem cancel_events (matcher : Matcher) (id : OrderId) :
    ∀ event ∈ (matcher.cancel id []).2, Settles event := by
  intro event member
  unfold Matcher.cancel at member
  split at member
  · rw [List.mem_singleton.mp member]
    simp [Settles]
  · cases member

/-! ## One message -/

/-- A new order's id does not rest in the book. -/
def freshId (hub : Hub) : Msg → Bool
  | .cmd _ (.new order) => !hub.matcher.book.contains order.id
  | .cmd _ (.cancel _) | .connect _ | .disconnect _ => true

/-- What a hub whose owner map follows the open orders keeps true. -/
structure Consistent (msgs : List Msg) (hub : Hub) (past : List Sent) : Prop where
  wf : hub.matcher.book.WF
  routes : RoutesOf msgs hub.routes
  owners : ∃ opened, Matcher.Tracks opened hub.matcher.book ∧
    Owns opened hub.orderOwner past

theorem accept_routed {hub : Hub} {order : NewOrder} (conn : ConnId)
    (consistent : Consistent msgs hub past)
    (fresh : hub.matcher.book.contains order.id = false) :
    AllRouted msgs past (hub.handle (.cmd conn (.new order))).2 ∧
      ∃ opened, Matcher.Tracks opened
          (hub.handle (.cmd conn (.new order))).1.matcher.book ∧
        Owns opened (hub.handle (.cmd conn (.new order))).1.orderOwner
          (past ++ (hub.handle (.cmd conn (.new order))).2) := by
  rcases consistent.owners with ⟨opened, tracks, owns⟩
  rcases Matcher.accept_tracks consistent.wf tracks order with ⟨next, observed, tracksNext⟩
  have closed : opened.get? order.id = none := by
    cases found : opened.get? order.id with
    | none => rfl
    | some entry =>
        rcases tracks.shows_open _ _ found with ⟨resting, member, sameId, -⟩
        have present := consistent.wf.contains_iff.mpr ⟨resting, member, sameId⟩
        rw [fresh] at present
        cases present
  suffices drained : AllRouted msgs past (drain hub.routes conn
        (hub.orderOwner.insert order.id conn) (hub.matcher.accept order []).2).2 ∧
      Owns next (drain hub.routes conn (hub.orderOwner.insert order.id conn)
          (hub.matcher.accept order []).2).1
        (past ++ (drain hub.routes conn (hub.orderOwner.insert order.id conn)
          (hub.matcher.accept order []).2).2) from
    ⟨drained.1, next, tracksNext, drained.2⟩
  by_cases admits : hub.matcher.Admits order
  · rcases accept_events admits with ⟨rest, events, settles⟩
    rw [events] at observed ⊢
    exact drain_accepted conn consistent.routes owns closed settles observed
  · rw [Matcher.accept_of_not_admits admits] at observed ⊢
    have unchanged : opened = next := by
      simpa [Matcher.pushDone, observeAll, observe] using observed
    rw [← unchanged]
    exact drain_rejected conn consistent.routes owns closed

theorem connected_concat (msgs : List Msg) (msg : Msg) (conn : ConnId) :
    connected (msgs ++ [msg]) conn =
      match msg with
      | .connect id => if id = conn then true else connected msgs conn
      | .disconnect id => if id = conn then false else connected msgs conn
      | .cmd _ _ => connected msgs conn := by
  cases msg <;> simp [connected]

/-- The routes follow the messages, whatever the matcher does with the commands. -/
theorem RoutesOf.handle {hub : Hub} (agree : RoutesOf msgs hub.routes) (msg : Msg) :
    RoutesOf (msgs ++ [msg]) (hub.handle msg).1.routes := by
  intro conn
  rw [connected_concat]
  cases msg with
  | connect id =>
      simp only [Hub.handle, OrderedMap.get?_insert, agree conn]
      by_cases same : conn = id
      · simp [same]
      · simp [same, Ne.symm same]
  | disconnect id =>
      simp only [Hub.handle, OrderedMap.get?_remove, agree conn]
      by_cases same : conn = id
      · simp [same]
      · simp [same, Ne.symm same]
  | cmd sender command => exact agree conn

theorem run_routes (msgs : List Msg) : RoutesOf msgs (run msgs).1.routes := by
  induction msgs using List.reverseRecOn with
  | nil => exact fun conn => rfl
  | append_singleton msgs msg ih =>
      rw [run_concat]
      exact ih.handle msg

/-- A message that brings no resting id keeps the hub consistent, and everything
it sends is routed. -/
theorem handle_routed {hub : Hub} (consistent : Consistent msgs hub past) {msg : Msg}
    (fresh : hub.freshId msg = true) :
    AllRouted msgs past (hub.handle msg).2 ∧
      Consistent (msgs ++ [msg]) (hub.handle msg).1 (past ++ (hub.handle msg).2) := by
  cases msg with
  | connect id =>
      refine ⟨AllRouted.nil _ _, consistent.wf, consistent.routes.handle _, ?_⟩
      simpa [handle] using consistent.owners
  | disconnect id =>
      refine ⟨AllRouted.nil _ _, consistent.wf, consistent.routes.handle _, ?_⟩
      simpa [handle] using consistent.owners
  | cmd conn command =>
      have routes := consistent.routes.handle (.cmd conn command)
      have wf := Matcher.handle_WF consistent.wf command []
      cases command with
      | new order =>
          have absent : hub.matcher.book.contains order.id = false := by
            simpa [freshId] using fresh
          rcases accept_routed conn consistent absent with ⟨routed, owners⟩
          exact ⟨routed, wf, routes, owners⟩
      | cancel id =>
          rcases consistent.owners with ⟨opened, tracks, owns⟩
          rcases Matcher.cancel_tracks consistent.wf tracks id with
            ⟨next, observed, tracksNext⟩
          rcases drain_settles conn consistent.routes
            (cancel_events hub.matcher id) owns observed with ⟨routed, ownsNext⟩
          exact ⟨routed, wf, routes, next, tracksNext, ownsNext⟩

/-! ## Whole runs -/

/-- No message of the list brings an id that rests when the message is handled. -/
def freshIds (hub : Hub) : List Msg → Bool
  | [] => true
  | msg :: msgs => hub.freshId msg && (hub.handle msg).1.freshIds msgs

theorem freshIds_append (hub : Hub) (past : List Sent) (msgs more : List Msg) :
    hub.freshIds (msgs ++ more) =
      (hub.freshIds msgs && (runFrom (hub, past) msgs).1.freshIds more) := by
  induction msgs generalizing hub past with
  | nil => simp [freshIds, runFrom]
  | cons msg msgs ih =>
      rw [List.cons_append, freshIds, freshIds, ih _ (past ++ (hub.handle msg).2),
        Bool.and_assoc]
      rfl

theorem run_consistent {msgs : List Msg} (fresh : Hub.new.freshIds msgs = true) :
    Consistent msgs (run msgs).1 (run msgs).2 := by
  induction msgs using List.reverseRecOn with
  | nil =>
      refine ⟨Book.WF.new, fun conn => rfl, OrderedMap.empty, ⟨?_, ?_⟩, ?_⟩
      · intro id entry found
        cases found
      · intro resting member
        cases member
      · intro id entry found
        cases found
  | append_singleton msgs msg ih =>
      rw [freshIds_append Hub.new [] msgs [msg], Bool.and_eq_true] at fresh
      rw [run_concat]
      have now : (run msgs).1.freshId msg = true := by
        simpa [freshIds, run] using fresh.2
      exact (handle_routed (ih fresh.1) now).2

/-- In every run in which no new order carries the id of an order that rests when
it is handled, the events of the matcher are sent to exactly those who should
receive them, at every message of the run. -/
theorem run_routed {msgs : List Msg} (fresh : Hub.new.freshIds msgs = true) :
    (run msgs).1.matcher = (Matcher.new.run (commands msgs)).1 ∧
    (run msgs).2.map Sent.event = (Matcher.new.run (commands msgs)).2 ∧
    ∀ before msg after, msgs = before ++ msg :: after →
      run (before ++ [msg]) = (((run before).1.handle msg).1,
        (run before).2 ++ ((run before).1.handle msg).2) ∧
      AllRouted before (run before).2 ((run before).1.handle msg).2 ∧
      ∀ sent ∈ ((run before).1.handle msg).2, ∃ command, msg = .cmd sent.conn command := by
  refine ⟨(run_matcher msgs).1, (run_matcher msgs).2, ?_⟩
  intro before msg after split
  rw [split, freshIds_append Hub.new [] before (msg :: after), Bool.and_eq_true,
    freshIds, Bool.and_eq_true] at fresh
  refine ⟨run_concat before msg, (handle_routed (run_consistent fresh.1) fresh.2.1).1, ?_⟩
  intro sent member
  cases msg with
  | connect id => cases member
  | disconnect id => cases member
  | cmd conn command => exact ⟨command, by rw [drain_conn member]⟩

/-- Two tenants trade and each of them receives its own events. -/
theorem run_routed_two_tenants :
    let sell : NewOrder := ⟨.new 1, .sell, .new 1, .limit (.fromRaw 100), .fromNanos 0⟩
    let buy : NewOrder := ⟨.new 2, .buy, .new 1, .limit (.fromRaw 100), .fromNanos 0⟩
    let before : List Msg := [.connect (.new 1), .connect (.new 2), .cmd (.new 1) (.new sell)]
    let msg : Msg := .cmd (.new 2) (.new buy)
    Hub.new.freshIds (before ++ [msg]) = true ∧
      ((run before).1.handle msg).2.map Sent.targets =
        [[.new 2], [.new 2, .new 1], [.new 1], [.new 2]] ∧
      AllRouted before (run before).2 ((run before).1.handle msg).2 := by
  intro sell buy before msg
  have fresh : Hub.new.freshIds (before ++ [msg]) = true := by decide
  exact ⟨fresh, by decide, ((run_routed fresh).2.2 before msg [] rfl).2.1⟩

/-- A second tenant reuses the id of the first tenant's resting order. The reject
takes the owner entry away, and the first tenant never hears of its trade. -/
theorem run_routed_reused_id :
    let sell : NewOrder := ⟨.new 10, .sell, .new 5, .limit (.fromRaw 100), .fromNanos 0⟩
    let buy : NewOrder := ⟨.new 11, .buy, .new 5, .limit (.fromRaw 100), .fromNanos 0⟩
    let before : List Msg := [.connect (.new 1), .connect (.new 2),
      .cmd (.new 1) (.new sell), .cmd (.new 2) (.new sell)]
    ¬AllRouted before (run before).2 ((run before).1.handle (.cmd (.new 2) (.new buy))).2 := by
  intro sell buy before routed
  have trade := routed [⟨.new 2, .accepted (.new 11) (.new 5) (.fromRaw 3), [.new 2]⟩]
    ⟨.new 2, .trade (.new 11) (.new 10) (.fromRaw 100) (.new 5) (.fromRaw 4), [.new 2]⟩
    [⟨.new 2, .done (.new 10) Qty.zero .filled (.fromRaw 5), [.new 2]⟩,
      ⟨.new 2, .done (.new 11) Qty.zero .filled (.fromRaw 6), [.new 2]⟩] (by decide)
  rcases trade with ⟨takerConn, makerConn, taker, maker, targets⟩
  have takerIs : takerConn = .new 2 := Option.some.inj (taker.symm.trans (by decide))
  have makerIs : makerConn = .new 1 := Option.some.inj (maker.symm.trans (by decide))
  rw [takerIs, makerIs] at targets
  revert targets
  decide

end Hub

end Bourse
