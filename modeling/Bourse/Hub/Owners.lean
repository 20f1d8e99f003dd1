import Bourse.Hub.Routing

/-!
# The owner map against the book

The hub notes the owner of a new order before the matcher has judged it, and drops the note
when it drains a `Done` for its id.  An observer of the event stream closes an order at the
same `Done`, so the noted ids stay among the open orders, and these are the resting ones.
-/

namespace Bourse

namespace Hub

/-- Every noted id is open. -/
def OwnersWithin (orderOwner : OrderedMap OrderId ConnId) (opened : OpenMap) : Prop :=
  ∀ id, orderOwner.containsKey id → opened.containsKey id

variable {orderOwner : OrderedMap OrderId ConnId} {opened after : OpenMap}
  {command : Command} {event : Event} {events : List Event}

/-- Dropping a note keeps the noted ids open if at most this id is closed. -/
theorem OwnersWithin.remove (within : OwnersWithin orderOwner opened) {id : OrderId}
    (closes : ∀ other, other ≠ id → opened.containsKey other → after.containsKey other) :
    OwnersWithin (orderOwner.remove id) after := by
  intro other noted
  rcases OrderedMap.containsKey_remove.mp noted with ⟨distinct, before⟩
  exact closes other distinct (within other before)

/-- A `Done` closes no order but the one it names. -/
theorem observe_done_keeps {id other : OrderId} {leavesQty : Qty} {reason : DoneReason}
    {seq : Sequence}
    (observed : observe opened (command, .done id leavesQty reason seq) = some after)
    (distinct : other ≠ id) (before : opened.containsKey other) : after.containsKey other := by
  have outcome : after = opened ∨ after = opened.remove id := by
    cases command <;> cases reason <;> simp only [observe] at observed <;> grind
  rcases outcome with rfl | rfl
  · exact before
  · exact OrderedMap.containsKey_remove.mpr ⟨distinct, before⟩

/-- Reading an event closes at most the orders whose note is dropped with it. -/
theorem OwnersWithin.release (within : OwnersWithin orderOwner opened)
    (observed : observe opened (command, event) = some after) :
    OwnersWithin (release orderOwner event) after := by
  cases event with
  | accepted id qty seq =>
      cases command with
      | cancel _ => cases observed
      | new order =>
          simp only [observe] at observed
          split at observed
          · cases observed
          · cases observed
            exact fun other noted => OrderedMap.containsKey_insert.mpr (Or.inr (within other noted))
  | trade taker maker price qty seq =>
      simp only [observe] at observed
      split at observed
      · cases observed
      split at observed
      next take make takerOpen makerOpen =>
        split at observed
        · cases observed
          intro other noted
          rw [OrderedMap.containsKey_insert, OrderedMap.containsKey_insert]
          exact Or.inr (Or.inr (within other noted))
        · cases observed
      next => cases observed
  | done id leavesQty reason seq =>
      exact within.remove fun other distinct before =>
        observe_done_keeps observed distinct before

/-- The same for all events of a command. -/
theorem OwnersWithin.drain (within : OwnersWithin orderOwner opened)
    (routes : OrderedMap ConnId Sender) (conn : ConnId)
    (observed : observeAll command opened events = some after) :
    OwnersWithin (drain routes conn orderOwner events).1 after := by
  induction events generalizing orderOwner opened with
  | nil =>
      cases observed
      exact within
  | cons event events ih =>
      rw [observeAll, List.foldlM_cons] at observed
      rcases Option.bind_eq_some_iff.mp observed with ⟨middle, first, rest⟩
      exact ih (within.release first) rest

/-- A new order is noted before its first event. That opens it, or drops the note again. -/
theorem OwnersWithin.accept (within : OwnersWithin orderOwner opened) {matcher : Matcher}
    {order : NewOrder} (routes : OrderedMap ConnId Sender) (conn : ConnId)
    (observed : observeAll (.new order) opened (matcher.accept order []).2 = some after) :
    OwnersWithin (Hub.drain routes conn (orderOwner.insert order.id conn)
      (matcher.accept order []).2).1 after := by
  by_cases admits : matcher.Admits order
  · rcases accept_events admits with ⟨rest, events, -⟩
    rw [events] at observed ⊢
    rw [observeAll, List.foldlM_cons] at observed
    rcases Option.bind_eq_some_iff.mp observed with ⟨middle, first, later⟩
    have noted : OwnersWithin (orderOwner.insert order.id conn) middle := by
      simp only [observe] at first
      split at first
      · cases first
      · cases first
        intro other noted
        rw [OrderedMap.containsKey_insert] at noted ⊢
        exact noted.imp_right (within other)
    have later : observeAll (.new order) middle rest = some after := later
    show OwnersWithin (Hub.drain routes conn (orderOwner.insert order.id conn) rest).1 after
    exact noted.drain routes conn later
  · have events : (matcher.accept order []).2 =
        [.done order.id order.qty .rejected matcher.seq.next.1] := by
      rw [Matcher.accept_of_not_admits admits]
      simp [Matcher.pushDone]
    rw [events] at observed ⊢
    have unchanged : after = opened := by
      simpa [observeAll, observe] using observed.symm
    intro other noted
    have kept := OrderedMap.containsKey_remove.mp noted
    rw [OrderedMap.containsKey_insert] at kept
    rw [unchanged]
    exact within other (kept.2.resolve_left kept.1)

/-! ## Whole runs -/

/-- The owner map is contained in what the observer of the matcher's events holds open. -/
structure Owned (hub : Hub) : Prop where
  wf : hub.matcher.book.WF
  within : ∃ opened, Matcher.Tracks opened hub.matcher.book ∧
    OwnersWithin hub.orderOwner opened

theorem Owned.handle {hub : Hub} (owned : hub.Owned) (msg : Msg) : (hub.handle msg).1.Owned := by
  rcases owned with ⟨wf, opened, tracks, within⟩
  cases msg with
  | connect id => exact ⟨wf, opened, tracks, within⟩
  | disconnect id => exact ⟨wf, opened, tracks, within⟩
  | cmd conn command =>
      rcases Matcher.handle_tracks wf tracks command with ⟨after, observed, tracksAfter⟩
      refine ⟨Matcher.handle_WF wf command [], after, tracksAfter, ?_⟩
      cases command with
      | new order => exact within.accept hub.routes conn observed
      | cancel id => exact within.drain hub.routes conn observed

theorem run_owned (msgs : List Msg) : (run msgs).1.Owned := by
  induction msgs using List.reverseRecOn with
  | nil =>
      refine ⟨Book.WF.new, OrderedMap.empty, ⟨?_, ?_⟩, fun id noted => noted⟩
      · intro id entry found
        cases found
      · intro resting member
        cases member
  | append_singleton msgs msg ih =>
      rw [run_concat]
      exact ih.handle msg

/-- Whatever messages come from whichever connections: after each of them every key of the
owner map is the id of a resting order. -/
theorem run_orderOwner_rests (msgs : List Msg) :
    ∀ id conn, (run msgs).1.orderOwner.get? id = some conn →
      ∃ resting ∈ (run msgs).1.matcher.book.iterResting, resting.id = id := by
  intro id conn noted
  rcases run_owned msgs with ⟨-, opened, tracks, within⟩
  rcases OrderedMap.containsKey_eq_true.mp
    (within id (OrderedMap.containsKey_eq_true.mpr ⟨conn, noted⟩)) with ⟨entry, found⟩
  rcases tracks.shows_open id entry found with ⟨resting, member, sameId, -⟩
  exact ⟨resting, member, sameId⟩

/-- A second tenant is refused the id of a resting order and takes its note away. Another order
still rests and is noted. -/
theorem run_orderOwner_rests_reused_id :
    let sell : NewOrder := ⟨.new 10, .sell, .new 5, .limit (.fromRaw 100), .fromNanos 0⟩
    let other : NewOrder := ⟨.new 11, .sell, .new 5, .limit (.fromRaw 101), .fromNanos 0⟩
    let msgs : List Msg := [.connect (.new 1), .connect (.new 2), .cmd (.new 1) (.new sell),
      .cmd (.new 1) (.new other), .cmd (.new 2) (.new sell)]
    (run msgs).1.orderOwner.get? (.new 10) = none ∧
      ∃ resting ∈ (run msgs).1.matcher.book.iterResting, resting.id = .new 11 := by
  intro sell other msgs
  exact ⟨by decide, run_orderOwner_rests msgs (.new 11) (.new 1) (by decide)⟩

end Hub

end Bourse
