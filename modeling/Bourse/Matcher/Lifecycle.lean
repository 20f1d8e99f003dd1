import Bourse.Matcher.Invariant

/-!
# Order lifecycles seen from the event stream

An observer who only reads the event stream keeps a map of open orders:
`Accepted` opens an id, a `Trade` lowers both open quantities, and a `Done` that
is not a reject closes its id.  The observer never gets stuck, and what it holds
open is exactly the book.
-/

namespace Bourse

/-- An open order: the command that opened it, what is left of it, and the
sequence number of its `Accepted` event. -/
structure OpenOrder where
  order : NewOrder
  qty : Qty
  seq : Sequence
  deriving DecidableEq, Repr

/-- The observer's map of open orders. -/
abbrev OpenMap := OrderedMap OrderId OpenOrder

/-- Read one event, emitted while handling `tagged.1`. The observer is stuck
(`none`) when an id is opened twice, a trade is empty, one-sided or larger than an
open quantity, or a `Done` does not report what is left of an open order. -/
def observe (opened : OpenMap) (tagged : Command × Event) : Option OpenMap :=
  match tagged with
  | (.new order, .accepted id qty seq) =>
      if opened.containsKey id then none else some (opened.insert id ⟨order, qty, seq⟩)
  | (.cancel _, .accepted _ _ _) => none
  | (_, .trade taker maker _ qty _) =>
      if qty = Qty.zero ∨ taker = maker then none
      else
        match opened.get? taker, opened.get? maker with
        | some take, some make =>
            if qty ≤ take.qty ∧ qty ≤ make.qty then
              some ((opened.insert taker
                  { take with qty := take.qty.saturatingSub qty }).insert maker
                { make with qty := make.qty.saturatingSub qty })
            else none
        | _, _ => none
  | (_, .done _ _ .rejected _) => some opened
  | (_, .done id leavesQty _ _) =>
      match opened.get? id with
      | some entry => if entry.qty = leavesQty then some (opened.remove id) else none
      | none => none

/-- Read a list of events emitted while handling one command. -/
def observeAll (command : Command) (opened : OpenMap) (events : List Event) :
    Option OpenMap :=
  events.foldlM (fun opened event => observe opened (command, event)) opened

namespace Matcher

/-- The event stream of a run, each event with the command that emitted it. -/
def tagged (matcher : Matcher) : List Command → List (Command × Event)
  | [] => []
  | command :: commands =>
      (matcher.handle command []).2.map (Prod.mk command) ++
        (matcher.handle command []).1.tagged commands

theorem tagged_events (matcher : Matcher) (commands : List Command) :
    (matcher.tagged commands).map Prod.snd = (matcher.run commands).2 := by
  induction commands generalizing matcher with
  | nil => rfl
  | cons command commands ih =>
      rw [tagged, List.map_append, ih, run_cons]
      simp [Function.comp_def]

/-! ## The open map against the book -/

/-- The entry describes the order that rests under `id`. -/
def Shows (book : Book) (id : OrderId) (entry : OpenOrder) : Prop :=
  ∃ resting ∈ book.iterResting, resting.id = id ∧ resting.qty = entry.qty ∧
    resting.seq = entry.seq ∧ resting.side = entry.order.side ∧
    entry.order.kind.limitPrice = some resting.price ∧ entry.order.id = id

/-- The open orders are exactly the resting orders. -/
structure Tracks (opened : OpenMap) (book : Book) : Prop where
  shows_open : ∀ id entry, opened.get? id = some entry → Shows book id entry
  open_of_rests : ∀ resting ∈ book.iterResting, ∃ entry,
    opened.get? resting.id = some entry

variable {book : Book} {opened base : OpenMap} {side : Side} {price : Price}

/-- The entry of a queued order carries the order's quantity. -/
theorem Tracks.entry_of_queued (tracks : Tracks opened book) (wf : book.WF)
    {order : Order} (queued : order ∈ book.queue side price) :
    ∃ entry, opened.get? order.id = some entry ∧ entry.qty = order.qty ∧
      entry.seq = order.seq ∧ entry.order.side = side ∧
      entry.order.kind.limitPrice = some price ∧ entry.order.id = order.id := by
  have rests := Book.mem_queue.mp queued
  rcases tracks.open_of_rests _ rests with ⟨entry, found⟩
  rcases tracks.shows_open _ _ found with
    ⟨resting, member, sameId, qtyEq, seqEq, sideEq, limit, idEq⟩
  have equal := wf.resting_unique member rests sameId
  subst equal
  exact ⟨entry, found, qtyEq.symm, seqEq.symm, sideEq.symm, limit, idEq⟩

theorem Tracks.removed (tracks : Tracks opened book) (wf : book.WF)
    {before after : Level} {order : Order}
    (queued : book.queue side price = before ++ order :: after) :
    Tracks (opened.remove order.id)
      (book.place side price (before ++ after) (book.index.remove order.id)) where
  shows_open id entry found := by
    rw [OrderedMap.get?_remove] at found
    split at found
    · cases found
    next distinct =>
      rcases tracks.shows_open id entry found with ⟨resting, member, rfl, rest⟩
      exact ⟨resting, (wf.mem_iterResting_removed queued).mpr ⟨member, distinct⟩,
        rfl, rest⟩
  open_of_rests resting member := by
    rcases (wf.mem_iterResting_removed queued).mp member with ⟨member, distinct⟩
    rw [OrderedMap.get?_remove, if_neg distinct]
    exact tracks.open_of_rests resting member

theorem Tracks.reduced (tracks : Tracks opened book) (wf : book.WF) {front : Order}
    {rest : Level} {qty : Qty} {entry : OpenOrder}
    (queued : book.queue side price = front :: rest)
    (found : opened.get? front.id = some entry) :
    Tracks (opened.insert front.id { entry with qty })
      (book.place side price ({ front with qty } :: rest) book.index) where
  shows_open id shown present := by
    rw [OrderedMap.get?_insert] at present
    split at present
    next sameId =>
      subst sameId
      cases present
      rcases tracks.entry_of_queued wf (show front ∈ book.queue side price by
          rw [queued]; exact List.mem_cons_self) with
        ⟨known, knownFound, -, seqEq, sideEq, limit, idEq⟩
      rw [found] at knownFound
      cases knownFound
      exact ⟨_, (wf.mem_iterResting_reduced queued).mpr (Or.inl rfl), rfl, rfl,
        seqEq.symm, sideEq.symm, limit, idEq⟩
    next distinct =>
      rcases tracks.shows_open id shown present with ⟨resting, member, rfl, rest⟩
      exact ⟨resting, (wf.mem_iterResting_reduced queued).mpr
        (Or.inr ⟨member, distinct⟩), rfl, rest⟩
  open_of_rests resting member := by
    rw [OrderedMap.get?_insert]
    rcases (wf.mem_iterResting_reduced queued).mp member with rfl | ⟨member, distinct⟩
    · exact ⟨_, if_pos rfl⟩
    · rw [if_neg distinct]
      exact tracks.open_of_rests resting member

theorem Tracks.added (tracks : Tracks opened book) {order : NewOrder} {qty : Qty}
    {seq : Sequence} (fresh : ¬book.Refuses order.id qty)
    (rests : order.kind.restingPrice = some price) :
    Tracks (opened.insert order.id ⟨order, qty, seq⟩)
      (book.add order.id order.side price qty seq).1 where
  shows_open id entry found := by
    rw [OrderedMap.get?_insert] at found
    split at found
    next sameId =>
      subst sameId
      cases found
      exact ⟨_, (Book.mem_iterResting_add fresh).mpr (Or.inl rfl), rfl, rfl, rfl, rfl,
        OrderKind.limitPrice_of_restingPrice rests, rfl⟩
    next distinct =>
      rcases tracks.shows_open id entry found with ⟨resting, member, rest⟩
      exact ⟨resting, (Book.mem_iterResting_add fresh).mpr (Or.inr member), rest⟩
  open_of_rests resting member := by
    rw [OrderedMap.get?_insert]
    rcases (Book.mem_iterResting_add fresh).mp member with rfl | member
    · exact ⟨_, if_pos rfl⟩
    · split
      · exact ⟨_, rfl⟩
      · exact tracks.open_of_rests resting member

/-! ## Reading the events of the matching loop -/

/-- A trade between an open taker and an open maker lowers both. -/
theorem observe_trade (command : Command) {taker maker : OrderId} (price : Price)
    {qty : Qty} (seq : Sequence) {take make : OpenOrder} (positive : qty ≠ Qty.zero)
    (distinct : maker ≠ taker) (found : base.get? maker = some make)
    (takeCovers : qty ≤ take.qty) (makeCovers : qty ≤ make.qty) :
    observe (base.insert taker take) (command, .trade taker maker price qty seq) =
      some ((base.insert maker { make with qty := make.qty.saturatingSub qty }).insert
        taker { take with qty := take.qty.saturatingSub qty }) := by
  have takerOpen : (base.insert taker take).get? taker = some take := by
    rw [OrderedMap.get?_insert, if_pos rfl]
  have makerOpen : (base.insert taker take).get? maker = some make := by
    rw [OrderedMap.get?_insert, if_neg distinct, found]
  cases command <;>
    (simp only [observe, positive, Ne.symm distinct, or_self, if_false, takerOpen,
      makerOpen, takeCovers, makeCovers, and_self, if_true, Option.some.injEq]
     apply OrderedMap.ext_get?
     intro id
     simp only [OrderedMap.get?_insert]
     by_cases isTaker : id = taker <;> by_cases isMaker : id = maker <;>
       simp_all)

/-- A `Done` that reports what is left of an open order closes it. -/
theorem observe_done {command : Command} {id : OrderId} {entry : OpenOrder}
    {leavesQty : Qty} {reason : DoneReason} {seq : Sequence}
    (found : opened.get? id = some entry) (leaves : entry.qty = leavesQty)
    (notRejected : reason ≠ .rejected) :
    observe opened (command, .done id leavesQty reason seq) =
      some (opened.remove id) := by
  cases command <;> cases reason <;> simp_all [observe]

/-- While an order is being matched it is open with what remains of it, beside the
orders of the book. -/
def WalkTracks (order : NewOrder) (receiveSeq : Sequence) (opened : OpenMap)
    (walk : Walk) : Prop :=
  ∃ base, Tracks base walk.matcher.book ∧ base.get? order.id = none ∧
    observeAll (.new order) opened walk.out =
      some (base.insert order.id ⟨order, walk.remaining, receiveSeq⟩)

theorem observeAll_append {command : Command} {opened middle : OpenMap}
    {events more : List Event} (first : observeAll command opened events = some middle) :
    observeAll command opened (events ++ more) = observeAll command middle more := by
  simp only [observeAll] at first ⊢
  rw [List.foldlM_append, first]
  rfl

theorem observeAll_singleton {command : Command} {opened : OpenMap} {event : Event} :
    observeAll command opened [event] = observe opened (command, event) := by
  simp [observeAll]

theorem matchBody_walkTracks {order : NewOrder} {receiveSeq : Sequence} {walk next : Walk}
    (wf : walk.matcher.book.WF) (step : matchBody order walk = some next)
    (tracks : WalkTracks order receiveSeq opened walk) :
    WalkTracks order receiveSeq opened next := by
  rcases tracks with ⟨base, tracksBase, closed, observed⟩
  rcases matchBody_cases step with ⟨price, front, rest, -, -, queued, wanted, exhausted | filled⟩
  all_goals
    have frontQueued : front ∈ walk.matcher.book.queue order.side.opposite price := by
      rw [queued]; exact List.mem_cons_self
    rcases tracksBase.entry_of_queued wf frontQueued with ⟨make, makeOpen, makeQty, -⟩
    have distinct : front.id ≠ order.id := by
      intro sameId
      rw [sameId, closed] at makeOpen
      cases makeOpen
  · rcases exhausted with ⟨covers, rfl⟩
    -- The maker is lowered to zero by the trade and closed by its `Done`.
    have trade := observe_trade (.new order) price walk.matcher.seq.next.1
      (wf.positive _ _ front frontQueued) distinct makeOpen
      (show front.qty ≤ (⟨order, walk.remaining, receiveSeq⟩ : OpenOrder).qty from covers)
      (le_of_eq makeQty.symm)
    refine ⟨base.remove front.id, tracksBase.removed wf
      (show walk.matcher.book.queue order.side.opposite price = [] ++ front :: rest from
        queued), ?_, ?_⟩
    · rw [OrderedMap.get?_remove]
      split
      · rfl
      · exact closed
    · have makerOpen : ((base.insert front.id { make with
            qty := make.qty.saturatingSub front.qty }).insert order.id
          ⟨order, walk.remaining.saturatingSub front.qty, receiveSeq⟩).get? front.id =
          some { make with qty := make.qty.saturatingSub front.qty } := by
        rw [OrderedMap.get?_insert, if_neg distinct, OrderedMap.get?_insert, if_pos rfl]
      have nothing : make.qty.saturatingSub front.qty = Qty.zero := by
        rw [Qty.eq_iff, makeQty]
        simp
      simp only [Walk.exhaust, pushTrade, pushDone]
      rw [List.append_assoc, observeAll_append observed,
        observeAll_append (observeAll_singleton.trans trade), observeAll_singleton,
        observe_done makerOpen nothing (by decide), Option.some.injEq]
      apply OrderedMap.ext_get?
      intro id
      simp only [OrderedMap.get?_insert, OrderedMap.get?_remove]
      by_cases isTaker : id = order.id <;> by_cases isMaker : id = front.id <;>
        simp_all
  · rcases filled with ⟨short, rfl⟩
    have trade := observe_trade (.new order) price walk.matcher.seq.next.1
      wanted distinct makeOpen
      (show walk.remaining ≤ (⟨order, walk.remaining, receiveSeq⟩ : OpenOrder).qty from
        le_rfl)
      (by rw [makeQty]; exact short.le)
    have none_left : walk.remaining.saturatingSub walk.remaining = Qty.zero :=
      Qty.eq_iff.mpr (by simp)
    refine ⟨base.insert front.id { make with
        qty := make.qty.saturatingSub walk.remaining }, ?_, ?_, ?_⟩
    · rw [makeQty]
      exact tracksBase.reduced wf queued makeOpen
    · rw [OrderedMap.get?_insert, if_neg (Ne.symm distinct)]
      exact closed
    · simp only [Walk.fill, pushTrade]
      rw [observeAll_append observed, observeAll_singleton, trade, none_left]

/-- The events of one command take the observer from a map that tracks the book to
one that tracks the book after the command. -/
theorem accept_tracks {matcher : Matcher} (wf : matcher.book.WF)
    (tracks : Tracks opened matcher.book) (order : NewOrder) :
    ∃ after, observeAll (.new order) opened (matcher.accept order []).2 = some after ∧
      Tracks after (matcher.accept order []).1.book := by
  by_cases admits : matcher.Admits order
  · rw [accept_of_admits admits]
    rcases admits with ⟨-, fresh, -⟩
    have closed : opened.get? order.id = none := by
      cases found : opened.get? order.id with
      | none => rfl
      | some entry =>
          rcases tracks.shows_open _ _ found with ⟨resting, member, sameId, -⟩
          rw [wf.contains_iff.mpr ⟨resting, member, sameId⟩] at fresh
          cases fresh
    have start : WalkTracks order matcher.peekSeq opened (matcher.opening order []) := by
      refine ⟨opened, tracks, closed, ?_⟩
      simp [opening, observeAll, observe, OrderedMap.containsKey, closed]
    -- The id of the taker stays out of the book while it is matched.
    rcases matchLoop_invariant order (WalkTracks order matcher.peekSeq opened)
        (fun _ _ wf step => matchBody_walkTracks wf step)
        (show (matcher.opening order []).matcher.book.WF from wf) start with
      ⟨finalWF, base, tracksBase, takerClosed, observed⟩
    generalize (matchLoop order).run (matcher.opening order []) = final at *
    have takerOpen : (base.insert order.id ⟨order, final.remaining, matcher.peekSeq⟩).get?
        order.id = some ⟨order, final.remaining, matcher.peekSeq⟩ := by
      rw [OrderedMap.get?_insert, if_pos rfl]
    have taken : (base.insert order.id
        ⟨order, final.remaining, matcher.peekSeq⟩).remove order.id = base := by
      apply OrderedMap.ext_get?
      intro id
      rw [OrderedMap.get?_remove, OrderedMap.get?_insert]
      split
      next sameId => rw [sameId, takerClosed]
      next => rfl
    rcases settle_cases order matcher.peekSeq final with
      ⟨filled, settled⟩ | ⟨left, price, rests, settled⟩ | ⟨-, -, settled⟩
    · refine ⟨base, ?_, ?_⟩
      · rw [settled, pushDone, observeAll_append observed, observeAll_singleton,
          observe_done takerOpen filled (by decide), taken]
      · rw [settled]
        exact tracksBase
    · refine ⟨_, by rw [settled]; exact observed, ?_⟩
      rw [settled]
      refine tracksBase.added ?_ rests
      intro refused
      rcases refused with zero | present
      · exact left zero
      · rcases OrderedMap.containsKey_eq_true.mp present with ⟨located, indexed⟩
        rcases (finalWF.indexed _ _ _).mp indexed with ⟨queuedOrder, queued, sameId⟩
        rcases tracksBase.entry_of_queued finalWF queued with ⟨entry, found, -⟩
        rw [sameId, takerClosed] at found
        cases found
    · refine ⟨base, ?_, ?_⟩
      · rw [settled, pushDone, observeAll_append observed, observeAll_singleton,
          observe_done takerOpen rfl order.kind.remainderReason_ne_rejected, taken]
      · rw [settled]
        exact tracksBase
  · rw [accept_of_not_admits admits]
    refine ⟨opened, ?_, tracks⟩
    simp [pushDone, observeAll, observe]

theorem cancel_tracks {matcher : Matcher} (wf : matcher.book.WF)
    (tracks : Tracks opened matcher.book) (id : OrderId) :
    ∃ after, observeAll (.cancel id) opened (matcher.cancel id []).2 = some after ∧
      Tracks after (matcher.cancel id []).1.book := by
  cases indexed : matcher.book.index.get? id with
  | none =>
      refine ⟨opened, ?_, ?_⟩ <;> rw [cancel, Book.cancel_of_absent indexed]
      · rfl
      · exact tracks
  | some located =>
      rcases wf.cancel_of_indexed indexed with ⟨before, order, after, queued, rfl, cancelled⟩
      rcases tracks.entry_of_queued wf
        (show order ∈ matcher.book.queue located.1 located.2 by simp [queued]) with
        ⟨entry, found, qtyEq, -⟩
      refine ⟨opened.remove order.id, ?_, ?_⟩ <;> rw [cancel, cancelled]
      · simp only [pushDone, List.nil_append]
        rw [observeAll_singleton, observe_done found qtyEq (by decide)]
      · exact tracks.removed wf queued

theorem handle_tracks {matcher : Matcher} (wf : matcher.book.WF)
    (tracks : Tracks opened matcher.book) (command : Command) :
    ∃ after, observeAll command opened (matcher.handle command []).2 = some after ∧
      Tracks after (matcher.handle command []).1.book := by
  cases command with
  | new order => exact accept_tracks wf tracks order
  | cancel id => exact cancel_tracks wf tracks id

/-! ## Whole runs -/

theorem run_tracks {matcher : Matcher} (wf : matcher.book.WF)
    (tracks : Tracks opened matcher.book) (commands : List Command) :
    ∃ after, (matcher.tagged commands).foldlM observe opened = some after ∧
      Tracks after (matcher.run commands).1.book := by
  induction commands generalizing matcher opened with
  | nil => exact ⟨opened, rfl, tracks⟩
  | cons command commands ih =>
      rcases handle_tracks wf tracks command with ⟨middle, observed, tracksMiddle⟩
      rcases ih (handle_WF wf command []) tracksMiddle with ⟨after, observedRest, tracksAfter⟩
      refine ⟨after, ?_, by rw [run_cons]; exact tracksAfter⟩
      rw [tagged, List.foldlM_append, List.foldlM_map]
      simp only [observeAll] at observed
      rw [observed]
      exact observedRest

/-- The observer of a run from `Matcher::new` never gets stuck, and after the run
the orders it holds open are the resting orders: same remaining quantity, the side
and price of the command that opened them, the sequence number of their
`Accepted`. -/
theorem run_lifecycle (commands : List Command) :
    let book := (Matcher.new.run commands).1.book
    (Matcher.new.tagged commands).map Prod.snd = (Matcher.new.run commands).2 ∧
    ∃ opened, (Matcher.new.tagged commands).foldlM observe OrderedMap.empty =
        some opened ∧
      (∀ id, (∃ entry, opened.get? id = some entry) ↔
        ∃ resting ∈ book.iterResting, resting.id = id) ∧
      ∀ id entry, opened.get? id = some entry →
        ∃ resting ∈ book.iterResting, resting.id = id ∧ resting.qty = entry.qty ∧
          resting.seq = entry.seq ∧ resting.side = entry.order.side ∧
          entry.order.kind.limitPrice = some resting.price ∧ entry.order.id = id := by
  intro book
  have start : Tracks OrderedMap.empty Matcher.new.book := by
    refine ⟨?_, ?_⟩
    · intro id entry found
      cases found
    · intro resting member
      cases member
  rcases run_tracks Book.WF.new start commands with ⟨opened, observed, tracks⟩
  refine ⟨tagged_events _ _, opened, observed, ?_, tracks.shows_open⟩
  intro id
  constructor
  · intro opened
    rcases opened with ⟨entry, found⟩
    rcases tracks.shows_open id entry found with ⟨resting, member, sameId, -⟩
    exact ⟨resting, member, sameId⟩
  · intro rests
    rcases rests with ⟨resting, member, rfl⟩
    exact tracks.open_of_rests resting member

end Matcher

end Bourse
