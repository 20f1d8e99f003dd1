import Bourse.Matcher.Run

/-!
# Buy/sell symmetry

Mirroring swaps the sides and reverses the order of prices.  Every decision of the
book and the matcher that the source writes once per side commutes with it, and so
does every run.
-/

namespace Bourse

/-! ## Mirroring the data -/

namespace Price

/-- The order-reversing bijection `p ↦ -1 - p` of the raw prices. -/
@[irreducible] def mirror (price : Price) : Price := .fromRaw (-1 - price.raw)

/-- The mirror never overflows, not even at the extreme prices. -/
theorem toInt_mirror (price : Price) : price.mirror.raw.toInt = -1 - price.raw.toInt := by
  have lower := Int64.le_toInt price.raw
  have upper := Int64.toInt_lt price.raw
  have minusOne : (-1 : Int64).toInt = -1 := by decide
  have difference : price.mirror.raw.toInt =
      ((-1 : Int64).toInt - price.raw.toInt).bmod (2 ^ 64) := by
    unfold mirror
    exact Int64.toInt_sub (-1) price.raw
  rw [difference, minusOne]
  apply Int.bmod_eq_of_le
  · simp only [Nat.reducePow]
    omega
  · simp only [Nat.reducePow]
    omega

@[simp] theorem mirror_mirror (price : Price) : price.mirror.mirror = price := by
  apply toInt_injective
  simp only [toInt_mirror]
  omega

theorem mirror_strictAnti : StrictAnti mirror := by
  intro left right less
  rw [lt_iff] at less ⊢
  simp only [toInt_mirror]
  omega

theorem mirror_surjective : Function.Surjective mirror :=
  fun price => ⟨price.mirror, mirror_mirror price⟩

end Price

namespace OrderKind

/-- The kind with its price mirrored. -/
def mirror : OrderKind → OrderKind
  | .limit price => .limit price.mirror
  | .market => .market
  | .ioc price => .ioc price.mirror
  | .postOnly price => .postOnly price.mirror
  | .fok price => .fok price.mirror

end OrderKind

/-- The order with its side and price mirrored. -/
def NewOrder.mirror (order : NewOrder) : NewOrder :=
  { order with side := order.side.opposite, kind := order.kind.mirror }

/-- The command with its order mirrored. -/
def Command.mirror : Command → Command
  | .new order => .new order.mirror
  | .cancel id => .cancel id

/-- The event with the price of a trade mirrored. -/
def Event.mirror : Event → Event
  | .accepted id qty seq => .accepted id qty seq
  | .trade taker maker price qty seq => .trade taker maker price.mirror qty seq
  | .done id leavesQty reason seq => .done id leavesQty reason seq

namespace Book

/-- A side's levels with their prices mirrored. -/
def mirrorLevels (levels : OrderedMap Price Level) : OrderedMap Price Level :=
  levels.reflect Price.mirror Price.mirror_strictAnti

/-- The index with every side and price mirrored. -/
def mirrorIndex (index : OrderedMap OrderId (Side × Price)) :
    OrderedMap OrderId (Side × Price) :=
  index.mapValues fun located => (located.1.opposite, located.2.mirror)

/-- The book whose bids are the mirrored asks and whose asks are the mirrored bids. -/
def mirror (book : Book) : Book where
  bids := mirrorLevels book.asks
  asks := mirrorLevels book.bids
  index := mirrorIndex book.index

end Book

/-- The matcher with its book mirrored. -/
def Matcher.mirror (matcher : Matcher) : Matcher := { matcher with book := matcher.book.mirror }

/-! ## The book -/

namespace Book

variable {side : Side} {price : Price}

@[simp] theorem get?_mirrorLevels (levels : OrderedMap Price Level) (price : Price) :
    (mirrorLevels levels).get? price.mirror = levels.get? price :=
  OrderedMap.get?_reflect ..

theorem side_mirror (book : Book) (side : Side) :
    book.mirror.side side.opposite = mirrorLevels (book.side side) := by
  cases side <;> rfl

@[simp] theorem queue_mirror (book : Book) (side : Side) (price : Price) :
    book.mirror.queue side.opposite price.mirror = book.queue side price := by
  rw [queue, side_mirror, get?_mirrorLevels, queue]

theorem mirror_place (book : Book) (side : Side) (price : Price) (level : Level)
    (index : OrderedMap OrderId (Side × Price)) :
    (book.place side price level index).mirror =
      book.mirror.place side.opposite price.mirror level (mirrorIndex index) := by
  have levels : mirrorLevels (if level.isEmpty then (book.side side).remove price
        else (book.side side).insert price level) =
      if level.isEmpty then (book.mirror.side side.opposite).remove price.mirror
        else (book.mirror.side side.opposite).insert price.mirror level := by
    rw [side_mirror]
    split
    · exact OrderedMap.reflect_remove _ _ Price.mirror_surjective _
    · exact OrderedMap.reflect_insert _ _ Price.mirror_surjective _ _
  rw [place, place, ← levels]
  cases side <;> rfl

theorem contains_mirror (book : Book) (id : OrderId) :
    book.mirror.contains id = book.contains id := by
  simp [contains, OrderedMap.containsKey, mirror, mirrorIndex]

theorem add_mirror (book : Book) (id : OrderId) (side : Side) (price : Price) (qty : Qty)
    (seq : Sequence) :
    book.mirror.add id side.opposite price.mirror qty seq =
      ((book.add id side price qty seq).1.mirror, (book.add id side price qty seq).2) := by
  have gates : book.mirror.Refuses id qty ↔ book.Refuses id qty := by
    have sameIndex := book.contains_mirror id
    rw [contains, contains] at sameIndex
    rw [Refuses, Refuses, sameIndex]
  by_cases refused : book.Refuses id qty
  · rw [add_of_refused refused, add_of_refused (gates.mpr refused)]
  · rw [add_of_fresh refused, add_of_fresh (mt gates.mp refused), queue_mirror,
      mirror_place]
    simp only [mirrorIndex, OrderedMap.mapValues_insert]
    rfl

theorem takeFront_mirror (book : Book) (side : Side) (price : Price) (want : Qty) :
    book.mirror.takeFront side.opposite price.mirror want =
      ((book.takeFront side price want).1.mirror, (book.takeFront side price want).2) := by
  by_cases wanted : want = Qty.zero
  · subst wanted
    rw [takeFront_of_zero, takeFront_of_zero]
  · have mirrored := book.queue_mirror side price
    cases queued : book.queue side price with
    | nil =>
        rw [queued] at mirrored
        rw [takeFront_of_nil queued, takeFront_of_nil mirrored]
    | cons front rest =>
        rw [queued] at mirrored
        rcases le_or_gt front.qty want with covers | short
        · rw [takeFront_exhausts queued wanted covers,
            takeFront_exhausts mirrored wanted covers, mirror_place]
          simp only [mirrorIndex, OrderedMap.mapValues_remove]
          rfl
        · rw [takeFront_reduces queued wanted short,
            takeFront_reduces mirrored wanted short, mirror_place]
          rfl

theorem cancel_mirror (book : Book) (id : OrderId) :
    book.mirror.cancel id = ((book.cancel id).1.mirror, (book.cancel id).2) := by
  have indexed : book.mirror.index.get? id = (book.index.get? id).map fun located =>
      (located.1.opposite, located.2.mirror) := OrderedMap.get?_mapValues ..
  have removed : mirrorIndex (book.index.remove id) = book.mirror.index.remove id :=
    OrderedMap.mapValues_remove ..
  cases entry : book.index.get? id with
  | none =>
      rw [entry] at indexed
      simp [cancel, entry, indexed]
  | some located =>
      rcases located with ⟨side, price⟩
      rw [entry] at indexed
      rw [cancel_of_entry entry, cancel_of_entry indexed, queue_mirror]
      cases (book.queue side price).findIdx? fun order => order.id = id with
      | none =>
          simp only [← removed]
          rfl
      | some pos => simp only [mirror_place, removed]

end Book

namespace Book

theorem best_mirror (book : Book) (side : Side) :
    book.mirror.best side.opposite = (book.best side).map Price.mirror := by
  cases side with
  | buy =>
      have first : book.mirror.asks.firstKeyValue = book.bids.lastKeyValue.map
          fun entry => (entry.1.mirror, entry.2) :=
        OrderedMap.firstKeyValue_reflect Price.mirror_strictAnti _
      simp [best, Side.opposite, bestAsk, bestBid, first, Function.comp_def]
  | sell =>
      have last : book.mirror.bids.lastKeyValue = book.asks.firstKeyValue.map
          fun entry => (entry.1.mirror, entry.2) :=
        OrderedMap.lastKeyValue_reflect Price.mirror_strictAnti _
      simp [best, Side.opposite, bestAsk, bestBid, last, Function.comp_def]

theorem fillLevels_mirror (admits : Price → Bool) (cap : Qty)
    (levels : List (Price × Level)) (sum : Qty) :
    fillLevels admits cap (levels.map fun entry => (entry.1.mirror, entry.2)) sum =
      fillLevels (fun price => admits price.mirror) cap levels sum := by
  induction levels generalizing sum with
  | nil => simp only [List.map_nil, fillLevels]
  | cons entry rest ih =>
      rcases entry with ⟨price, level⟩
      simp only [List.map_cons, fillLevels, ih]

theorem fillableQtyAt_mirror (book : Book) (side : Side) (limitPrice : Price) (cap : Qty) :
    book.mirror.fillableQtyAt side.opposite limitPrice.mirror cap =
      book.fillableQtyAt side limitPrice cap := by
  cases side with
  | buy =>
      simp only [fillableQtyAt, Side.opposite, mirror, mirrorLevels, OrderedMap.reflect,
        ← List.map_reverse, fillLevels_mirror, Price.mirror_strictAnti.lt_iff_gt]
  | sell =>
      simp only [fillableQtyAt, Side.opposite, mirror, mirrorLevels, OrderedMap.reflect,
        List.reverse_reverse, fillLevels_mirror, Price.mirror_strictAnti.lt_iff_gt]

end Book

/-! ## The matcher -/

namespace NewOrder

theorem crosses_mirror (order : NewOrder) (price : Price) :
    order.mirror.crosses price.mirror = order.crosses price := by
  rcases order with ⟨id, side, qty, kind, timestamp⟩
  cases side <;> cases kind <;>
    simp [crosses, mirror, OrderKind.mirror, Side.opposite, Price.mirror_strictAnti.le_iff_ge]

/-- A test of the best price, on both sides of the mirror. -/
theorem any_mirror (best : Option Price) {test mirrored : Price → Bool}
    (agree : ∀ price, mirrored price.mirror = test price) :
    (best.map Price.mirror).any mirrored = best.any test := by
  cases best with
  | none => rfl
  | some price => exact agree price

theorem kindRejects_mirror (order : NewOrder) (book : Book) :
    order.mirror.kindRejects book.mirror = order.kindRejects book := by
  have ask : book.mirror.bestAsk = book.bestBid.map Price.mirror := book.best_mirror .buy
  have bid : book.mirror.bestBid = book.bestAsk.map Price.mirror := book.best_mirror .sell
  rcases order with ⟨id, side, qty, kind, timestamp⟩
  cases kind with
  | postOnly price =>
      cases side with
      | buy =>
          simp only [kindRejects, mirror, OrderKind.mirror, Side.opposite]
          refine (congrArg _ bid).trans (any_mirror _ ?_)
          intro best
          exact decide_eq_decide.mpr Price.mirror_strictAnti.le_iff_ge
      | sell =>
          simp only [kindRejects, mirror, OrderKind.mirror, Side.opposite]
          refine (congrArg _ ask).trans (any_mirror _ ?_)
          intro best
          exact decide_eq_decide.mpr Price.mirror_strictAnti.le_iff_ge
  | fok price =>
      simp only [kindRejects, mirror, OrderKind.mirror, Book.fillableQtyAt_mirror]
  | limit price => simp only [kindRejects, mirror, OrderKind.mirror]
  | market => simp only [kindRejects, mirror, OrderKind.mirror]
  | ioc price => simp only [kindRejects, mirror, OrderKind.mirror]

end NewOrder

namespace Matcher

/-- The loop state with its book and events mirrored. -/
def Walk.mirror (walk : Walk) : Walk :=
  ⟨walk.matcher.mirror, walk.out.map Event.mirror, walk.remaining⟩

/-- A state of a run with its book and events mirrored. -/
def mirrorState (state : Matcher × List Event) : Matcher × List Event :=
  (state.1.mirror, state.2.map Event.mirror)

theorem pushDone_mirror (matcher : Matcher) (id : OrderId) (leavesQty : Qty)
    (reason : DoneReason) (out : List Event) :
    matcher.mirror.pushDone id leavesQty reason (out.map Event.mirror) =
      mirrorState (matcher.pushDone id leavesQty reason out) := by
  simp [pushDone, mirrorState, mirror, Event.mirror]

theorem pushTrade_mirror (matcher : Matcher) (taker maker : OrderId) (price : Price)
    (qty : Qty) (out : List Event) :
    matcher.mirror.pushTrade taker maker price.mirror qty (out.map Event.mirror) =
      mirrorState (matcher.pushTrade taker maker price qty out) := by
  simp [pushTrade, mirrorState, mirror, Event.mirror]

theorem matchBody_mirror (order : NewOrder) (walk : Walk) :
    matchBody order.mirror walk.mirror = (matchBody order walk).map Walk.mirror := by
  have best : walk.mirror.matcher.book.best order.mirror.side.opposite =
      (walk.matcher.book.best order.side.opposite).map Price.mirror :=
    walk.matcher.book.best_mirror order.side.opposite
  have sameQty : walk.mirror.remaining = walk.remaining := rfl
  simp only [matchBody, best, sameQty]
  split
  next =>
    cases walk.matcher.book.best order.side.opposite with
    | none => simp only [Option.map_none]
    | some price =>
        have taken : walk.mirror.matcher.book.takeFront order.mirror.side.opposite
            price.mirror walk.remaining = _ :=
          walk.matcher.book.takeFront_mirror order.side.opposite price walk.remaining
        simp only [Option.map_some, NewOrder.crosses_mirror, taken]
        split
        next =>
          rcases walk.matcher.book.takeFront order.side.opposite price walk.remaining with
            ⟨book, none | take⟩
          · simp only [Option.map_none]
          · have traded := pushTrade_mirror { walk.matcher with book } order.id take.maker
              price take.taken walk.out
            have same : ({ walk.mirror.matcher with book := book.mirror } : Matcher) =
                Matcher.mirror { walk.matcher with book } := rfl
            have sameId : order.mirror.id = order.id := rfl
            have sameOut : walk.mirror.out = walk.out.map Event.mirror := rfl
            simp only [same, sameId, sameOut, traded, mirrorState, Option.map_some]
            split
            · simp only [pushDone_mirror, mirrorState, Walk.mirror]
            · simp only [Walk.mirror]
        next => simp only [Option.map_none]
  next => simp only [Option.map_none]

theorem matchLoop_mirror (order : NewOrder) (walk : Walk) :
    (matchLoop order.mirror).run walk.mirror = ((matchLoop order).run walk).mirror := by
  have simulation := Loop.run_simulation (matchLoop order) (matchLoop order.mirror)
    (fun walk mirrored => mirrored = walk.mirror)
  apply simulation _ walk walk.mirror rfl
  intro walk mirrored equal
  subst equal
  have body : (matchLoop order.mirror).body walk.mirror =
      ((matchLoop order).body walk).map Walk.mirror := matchBody_mirror order walk
  rw [body]
  cases (matchLoop order).body walk with
  | none => exact Option.Rel.none
  | some next => exact Option.Rel.some rfl

theorem settle_mirror (order : NewOrder) (receiveSeq : Sequence) (walk : Walk) :
    settle order.mirror receiveSeq walk.mirror =
      mirrorState (settle order receiveSeq walk) := by
  have sameQty : walk.mirror.remaining = walk.remaining := rfl
  have rest : ∀ price : Price, walk.mirror.matcher.book.add order.id order.side.opposite
      price.mirror walk.remaining receiveSeq = _ := fun price =>
    walk.matcher.book.add_mirror order.id order.side price walk.remaining receiveSeq
  rcases order with ⟨id, side, qty, kind, timestamp⟩
  unfold settle
  rw [sameQty]
  split
  · exact pushDone_mirror ..
  · cases kind with
    | limit price =>
        simp only [NewOrder.mirror, OrderKind.mirror, rest]
        rfl
    | postOnly price =>
        simp only [NewOrder.mirror, OrderKind.mirror, rest]
        rfl
    | market => exact pushDone_mirror ..
    | ioc price => exact pushDone_mirror ..
    | fok price => exact pushDone_mirror ..

theorem accept_mirror (matcher : Matcher) (order : NewOrder) (out : List Event) :
    matcher.mirror.accept order.mirror (out.map Event.mirror) =
      mirrorState (matcher.accept order out) := by
  have sameId : matcher.mirror.book.contains order.mirror.id =
      matcher.book.contains order.id := matcher.book.contains_mirror order.id
  have sameGate : order.mirror.kindRejects matcher.mirror.book =
      order.kindRejects matcher.book := order.kindRejects_mirror matcher.book
  have sameQty : order.mirror.qty = order.qty := rfl
  unfold accept
  rw [sameId, sameGate, sameQty]
  split
  · exact pushDone_mirror ..
  · split
    · exact pushDone_mirror ..
    · rw [← settle_mirror, ← matchLoop_mirror]
      simp only [Walk.mirror, List.map_append, List.map_cons, List.map_nil, Event.mirror]
      rfl

theorem cancel_mirror (matcher : Matcher) (id : OrderId) (out : List Event) :
    matcher.mirror.cancel id (out.map Event.mirror) =
      mirrorState (matcher.cancel id out) := by
  have cancelled : matcher.mirror.book.cancel id = _ := matcher.book.cancel_mirror id
  unfold cancel
  rw [cancelled]
  rcases matcher.book.cancel id with ⟨book, none | leaves⟩
  · rfl
  · exact pushDone_mirror { matcher with book } id leaves .cancelled out

theorem handle_mirror (matcher : Matcher) (command : Command) (out : List Event) :
    matcher.mirror.handle command.mirror (out.map Event.mirror) =
      mirrorState (matcher.handle command out) := by
  cases command with
  | new order => exact accept_mirror matcher order out
  | cancel id => exact cancel_mirror matcher id out

theorem runFrom_mirror (commands : List Command) (state : Matcher × List Event) :
    runFrom (mirrorState state) (commands.map Command.mirror) =
      mirrorState (runFrom state commands) := by
  induction commands generalizing state with
  | nil => rfl
  | cons command commands ih =>
      have step : (mirrorState state).1.handle command.mirror (mirrorState state).2 =
          mirrorState (state.1.handle command state.2) :=
        handle_mirror state.1 command state.2
      simp only [runFrom, List.map_cons, List.foldl_cons] at ih ⊢
      rw [step, ih]

/-- Running the mirrored commands emits the mirrored events, only the prices of
trades being affected, and ends with the mirrored book. -/
theorem run_mirror (commands : List Command) :
    Matcher.new.run (commands.map Command.mirror) =
      ((Matcher.new.run commands).1.mirror,
        (Matcher.new.run commands).2.map Event.mirror) :=
  runFrom_mirror commands (Matcher.new, [])

end Matcher

end Bourse
