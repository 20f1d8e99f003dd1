import Bourse.Book.Invariant
import Bourse.Data.Loop

/-!
# The matching engine

`Matcher` of `bourse-core/src/matcher.rs`.  The `&mut Vec<Event>` argument of the
source is passed in and returned; the `while` loop of `accept` is a `Loop` whose
variant bounds the number of makers it can still consume.
-/

namespace Bourse

/-- Variant of an incoming order. -/
inductive OrderKind where
  | limit (price : Price)
  | market
  | ioc (price : Price)
  | postOnly (price : Price)
  | fok (price : Price)
  deriving DecidableEq, Repr

/-- Why an order is no longer active. -/
inductive DoneReason where
  | filled
  | cancelled
  | expired
  | noLiquidity
  | rejected
  deriving DecidableEq, Repr

namespace OrderKind

/-- The limit price; a market order has none. -/
def limitPrice : OrderKind → Option Price
  | .market => none
  | .limit price | .ioc price | .postOnly price | .fok price => some price

/-- The price at which a remainder rests, for the kinds whose remainder rests. -/
def restingPrice : OrderKind → Option Price
  | .limit price | .postOnly price => some price
  | .market | .ioc _ | .fok _ => none

/-- Why a remainder that does not rest is done. -/
def remainderReason : OrderKind → DoneReason
  | .market => .noLiquidity
  | .limit _ | .ioc _ | .postOnly _ | .fok _ => .expired

theorem limitPrice_of_restingPrice {kind : OrderKind} {price : Price}
    (rests : kind.restingPrice = some price) : kind.limitPrice = some price := by
  cases kind <;> simp_all [restingPrice, limitPrice]

theorem remainderReason_ne_rejected (kind : OrderKind) :
    kind.remainderReason ≠ .rejected := by
  cases kind <;> simp [remainderReason]

end OrderKind

/-- New order presented to the matcher. -/
structure NewOrder where
  id : OrderId
  side : Side
  qty : Qty
  kind : OrderKind
  timestamp : Timestamp
  deriving DecidableEq, Repr

/-- Event emitted by the matcher. -/
inductive Event where
  | accepted (id : OrderId) (qty : Qty) (seq : Sequence)
  | trade (taker maker : OrderId) (price : Price) (qty : Qty) (seq : Sequence)
  | done (id : OrderId) (leavesQty : Qty) (reason : DoneReason) (seq : Sequence)
  deriving DecidableEq, Repr

/-- The sequence number an event carries. -/
def Event.seq : Event → Sequence
  | .accepted _ _ seq | .trade _ _ _ _ seq | .done _ _ _ seq => seq

/-- The matcher. -/
structure Matcher where
  book : Book
  seq : SequenceGenerator
  deriving DecidableEq

namespace NewOrder

/-- Whether the matching loop may trade at `bestPrice`. -/
def crosses (order : NewOrder) (bestPrice : Price) : Bool :=
  match order.kind with
  | .market => true
  | .limit price | .ioc price | .postOnly price | .fok price =>
      match order.side with
      | .buy => decide (price ≥ bestPrice)
      | .sell => decide (price ≤ bestPrice)

/-- The kind-specific pre-acceptance gate: `true` when a post-only order would
cross or a fill-or-kill order cannot be filled. -/
def kindRejects (order : NewOrder) (book : Book) : Bool :=
  let opposite := order.side.opposite
  match order.kind with
  | .postOnly price =>
      match opposite with
      | .sell => book.bestAsk.any fun ask => ask ≤ price
      | .buy => book.bestBid.any fun bid => bid ≥ price
  | .fok price => decide (book.fillableQtyAt opposite price order.qty < order.qty)
  | _ => false

end NewOrder

namespace Matcher

/-- Empty matcher. -/
def new : Matcher := ⟨Book.new, SequenceGenerator.new⟩

/-- Recovery constructor: a matcher seeded with a book and the next sequence
number to issue. -/
def withBook (book : Book) (nextSeq : Sequence) : Matcher :=
  ⟨book, SequenceGenerator.startingAt nextSeq⟩

/-- What the next emitted sequence number will be. -/
def peekSeq (matcher : Matcher) : Sequence := matcher.seq.peek

/-- Push a `Done` carrying the next sequence number. -/
def pushDone (matcher : Matcher) (id : OrderId) (leavesQty : Qty) (reason : DoneReason)
    (out : List Event) : Matcher × List Event :=
  let (seq, generator) := matcher.seq.next
  ({ matcher with seq := generator }, out ++ [.done id leavesQty reason seq])

/-- Push a `Trade` carrying the next sequence number. -/
def pushTrade (matcher : Matcher) (taker maker : OrderId) (price : Price) (qty : Qty)
    (out : List Event) : Matcher × List Event :=
  let (seq, generator) := matcher.seq.next
  ({ matcher with seq := generator }, out ++ [.trade taker maker price qty seq])

/-- The mutable state of the matching loop. -/
structure Walk where
  matcher : Matcher
  out : List Event
  remaining : Qty

/-- One iteration of the matching loop; `none` is `break` or a false guard. -/
def matchBody (order : NewOrder) (walk : Walk) : Option Walk :=
  if walk.remaining > Qty.zero then
    match walk.matcher.book.best order.side.opposite with
    | none => none
    | some bestPrice =>
        if order.crosses bestPrice then
          match walk.matcher.book.takeFront order.side.opposite bestPrice
              walk.remaining with
          | (_, none) => none
          | (book, some take) =>
              let (matcher, out) := pushTrade { walk.matcher with book } order.id
                take.maker bestPrice take.taken walk.out
              let (matcher, out) :=
                if take.remaining = Qty.zero then
                  matcher.pushDone take.maker Qty.zero .filled out
                else (matcher, out)
              some ⟨matcher, out, walk.remaining.saturatingSub take.taken⟩
        else none
  else none

@[simp] theorem book_pushDone (matcher : Matcher) (id : OrderId) (leavesQty : Qty)
    (reason : DoneReason) (out : List Event) :
    (matcher.pushDone id leavesQty reason out).1.book = matcher.book := rfl

@[simp] theorem book_pushTrade (matcher : Matcher) (taker maker : OrderId) (price : Price)
    (qty : Qty) (out : List Event) :
    (matcher.pushTrade taker maker price qty out).1.book = matcher.book := rfl

/-- The state after an iteration that exhausts the front maker. -/
def Walk.exhaust (walk : Walk) (order : NewOrder) (price : Price) (front : Order)
    (rest : Level) : Walk :=
  let book := walk.matcher.book.place order.side.opposite price rest
    (walk.matcher.book.index.remove front.id)
  let traded := pushTrade { walk.matcher with book } order.id front.id price front.qty
    walk.out
  let done := traded.1.pushDone front.id Qty.zero .filled traded.2
  ⟨done.1, done.2, walk.remaining.saturatingSub front.qty⟩

/-- The state after an iteration that fills the taker from part of the front maker. -/
def Walk.fill (walk : Walk) (order : NewOrder) (price : Price) (front : Order)
    (rest : Level) : Walk :=
  let front' := { front with qty := front.qty.saturatingSub walk.remaining }
  let book := walk.matcher.book.place order.side.opposite price (front' :: rest)
    walk.matcher.book.index
  let traded := pushTrade { walk.matcher with book } order.id front.id price
    walk.remaining walk.out
  ⟨traded.1, traded.2, Qty.zero⟩

@[simp] theorem Walk.book_exhaust (walk : Walk) (order : NewOrder) (price : Price)
    (front : Order) (rest : Level) :
    (walk.exhaust order price front rest).matcher.book =
      walk.matcher.book.place order.side.opposite price rest
        (walk.matcher.book.index.remove front.id) := rfl

@[simp] theorem Walk.book_fill (walk : Walk) (order : NewOrder) (price : Price)
    (front : Order) (rest : Level) :
    (walk.fill order price front rest).matcher.book =
      walk.matcher.book.place order.side.opposite price
        ({ front with qty := front.qty.saturatingSub walk.remaining } :: rest)
        walk.matcher.book.index := rfl

/-- What an iteration of the matching loop does: it trades with the front order of
the best opposite level, either exhausting it or filling the taker. -/
theorem matchBody_cases {order : NewOrder} {walk next : Walk}
    (step : matchBody order walk = some next) :
    ∃ price front rest,
      walk.matcher.book.best order.side.opposite = some price ∧
      order.crosses price = true ∧
      walk.matcher.book.queue order.side.opposite price = front :: rest ∧
      walk.remaining ≠ Qty.zero ∧
      (front.qty ≤ walk.remaining ∧ next = walk.exhaust order price front rest ∨
        walk.remaining < front.qty ∧ next = walk.fill order price front rest) := by
  unfold matchBody at step
  split at step
  next positive =>
    have wanted : walk.remaining ≠ Qty.zero := ne_of_gt positive
    cases bestEq : walk.matcher.book.best order.side.opposite with
    | none => simp [bestEq] at step
    | some price =>
        simp only [bestEq] at step
        split at step
        next crosses =>
          rcases Book.takeFront_cases walk.matcher.book order.side.opposite price
              walk.remaining with
            refused | ⟨front, rest, queued, -, ⟨covers, taken⟩ | ⟨short, taken⟩⟩
          · simp [refused] at step
          · refine ⟨price, front, rest, rfl, crosses, queued, wanted,
              Or.inl ⟨covers, ?_⟩⟩
            simpa [taken, Walk.exhaust] using step.symm
          · have left : front.qty.saturatingSub walk.remaining ≠ Qty.zero := by
              rw [ne_eq, Qty.eq_iff, Qty.toNat_saturatingSub, Qty.toNat_zero]
              have := Qty.lt_iff.mp short
              omega
            have none_left : walk.remaining.saturatingSub walk.remaining = Qty.zero :=
              Qty.eq_iff.mpr (by simp)
            refine ⟨price, front, rest, rfl, crosses, queued, wanted,
              Or.inr ⟨short, ?_⟩⟩
            simpa [taken, left, none_left, Walk.fill] using step.symm
        next => cases step
  next => cases step

end Matcher

/-- Number of orders on one side. -/
def Book.sideLen (book : Book) (side : Side) : Nat :=
  (book.side side).weight List.length

theorem Book.sideLen_place {book : Book} {side : Side} {price : Price} {old : Level}
    (new : Level) (index : OrderedMap OrderId (Side × Price))
    (present : (book.side side).get? price = some old) :
    (book.place side price new index).sideLen side + old.length =
      book.sideLen side + new.length := by
  simp only [sideLen, place, side_withIndex, side_setSide, if_true]
  cases new with
  | nil => simpa using OrderedMap.weight_remove List.length present
  | cons front rest =>
      simpa using OrderedMap.weight_insert (front :: rest) List.length present

namespace Matcher

/-- The matching loop. Every iteration removes a maker or fills the taker. -/
def matchLoop (order : NewOrder) : Loop Walk where
  body := matchBody order
  variant walk := walk.matcher.book.sideLen order.side.opposite +
    if walk.remaining = Qty.zero then 0 else 1
  decreases := by
    intro walk next step
    rcases matchBody_cases step with ⟨price, front, rest, -, -, queued, wanted, exhausted | filled⟩
    · rcases exhausted with ⟨-, rfl⟩
      have shorter := Book.sideLen_place rest
        (walk.matcher.book.index.remove front.id) (Book.get?_of_queue_cons queued)
      simp only [Walk.book_exhaust, wanted, if_false]
      simp only [List.length_cons] at shorter
      split <;> omega
    · rcases filled with ⟨-, rfl⟩
      have same := Book.sideLen_place ({ front with
          qty := front.qty.saturatingSub walk.remaining } :: rest)
        walk.matcher.book.index (Book.get?_of_queue_cons queued)
      have filled : (walk.fill order price front rest).remaining = Qty.zero := rfl
      simp only [Walk.book_fill, filled, wanted, if_false, if_true]
      simp only [List.length_cons] at same
      omega

/-- The end of `accept`: the taker is filled, rests or is cancelled. -/
def settle (order : NewOrder) (receiveSeq : Sequence) (walk : Walk) :
    Matcher × List Event :=
  if walk.remaining = Qty.zero then
    walk.matcher.pushDone order.id Qty.zero .filled walk.out
  else
    match order.kind with
    | .limit price | .postOnly price =>
        let (book, _) := walk.matcher.book.add order.id order.side price walk.remaining
          receiveSeq
        ({ walk.matcher with book }, walk.out)
    | .market => walk.matcher.pushDone order.id walk.remaining .noLiquidity walk.out
    | .ioc _ | .fok _ => walk.matcher.pushDone order.id walk.remaining .expired walk.out

/-- Process a new order, appending the events to `out`. -/
def accept (matcher : Matcher) (order : NewOrder) (out : List Event) :
    Matcher × List Event :=
  if order.qty = Qty.zero ∨ matcher.book.contains order.id then
    matcher.pushDone order.id order.qty .rejected out
  else if order.kindRejects matcher.book then
    matcher.pushDone order.id order.qty .rejected out
  else
    let (receiveSeq, seq) := matcher.seq.next
    let out := out ++ [.accepted order.id order.qty receiveSeq]
    settle order receiveSeq ((matchLoop order).run ⟨{ matcher with seq }, out, order.qty⟩)

/-- Cancel a resting order by id. -/
def cancel (matcher : Matcher) (id : OrderId) (out : List Event) : Matcher × List Event :=
  match matcher.book.cancel id with
  | (book, some leaves) => pushDone { matcher with book } id leaves .cancelled out
  | (book, none) => ({ matcher with book }, out)

end Matcher

end Bourse
