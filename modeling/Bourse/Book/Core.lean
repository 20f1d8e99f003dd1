import Bourse.Types
import Bourse.Data.OrderedMap

/-!
# The order book

`Book` of `bourse-core/src/order_book.rs`: one price-ordered map of levels per
side and an index from order ids to their level.  The three structures are
redundant and are updated separately, early returns included, exactly as in the
source.  The `HashMap` index is an `OrderedMap` too, since nothing iterates it.

Mutating methods return the new book beside the method's own result.
-/

namespace Bourse

/-- One order of a level. -/
structure Order where
  id : OrderId
  qty : Qty
  seq : Sequence
  deriving DecidableEq, Repr

/-- Orders resting at one price, the front first. -/
abbrev Level := List Order

/-- Limit order book. -/
structure Book where
  bids : OrderedMap Price Level
  asks : OrderedMap Price Level
  index : OrderedMap OrderId (Side × Price)
  deriving DecidableEq

/-- One resting order with its side and price. -/
structure RestingOrder where
  id : OrderId
  side : Side
  price : Price
  qty : Qty
  seq : Sequence
  deriving DecidableEq, Repr

/-- An order seen together with its side and price. -/
@[simps] def Order.resting (side : Side) (price : Price) (order : Order) : RestingOrder :=
  ⟨order.id, side, price, order.qty, order.seq⟩

/-- The level entry of a resting order. -/
def RestingOrder.order (resting : RestingOrder) : Order :=
  ⟨resting.id, resting.qty, resting.seq⟩

@[simp] theorem Order.order_resting (side : Side) (price : Price) (order : Order) :
    (order.resting side price).order = order := rfl

@[simp] theorem RestingOrder.resting_order (resting : RestingOrder) :
    resting.order.resting resting.side resting.price = resting := rfl

/-- Result of `Book.takeFront`. -/
structure Take where
  maker : OrderId
  taken : Qty
  remaining : Qty
  deriving DecidableEq, Repr

namespace Book

/-- Empty book. -/
def new : Book := ⟨.empty, .empty, .empty⟩

/-- The map of one side, `match side { Buy => bids, Sell => asks }`. -/
def side (book : Book) : Side → OrderedMap Price Level
  | .buy => book.bids
  | .sell => book.asks

/-- Replace the map of one side. -/
def setSide (book : Book) (levels : OrderedMap Price Level) : Side → Book
  | .buy => { book with bids := levels }
  | .sell => { book with asks := levels }

/-- Add a resting order. Returns `false` if the id is already in the book or the
quantity is zero. -/
def add (book : Book) (id : OrderId) (side : Side) (price : Price) (qty : Qty)
    (seq : Sequence) : Book × Bool :=
  if qty = Qty.zero ∨ book.index.containsKey id then (book, false)
  else
    let levels := book.side side
    let level := (levels.get? price).getD []
    let book := book.setSide (levels.insert price (level ++ [⟨id, qty, seq⟩])) side
    ({ book with index := book.index.insert id (side, price) }, true)

/-- Cancel by id. Returns the resting quantity that was removed. The index entry
is removed before the order is looked for. -/
def cancel (book : Book) (id : OrderId) : Book × Option Qty :=
  match book.index.get? id with
  | none => (book, none)
  | some (side, price) =>
      let book := { book with index := book.index.remove id }
      let levels := book.side side
      match levels.get? price with
      | none => (book, none)
      | some level =>
          match level.findIdx? fun order => order.id = id with
          | none => (book, none)
          | some pos =>
              match level[pos]? with
              | none => (book, none)
              | some order =>
                  let level := level.eraseIdx pos
                  let levels :=
                    if level.isEmpty then levels.remove price
                    else levels.insert price level
                  (book.setSide levels side, some order.qty)

/-- Highest buy price, if any. -/
def bestBid (book : Book) : Option Price := book.bids.lastKeyValue.map Prod.fst

/-- Lowest sell price, if any. -/
def bestAsk (book : Book) : Option Price := book.asks.firstKeyValue.map Prod.fst

/-- The best price of a side, as the matching loop selects it. -/
def best (book : Book) : Side → Option Price
  | .buy => book.bestBid
  | .sell => book.bestAsk

/-- Total resting orders. -/
def len (book : Book) : Nat := book.index.len

/-- True if `id` rests in the book. -/
def contains (book : Book) (id : OrderId) : Bool := book.index.containsKey id

/-- Take up to `want` from the front of the `(side, price)` level. -/
def takeFront (book : Book) (side : Side) (price : Price) (want : Qty) :
    Book × Option Take :=
  if want = Qty.zero then (book, none)
  else
    let levels := book.side side
    match levels.get? price with
    | none => (book, none)
    | some [] => (book, none)
    | some (front :: rest) =>
        let taken := if front.qty ≤ want then front.qty else want
        let remaining := front.qty.saturatingSub taken
        let take := ⟨front.id, taken, remaining⟩
        if remaining = Qty.zero then
          let book := { book with index := book.index.remove front.id }
          let levels :=
            if rest.isEmpty then levels.remove price else levels.insert price rest
          (book.setSide levels side, some take)
        else
          (book.setSide (levels.insert price ({ front with qty := remaining } :: rest))
            side, some take)

/-- The orders of one level as resting orders. -/
def levelResting (side : Side) (entry : Price × Level) : List RestingOrder :=
  entry.2.map (Order.resting side entry.1)

/-- Every resting order: bids first (price-ascending, time-priority within a
level), then asks (same). -/
def iterResting (book : Book) : List RestingOrder :=
  book.bids.entries.flatMap (levelResting .buy) ++
    book.asks.entries.flatMap (levelResting .sell)

/-- Walk one level of `fillable_qty_at`, stopping (`Sum.inr`) once the running
sum reaches the cap. -/
def fillLevel (cap : Qty) : Level → Qty → Qty ⊕ Qty
  | [], sum => .inl sum
  | order :: rest, sum =>
      let sum := sum.saturatingAdd order.qty
      if cap ≤ sum then .inr sum else fillLevel cap rest sum

/-- Walk levels in the given order while `admits` holds of their price. -/
def fillLevels (admits : Price → Bool) (cap : Qty) : List (Price × Level) → Qty → Qty
  | [], sum => sum
  | (price, level) :: rest, sum =>
      if admits price then
        match fillLevel cap level sum with
        | .inl sum => fillLevels admits cap rest sum
        | .inr sum => sum
      else sum

/-- Sum the resting quantity on `side` whose price is at or better than
`limitPrice`, stopping as soon as the running sum reaches `cap`. -/
def fillableQtyAt (book : Book) (side : Side) (limitPrice : Price) (cap : Qty) : Qty :=
  match side with
  | .sell =>
      fillLevels (fun ask => decide ¬limitPrice < ask) cap book.asks.entries Qty.zero
  | .buy =>
      fillLevels (fun bid => decide ¬bid < limitPrice) cap book.bids.entries.reverse Qty.zero

end Book

end Bourse
