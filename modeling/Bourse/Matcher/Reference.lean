import Bourse.Book.Rebuild
import Bourse.Matcher.Invariant

/-!
# A flat reference matcher

`Reference` is a matcher without levels, deques or an index: it sorts the flat
list of resting orders of the opposite side by price and book sequence number and
consumes the admitted ones from the front.  The matching loop performs the fills
of this consumption on the makers in the order in which the book lists them.
-/

namespace Bourse

namespace Reference

/-- Priority on one side: better price first, then the lower book sequence number. -/
def precedes (side : Side) (left right : RestingOrder) : Bool :=
  if left.price = right.price then decide (left.seq ≤ right.seq)
  else decide (side.BetterEq left.price right.price)

/-- Whether the order's limit admits trading with `maker`. -/
def admits (order : NewOrder) (maker : RestingOrder) : Bool :=
  match order.kind.limitPrice with
  | none => true
  | some price => decide (order.side.opposite.BetterEq maker.price price)

/-- The resting orders of the opposite side that the limit admits, by priority. -/
def makers (resting : List RestingOrder) (order : NewOrder) : List RestingOrder :=
  ((resting.filter fun maker => maker.side = order.side.opposite).mergeSort
    (precedes order.side.opposite)).filter (admits order)

/-- A quantity taken from a maker. -/
structure Fill where
  maker : RestingOrder
  taken : Qty
  deriving DecidableEq, Repr

/-- Take `min remaining maker.qty` from each maker until nothing remains. Returns
the fills and what is left of the taker. -/
def consume : List RestingOrder → Qty → List Fill × Qty
  | [], remaining => ([], remaining)
  | maker :: rest, remaining =>
      if remaining = Qty.zero then ([], remaining)
      else
        let taken := min remaining maker.qty
        let (fills, left) := consume rest (remaining.saturatingSub taken)
        (⟨maker, taken⟩ :: fills, left)

/-- Give events consecutive sequence numbers. -/
def number (counter : UInt64) : List (Sequence → Event) → List Event
  | [] => []
  | event :: events => event (.fromRaw counter) :: number (counter + 1) events

/-- A trade at the maker's price, and the maker's `Done` iff it is exhausted. -/
def fillEvents (order : NewOrder) (fill : Fill) : List (Sequence → Event) :=
  .trade order.id fill.maker.id fill.maker.price fill.taken ::
    if fill.taken = fill.maker.qty then [.done fill.maker.id Qty.zero .filled] else []

/-- The taker's `Done`, or nothing when its remainder rests. -/
def finalEvents (order : NewOrder) (left : Qty) : List (Sequence → Event) :=
  if left = Qty.zero then [.done order.id Qty.zero .filled]
  else
    match order.kind.restingPrice with
    | some _ => []
    | none => [.done order.id left order.kind.remainderReason]

/-- What the fills leave of a resting order. -/
def afterFills (fills : List Fill) (resting : RestingOrder) : Option RestingOrder :=
  match fills.find? fun fill => fill.maker.id = resting.id with
  | none => some resting
  | some fill =>
      if fill.taken = resting.qty then none
      else some { resting with qty := resting.qty.saturatingSub fill.taken }

/-- The remainder that rests under the sequence number of its `Accepted`. -/
def remainder (order : NewOrder) (left : Qty) (receiveSeq : Sequence) :
    List RestingOrder :=
  match order.kind.restingPrice with
  | some price =>
      if left = Qty.zero then [] else [⟨order.id, order.side, price, left, receiveSeq⟩]
  | none => []

/-- Time priority alone: the lower book sequence number first. -/
def bySeq (left right : RestingOrder) : Bool := decide (left.seq ≤ right.seq)

/-- The book that holds the given orders, each level by ascending sequence number. -/
def bookOf (resting : List RestingOrder) : Book :=
  Book.new.addAll (resting.mergeSort bySeq)

/-- The fills of an order against a book, and what is left of it. -/
def outcome (book : Book) (order : NewOrder) : List Fill × Qty :=
  consume (makers book.iterResting order) order.qty

/-- The resting orders once an order has been matched. -/
def restingAfter (matcher : Matcher) (order : NewOrder) : List RestingOrder :=
  let (fills, left) := outcome matcher.book order
  matcher.book.iterResting.filterMap (afterFills fills) ++
    remainder order left matcher.peekSeq

/-- The events of an admitted order. -/
def events (matcher : Matcher) (order : NewOrder) : List Event :=
  let (fills, left) := outcome matcher.book order
  number matcher.seq.counter
    ([.accepted order.id order.qty] ++ fills.flatMap (fillEvents order) ++
      finalEvents order left)

/-- The reference matcher on an order that passes the pre-acceptance gates. -/
def accept (matcher : Matcher) (order : NewOrder) : Matcher × List Event :=
  (⟨bookOf (restingAfter matcher order),
      ⟨matcher.seq.counter + UInt64.ofNat (events matcher order).length⟩⟩,
    events matcher order)

/-! ## Numbering -/

theorem number_append (counter : UInt64) (events more : List (Sequence → Event)) :
    number counter (events ++ more) =
      number counter events ++ number (counter + UInt64.ofNat events.length) more := by
  induction events generalizing counter with
  | nil => simp [number]
  | cons event events ih =>
      rw [List.cons_append, number, ih, number, List.length_cons,
        ofNat_succ, UInt64.add_assoc]
      rfl

/-! ## Consuming a list of makers -/

theorem consume_zero (makers : List RestingOrder) :
    consume makers Qty.zero = ([], Qty.zero) := by
  cases makers <;> simp [consume]

theorem consume_exhausts {maker : RestingOrder} {rest : List RestingOrder}
    {remaining : Qty} (wanted : remaining ≠ Qty.zero) (covers : maker.qty ≤ remaining) :
    consume (maker :: rest) remaining =
      (⟨maker, maker.qty⟩ :: (consume rest (remaining.saturatingSub maker.qty)).1,
        (consume rest (remaining.saturatingSub maker.qty)).2) := by
  simp [consume, wanted, min_eq_right covers]

theorem consume_fills {maker : RestingOrder} {rest : List RestingOrder}
    {remaining : Qty} (wanted : remaining ≠ Qty.zero) (short : remaining < maker.qty) :
    consume (maker :: rest) remaining = ([⟨maker, remaining⟩], Qty.zero) := by
  have none_left : remaining.saturatingSub remaining = Qty.zero :=
    Qty.eq_iff.mpr (by simp)
  simp [consume, wanted, min_eq_left short.le, none_left, consume_zero]

theorem maker_of_mem_consume {makers : List RestingOrder} {remaining : Qty} {fill : Fill}
    (member : fill ∈ (consume makers remaining).1) : fill.maker ∈ makers := by
  induction makers generalizing remaining with
  | nil => cases member
  | cons maker rest ih =>
      rw [consume] at member
      split at member
      · cases member
      · rcases List.mem_cons.mp member with rfl | later
        · exact List.mem_cons_self
        · exact List.mem_cons_of_mem _ (ih later)

theorem maker_of_mem_outcome {book : Book} {order : NewOrder} {fill : Fill}
    (member : fill ∈ (outcome book order).1) : fill.maker ∈ book.iterResting := by
  have admitted := List.mem_of_mem_filter (maker_of_mem_consume member)
  exact List.mem_of_mem_filter (List.mem_mergeSort.mp admitted)

theorem id_of_afterFills {fills : List Fill} {before after : RestingOrder}
    (left : afterFills fills before = some after) : after.id = before.id := by
  unfold afterFills at left
  split at left
  · cases left
    rfl
  · split at left
    · cases left
    · cases left
      rfl

end Reference

namespace Matcher

open Reference

variable {order : NewOrder} {walk next final : Walk} {fills : List Fill} {left : Qty}

/-! ## The matching loop consumes the makers -/

/-- The reference's test on makers is the loop's test on their price. -/
theorem admits_eq_crosses (order : NewOrder) (maker : RestingOrder) :
    admits order maker = order.crosses maker.price := by
  rw [Bool.eq_iff_iff, crosses_iff, admits]
  cases order.kind.limitPrice <;> simp

/-- From `walk` the loop ends in `final` by performing `fills`, with `left` of the
taker unfilled. -/
structure Follows (order : NewOrder) (walk final : Walk) (fills : List Fill)
    (left : Qty) : Prop where
  remaining : final.remaining = left
  out : final.out = walk.out ++
    number walk.matcher.seq.counter (fills.flatMap (fillEvents order))
  counter : final.matcher.seq.counter = walk.matcher.seq.counter +
    UInt64.ofNat (fills.flatMap (fillEvents order)).length
  resting : ∀ resting, resting ∈ final.matcher.book.iterResting ↔
    ∃ before ∈ walk.matcher.book.iterResting, afterFills fills before = some resting
  exhausted : ∀ fill ∈ fills.dropLast, fill.taken = fill.maker.qty
  gone : ∀ fill ∈ fills, fill.taken = fill.maker.qty →
    ∀ resting ∈ final.matcher.book.iterResting, resting.id ≠ fill.maker.id
  reduced : ∀ fill ∈ fills, fill.taken ≠ fill.maker.qty → left = Qty.zero ∧
    (final.matcher.book.queue fill.maker.side fill.maker.price).head? =
      some { fill.maker.order with qty := fill.maker.qty.saturatingSub fill.taken }

/-- The loop breaks before any fill. -/
theorem Follows.stop : Follows order walk walk [] walk.remaining where
  remaining := rfl
  out := by simp [number]
  counter := by simp
  resting resting := by simp [afterFills]
  exhausted := by simp
  gone := by simp
  reduced := by simp

/-- An iteration that exhausts its maker, followed by the rest of the loop. -/
theorem Follows.exhaust {price : Price} {front : Order} {rest : Level}
    (wf : walk.matcher.book.WF)
    (queued : walk.matcher.book.queue order.side.opposite price = front :: rest)
    (follows : Follows order (walk.exhaust order price front rest) final fills left) :
    Follows order walk final
      (⟨front.resting order.side.opposite price, front.qty⟩ :: fills) left := by
  have rests : front.resting order.side.opposite price ∈
      walk.matcher.book.iterResting := Book.mem_queue.mp (by simp [queued])
  have nextResting : ∀ resting,
      resting ∈ (walk.exhaust order price front rest).matcher.book.iterResting ↔
        resting ∈ walk.matcher.book.iterResting ∧ resting.id ≠ front.id := by
    intro resting
    exact wf.mem_iterResting_removed (show walk.matcher.book.queue order.side.opposite
      price = [] ++ front :: rest from queued)
  have twoEvents : fillEvents order ⟨front.resting order.side.opposite price, front.qty⟩ =
      [.trade order.id front.id price front.qty, .done front.id Qty.zero .filled] := by
    simp [fillEvents]
  refine ⟨follows.remaining, ?_, ?_, ?_, ?_, ?_, ?_⟩
  · rw [follows.out, List.flatMap_cons, twoEvents, number_append]
    simp [Walk.exhaust, pushTrade, pushDone, number, SequenceGenerator.next,
      UInt64.add_assoc]
  · rw [follows.counter, List.flatMap_cons, twoEvents, List.length_append,
      UInt64.ofNat_add]
    simp [Walk.exhaust, pushTrade, pushDone, SequenceGenerator.next, UInt64.add_assoc]
  · intro resting
    rw [follows.resting]
    constructor
    · intro found
      rcases found with ⟨before, member, after⟩
      rcases (nextResting before).mp member with ⟨member, distinct⟩
      refine ⟨before, member, ?_⟩
      simpa [afterFills, Ne.symm distinct] using after
    · intro found
      rcases found with ⟨before, member, after⟩
      by_cases sameId : before.id = front.id
      · have equal := wf.resting_unique member rests sameId
        subst equal
        simp [afterFills] at after
      · refine ⟨before, (nextResting before).mpr ⟨member, sameId⟩, ?_⟩
        simpa [afterFills, Ne.symm sameId] using after
  · intro fill member
    cases fills with
    | nil => simp at member
    | cons first others =>
        rw [List.dropLast_cons_of_ne_nil (List.cons_ne_nil _ _)] at member
        rcases List.mem_cons.mp member with rfl | member
        · rfl
        · exact follows.exhausted fill member
  · intro fill member taken resting final
    rcases List.mem_cons.mp member with rfl | member
    · rcases (follows.resting resting).mp final with ⟨before, present, after⟩
      rw [id_of_afterFills after]
      exact ((nextResting before).mp present).2
    · exact follows.gone fill member taken resting final
  · intro fill member partly
    rcases List.mem_cons.mp member with rfl | member
    · exact absurd rfl partly
    · exact follows.reduced fill member partly

/-- The iteration that fills the taker from part of a maker. -/
theorem Follows.fill {price : Price} {front : Order} {rest : Level}
    (wf : walk.matcher.book.WF)
    (queued : walk.matcher.book.queue order.side.opposite price = front :: rest)
    (short : walk.remaining < front.qty) :
    Follows order walk (walk.fill order price front rest)
      [⟨front.resting order.side.opposite price, walk.remaining⟩] Qty.zero := by
  have rests : front.resting order.side.opposite price ∈
      walk.matcher.book.iterResting := Book.mem_queue.mp (by simp [queued])
  have oneEvent : fillEvents order
      ⟨front.resting order.side.opposite price, walk.remaining⟩ =
      [.trade order.id front.id price walk.remaining] := by
    simp [fillEvents, short.ne]
  refine ⟨rfl, ?_, ?_, ?_, by simp, ?_, ?_⟩
  · rw [List.flatMap_singleton, oneEvent]
    rfl
  · rw [List.flatMap_singleton, oneEvent]
    rfl
  · intro resting
    rw [Walk.book_fill, wf.mem_iterResting_reduced queued]
    constructor
    · intro found
      rcases found with equal | ⟨member, distinct⟩
      · refine ⟨_, rests, ?_⟩
        simp [afterFills, short.ne, equal]
      · exact ⟨resting, member, by simp [afterFills, Ne.symm distinct]⟩
    · intro found
      rcases found with ⟨before, member, after⟩
      by_cases sameId : before.id = front.id
      · have equal := wf.resting_unique member rests sameId
        subst equal
        left
        simpa [afterFills, short.ne, eq_comm] using after
      · right
        have unchanged : before = resting := by
          simpa [afterFills, Ne.symm sameId] using after
        subst unchanged
        exact ⟨member, sameId⟩
  · intro fill member taken
    rw [List.mem_singleton] at member
    subst member
    exact absurd taken short.ne
  · intro fill member partly
    rw [List.mem_singleton] at member
    subst member
    refine ⟨rfl, ?_⟩
    simp [RestingOrder.order]

/-- No maker is admitted once the best price is out of reach. -/
theorem admitted_eq_nil {book : Book} (wf : book.WF)
    (stopped : ∀ price, book.best order.side.opposite = some price →
      order.crosses price = false) :
    (book.makers order.side.opposite).filter (admits order) = [] := by
  apply List.filter_eq_nil_iff.mpr
  intro maker member admitted
  rcases Book.mem_makers.mp member with ⟨sideEq, rests⟩
  have occupied : book.queue order.side.opposite maker.price ≠ [] := by
    rw [← sideEq]
    exact List.ne_nil_of_mem (Book.mem_iterResting.mp rests)
  cases bestEq : book.best order.side.opposite with
  | none => exact occupied (Book.best_eq_none bestEq maker.price)
  | some best =>
      have better := (wf.best_eq_some.mp bestEq).2 maker.price occupied
      have crosses : order.crosses best = true := by
        rw [admits_eq_crosses, crosses_iff] at admitted
        rw [crosses_iff]
        intro price limit
        exact better.trans (admitted price limit)
      rw [stopped best bestEq] at crosses
      cases crosses

/-- The matching loop performs the fills of the reference. -/
theorem matchLoop_follows (order : NewOrder) (walk : Walk) :
    walk.matcher.book.WF →
      Follows order walk ((matchLoop order).run walk)
        (consume ((walk.matcher.book.makers order.side.opposite).filter (admits order))
          walk.remaining).1
        (consume ((walk.matcher.book.makers order.side.opposite).filter (admits order))
          walk.remaining).2 := by
  induction walk using (matchLoop order).induction with
  | break_case walk stop =>
      intro wf
      rw [(matchLoop order).run_of_break stop]
      have nothing : consume ((walk.matcher.book.makers order.side.opposite).filter
          (admits order)) walk.remaining = ([], walk.remaining) := by
        rcases (matchBody_eq_none wf).mp stop with filled | stopped
        · rw [filled, consume_zero]
        · rw [admitted_eq_nil wf stopped, consume]
      rw [nothing]
      exact Follows.stop
  | continue_case walk next step ih =>
      intro wf
      have follows := ih (matchBody_WF wf step)
      rw [(matchLoop order).run_of_continue step]
      rcases matchBody_cases step with
        ⟨price, front, rest, bestEq, crosses, queued, wanted, outcome⟩
      rcases Book.makers_best bestEq with ⟨others, makersEq, placed⟩
      have admitted : admits order (front.resting order.side.opposite price) = true := by
        rw [admits_eq_crosses]
        exact crosses
      have split : (walk.matcher.book.makers order.side.opposite).filter (admits order) =
          front.resting order.side.opposite price ::
            (rest.map (Order.resting order.side.opposite price) ++ others).filter
              (admits order) := by
        rw [makersEq, queued, List.map_cons, List.cons_append,
          List.filter_cons_of_pos admitted]
      rw [split]
      rcases outcome with ⟨covers, rfl⟩ | ⟨short, rfl⟩
      · rw [consume_exhausts wanted covers]
        rw [Walk.book_exhaust, placed] at follows
        exact Follows.exhaust wf queued follows
      · rw [consume_fills wanted short]
        have filled : (walk.fill order price front rest).remaining = Qty.zero := rfl
        have stop : matchBody order (walk.fill order price front rest) = none :=
          (matchBody_eq_none (matchBody_WF wf step)).mpr (Or.inl filled)
        have ended : (matchLoop order).run (walk.fill order price front rest) =
            walk.fill order price front rest := (matchLoop order).run_of_break stop
        rw [ended]
        exact Follows.fill wf queued short

end Matcher

end Bourse
