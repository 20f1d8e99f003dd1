import Bourse.Book.Core

/-!
# The book as queues

What a book is for is one queue of orders per side and price.  `Book.queue`
reads that view off the maps, `Book.place` is the one update of it that adding,
cancelling and taking all perform (a level that becomes empty collapses), and
each operation is described once as such an update.
-/

namespace Bourse

namespace Book

variable {book : Book} {side other : Side} {price level_price : Price}

/-! ## Reading and writing queues -/

/-- The orders resting at `(side, price)`, the front first. -/
def queue (book : Book) (side : Side) (price : Price) : Level :=
  ((book.side side).get? price).getD []

/-- Set the queue at `(side, price)` and the index; an empty queue has no level. -/
def place (book : Book) (side : Side) (price : Price) (level : Level)
    (index : OrderedMap OrderId (Side × Price)) : Book :=
  let levels := book.side side
  { book.setSide (if level.isEmpty then levels.remove price
      else levels.insert price level) side with index }

@[simp] theorem side_setSide (levels : OrderedMap Price Level) :
    (book.setSide levels side).side other =
      if other = side then levels else book.side other := by
  cases side <;> cases other <;> rfl

@[simp] theorem index_setSide (levels : OrderedMap Price Level) :
    (book.setSide levels side).index = book.index := by
  cases side <;> rfl

@[simp] theorem side_withIndex (index : OrderedMap OrderId (Side × Price)) :
    ({ book with index } : Book).side side = book.side side := by
  cases side <;> rfl

theorem setSide_withIndex (levels : OrderedMap Price Level)
    (index : OrderedMap OrderId (Side × Price)) :
    ({ book with index } : Book).setSide levels side =
      { book.setSide levels side with index } := by
  cases side <;> rfl

@[simp] theorem index_place (level : Level)
    (index : OrderedMap OrderId (Side × Price)) :
    (book.place side price level index).index = index := rfl

theorem get?_place (level : Level) (index : OrderedMap OrderId (Side × Price)) :
    ((book.place side price level index).side other).get? level_price =
      if other = side ∧ level_price = price then
        (if level.isEmpty then none else some level)
      else (book.side other).get? level_price := by
  simp only [place, side_withIndex, side_setSide]
  by_cases sameSide : other = side
  · subst sameSide
    by_cases empty : level.isEmpty <;>
      by_cases samePrice : level_price = price <;>
      simp [empty, samePrice, OrderedMap.get?_insert, OrderedMap.get?_remove]
  · simp [sameSide]

@[simp] theorem queue_place (level : Level)
    (index : OrderedMap OrderId (Side × Price)) :
    (book.place side price level index).queue other level_price =
      if other = side ∧ level_price = price then level
      else book.queue other level_price := by
  simp only [queue, get?_place]
  split
  · by_cases empty : level.isEmpty
    · simp only [empty, if_true, Option.getD_none]
      exact (List.isEmpty_iff.mp empty).symm
    · simp [empty]
  · rfl

/-- Books are equal when their sides and indexes are. -/
theorem ext_side {left right : Book} (sides : ∀ side, left.side side = right.side side)
    (index : left.index = right.index) : left = right := by
  have bids := sides .buy
  have asks := sides .sell
  cases left
  cases right
  simp_all [Book.side]

/-! ## Resting orders -/

theorem mem_flatMap_levelResting {levels : OrderedMap Price Level}
    {resting : RestingOrder} :
    resting ∈ levels.entries.flatMap (levelResting side) ↔
      resting.side = side ∧
        resting.order ∈ (levels.get? resting.price).getD [] := by
  simp only [List.mem_flatMap, levelResting, List.mem_map]
  constructor
  · intro inside
    rcases inside with ⟨⟨price, level⟩, entry, order, member, rfl⟩
    rw [OrderedMap.mem_entries] at entry
    simpa [RestingOrder.order, entry] using member
  · intro queued
    rcases queued with ⟨sideEq, member⟩
    cases present : levels.get? resting.price with
    | none => simp [present] at member
    | some level =>
        refine ⟨(resting.price, level), OrderedMap.mem_entries.mpr present,
          resting.order, by simpa [present] using member, ?_⟩
        rw [← sideEq]
        rfl

/-- Iteration yields exactly the queued orders. -/
theorem mem_iterResting {resting : RestingOrder} :
    resting ∈ book.iterResting ↔
      resting.order ∈ book.queue resting.side resting.price := by
  simp only [iterResting, List.mem_append, mem_flatMap_levelResting, queue]
  cases sideEq : resting.side <;> simp [Book.side]

theorem mem_queue {order : Order} :
    order ∈ book.queue side price ↔ order.resting side price ∈ book.iterResting := by
  simp [mem_iterResting]

/-! ## The operations as queue updates -/

/-- The gate of `add`. -/
def Refuses (book : Book) (id : OrderId) (qty : Qty) : Prop :=
  qty = Qty.zero ∨ book.index.containsKey id

theorem add_of_refused {id : OrderId} {qty : Qty} {seq : Sequence}
    (refused : book.Refuses id qty) :
    book.add id side price qty seq = (book, false) :=
  if_pos refused

theorem add_of_fresh {id : OrderId} {qty : Qty} {seq : Sequence}
    (fresh : ¬book.Refuses id qty) :
    book.add id side price qty seq =
      (book.place side price (book.queue side price ++ [⟨id, qty, seq⟩])
        (book.index.insert id (side, price)), true) := by
  simp only [add]
  rw [Refuses] at fresh
  rw [if_neg fresh]
  simp [place, queue]

theorem add_eq_true {id : OrderId} {qty : Qty} {seq : Sequence} :
    (book.add id side price qty seq).2 = true ↔ ¬book.Refuses id qty := by
  by_cases refused : book.Refuses id qty
  · rw [add_of_refused refused]
    simpa using refused
  · rw [add_of_fresh refused]
    simpa using refused

/-- An added order is the last of its queue. -/
theorem queue_add {id : OrderId} {qty : Qty} {seq : Sequence} (fresh : ¬book.Refuses id qty)
    (other : Side) (level_price : Price) :
    (book.add id side price qty seq).1.queue other level_price =
      book.queue other level_price ++
        if other = side ∧ level_price = price then [⟨id, qty, seq⟩] else [] := by
  rw [add_of_fresh fresh, queue_place]
  split
  next here =>
    rcases here with ⟨rfl, rfl⟩
    rfl
  next => rw [List.append_nil]

theorem takeFront_of_zero : book.takeFront side price Qty.zero = (book, none) :=
  if_pos rfl

theorem takeFront_of_nil {want : Qty} (empty : book.queue side price = []) :
    book.takeFront side price want = (book, none) := by
  unfold takeFront
  split
  · rfl
  · cases present : (book.side side).get? price with
    | none => simp [present]
    | some level =>
        have nil : level = [] := by simpa [queue, present] using empty
        subst nil
        simp [present]

theorem get?_of_queue_cons {front : Order} {rest : Level}
    (queued : book.queue side price = front :: rest) :
    (book.side side).get? price = some (front :: rest) := by
  unfold queue at queued
  cases present : (book.side side).get? price with
  | none => simp [present] at queued
  | some level => simpa [present] using queued

/-- Taking at least the front order's quantity removes it. -/
theorem takeFront_exhausts {want : Qty} {front : Order} {rest : Level}
    (queued : book.queue side price = front :: rest) (wanted : want ≠ Qty.zero)
    (covers : front.qty ≤ want) :
    book.takeFront side price want =
      (book.place side price rest (book.index.remove front.id),
        some ⟨front.id, front.qty, Qty.zero⟩) := by
  have nothing : front.qty.saturatingSub front.qty = Qty.zero :=
    Qty.eq_iff.mpr (by simp)
  simp [takeFront, wanted, get?_of_queue_cons queued, covers, nothing, place,
    setSide_withIndex]

/-- Taking less than the front order's quantity reduces it in place. -/
theorem takeFront_reduces {want : Qty} {front : Order} {rest : Level}
    (queued : book.queue side price = front :: rest) (wanted : want ≠ Qty.zero)
    (short : want < front.qty) :
    book.takeFront side price want =
      (book.place side price
          ({ front with qty := front.qty.saturatingSub want } :: rest) book.index,
        some ⟨front.id, want, front.qty.saturatingSub want⟩) := by
  have something : front.qty.saturatingSub want ≠ Qty.zero := by
    rw [ne_eq, Qty.eq_iff, Qty.toNat_saturatingSub, Qty.toNat_zero]
    have := Qty.lt_iff.mp short
    omega
  have result : (book.setSide ((book.side side).insert price
      ({ front with qty := front.qty.saturatingSub want } :: rest)) side) =
      book.place side price
        ({ front with qty := front.qty.saturatingSub want } :: rest) book.index := by
    cases side <;> rfl
  simp only [takeFront, if_neg wanted, get?_of_queue_cons queued,
    if_neg (not_le_of_gt short), if_neg something, result]

/-- What `takeFront` can do: refuse, exhaust the front order or reduce it. -/
theorem takeFront_cases (book : Book) (side : Side) (price : Price) (want : Qty) :
    book.takeFront side price want = (book, none) ∨
      ∃ front rest, book.queue side price = front :: rest ∧ want ≠ Qty.zero ∧
        (front.qty ≤ want ∧ book.takeFront side price want =
            (book.place side price rest (book.index.remove front.id),
              some ⟨front.id, front.qty, Qty.zero⟩) ∨
          want < front.qty ∧ book.takeFront side price want =
            (book.place side price
                ({ front with qty := front.qty.saturatingSub want } :: rest) book.index,
              some ⟨front.id, want, front.qty.saturatingSub want⟩)) := by
  by_cases wanted : want = Qty.zero
  · subst wanted
    exact Or.inl takeFront_of_zero
  · cases queued : book.queue side price with
    | nil => exact Or.inl (takeFront_of_nil queued)
    | cons front rest =>
        refine Or.inr ⟨front, rest, rfl, wanted, ?_⟩
        rcases le_or_gt front.qty want with covers | short
        · exact Or.inl ⟨covers, takeFront_exhausts queued wanted covers⟩
        · exact Or.inr ⟨short, takeFront_reduces queued wanted short⟩

/-- Cancelling an indexed order, whatever its queue holds. -/
theorem cancel_of_entry {id : OrderId}
    (indexed : book.index.get? id = some (side, price)) :
    book.cancel id =
      match (book.queue side price).findIdx? fun order => order.id = id with
      | none => ({ book with index := book.index.remove id }, none)
      | some pos =>
          (book.place side price ((book.queue side price).eraseIdx pos)
            (book.index.remove id), (book.queue side price)[pos]?.map Order.qty) := by
  simp only [cancel, indexed, side_withIndex, queue]
  cases (book.side side).get? price with
  | none => rfl
  | some level =>
      simp only [Option.getD_some]
      cases found : level.findIdx? fun order => order.id = id with
      | none => rfl
      | some pos =>
          rcases List.findIdx?_eq_some_iff_getElem.mp found with ⟨bound, -⟩
          simp only [List.getElem?_eq_getElem bound, setSide_withIndex]
          rfl

/-! ## Number of resting orders -/

theorem len_add {id : OrderId} {qty : Qty} {seq : Sequence} (fresh : ¬book.Refuses id qty) :
    (book.add id side price qty seq).1.len = book.len + 1 := by
  have absent : book.index.get? id = none := by
    cases found : book.index.get? id with
    | none => rfl
    | some located =>
        exact absurd (.inr (OrderedMap.containsKey_eq_true.mpr ⟨located, found⟩)) fresh
  rw [add_of_fresh fresh, len, index_place]
  exact OrderedMap.len_insert_of_absent absent _

theorem len_add_le (book : Book) (id : OrderId) (side : Side) (price : Price) (qty : Qty)
    (seq : Sequence) : (book.add id side price qty seq).1.len ≤ book.len + 1 := by
  by_cases refused : book.Refuses id qty
  · rw [add_of_refused refused]
    exact Nat.le_succ _
  · exact (len_add refused).le

theorem len_cancel_le (book : Book) (id : OrderId) : (book.cancel id).1.len ≤ book.len := by
  cases indexed : book.index.get? id with
  | none => simp [cancel, indexed]
  | some located =>
      rw [cancel_of_entry indexed]
      cases (book.queue located.1 located.2).findIdx? fun order => order.id = id with
      | none => exact OrderedMap.len_remove_le _ _
      | some pos =>
          rw [len, index_place]
          exact OrderedMap.len_remove_le _ _

end Book

end Bourse
