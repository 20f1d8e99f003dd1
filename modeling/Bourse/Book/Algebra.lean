import Bourse.Book.Rebuild

/-!
# The algebra of adding and cancelling

Cancelling an id filters it out of every queue, whatever the book, and adding puts
an order at the end of one queue.  Since a well-formed book is determined by its
queues, that a cancellation undoes an addition and that operations on different
orders commute are facts about filtered lists; the levels that appear or collapse on
the way need no further argument.
-/

namespace Bourse

namespace Book

variable {book : Book} {side : Side} {price : Price} {id : OrderId} {qty : Qty}
  {seq : Sequence}

/-! ## Cancelling as filtering -/

/-- Orders other than `id`. -/
def Spared (id : OrderId) (order : Order) : Bool := order.id ≠ id

/-- A queue that does not hold `id` is left alone by filtering. -/
theorem WF.filter_spared_of_ne (wf : book.WF)
    (elsewhere : book.index.get? id ≠ some (side, price)) :
    (book.queue side price).filter (Spared id) = book.queue side price := by
  apply List.filter_eq_self.mpr
  intro order member
  have distinct : order.id ≠ id :=
    fun sameId => elsewhere ((wf.indexed _ _ _).mpr ⟨order, member, sameId⟩)
  simpa [Spared] using distinct

/-- Cancelling `id` filters it out of every queue. -/
theorem WF.queue_cancel (wf : book.WF) (id : OrderId) (side : Side) (price : Price) :
    (book.cancel id).1.queue side price = (book.queue side price).filter (Spared id) := by
  cases indexed : book.index.get? id with
  | none =>
      rw [cancel_of_absent indexed, wf.filter_spared_of_ne]
      rw [indexed]
      exact (Option.some_ne_none _).symm
  | some located =>
      rcases located with ⟨itsSide, itsPrice⟩
      rcases wf.cancel_of_indexed indexed with ⟨before, order, after, queued, rfl, cancelled⟩
      rw [cancelled, queue_place]
      split
      next here =>
        rcases here with ⟨rfl, rfl⟩
        have nodup := wf.nodup side price
        rw [queued, List.map_append, List.map_cons, List.nodup_middle,
          ← List.map_append, List.nodup_cons] at nodup
        have others : ∀ other ∈ before ++ after, Spared order.id other = true := by
          intro other member
          have distinct : other.id ≠ order.id :=
            fun sameId => nodup.1 (List.mem_map.mpr ⟨other, member, sameId⟩)
          simpa [Spared] using distinct
        have itself : Spared order.id order = false := by simp [Spared]
        rw [queued, List.filter_append, List.filter_cons, itself, if_neg Bool.false_ne_true,
          ← List.filter_append, List.filter_eq_self.mpr others]
      next elsewhere =>
        rw [wf.filter_spared_of_ne]
        rw [indexed]
        intro here
        rcases Prod.mk.inj (Option.some.inj here) with ⟨rfl, rfl⟩
        exact elsewhere ⟨rfl, rfl⟩

/-- What is left of a level, nothing when it collapses. -/
def spareLevel (id : OrderId) (level : Level) : Option Level :=
  if (level.filter (Spared id)).isEmpty then none else some (level.filter (Spared id))

theorem WF.side_cancel (wf : book.WF) (id : OrderId) (side : Side) :
    (book.cancel id).1.side side = (book.side side).filterMapValues (spareLevel id) := by
  apply OrderedMap.ext_get?
  intro price
  rw [OrderedMap.get?_filterMapValues, (wf.cancel id).get?_eq, wf.queue_cancel, queue]
  cases (book.side side).get? price with
  | none => rfl
  | some level => rfl

theorem levelResting_spareLevel (id : OrderId) (side : Side) (entry : Price × Level) :
    ((spareLevel id entry.2).map (Prod.mk entry.1)).toList.flatMap (levelResting side) =
      (levelResting side entry).filter fun resting => resting.id ≠ id := by
  have kept : (levelResting side entry).filter (fun resting => resting.id ≠ id) =
      (entry.2.filter (Spared id)).map (Order.resting side entry.1) := by
    rw [levelResting, List.filter_map]
    rfl
  rw [kept, spareLevel]
  split
  next empty =>
    rw [List.isEmpty_iff.mp empty]
    rfl
  next => simp [levelResting]

theorem WF.flatMap_side_cancel (wf : book.WF) (id : OrderId) (side : Side) :
    ((book.cancel id).1.side side).entries.flatMap (levelResting side) =
      ((book.side side).entries.flatMap (levelResting side)).filter
        fun resting => resting.id ≠ id := by
  rw [wf.side_cancel]
  simp only [OrderedMap.filterMapValues]
  induction (book.side side).entries with
  | nil => rfl
  | cons entry rest ih =>
      rw [List.flatMap_cons, List.filter_append, ← ih, ← levelResting_spareLevel,
        List.filterMap_cons]
      cases (spareLevel id entry.2).map (Prod.mk entry.1) with
      | none => rfl
      | some kept => simp

/-- Iteration after a cancellation is iteration before it without the order. -/
theorem WF.iterResting_cancel (wf : book.WF) (id : OrderId) :
    (book.cancel id).1.iterResting =
      book.iterResting.filter fun resting => resting.id ≠ id := by
  have bids := wf.flatMap_side_cancel id .buy
  have asks := wf.flatMap_side_cancel id .sell
  rw [iterResting, iterResting, List.filter_append]
  exact congrArg₂ _ bids asks

/-! ## Cancelling what was added -/

/-- A cancellation right after a successful addition undoes it. -/
theorem WF.cancel_add (wf : book.WF) (fresh : ¬book.Refuses id qty) :
    (book.add id side price qty seq).1.cancel id = (book, some qty) := by
  have addedWF : (book.add id side price qty seq).1.WF := wf.add id side price qty seq
  have absent : book.index.get? id = none := by
    have notIndexed := (not_or.mp fresh).2
    rwa [Bool.not_eq_true, OrderedMap.containsKey_eq_false] at notIndexed
  apply Prod.ext
  · refine (addedWF.cancel id).ext wf ?_
    intro other level_price
    have untouched : (book.queue other level_price).filter (Spared id) =
        book.queue other level_price := by
      apply wf.filter_spared_of_ne
      rw [absent]
      exact (Option.some_ne_none _).symm
    rw [addedWF.queue_cancel, queue_add fresh, List.filter_append, untouched]
    split <;> simp [Spared]
  · apply addedWF.cancel_eq_some.mpr
    exact ⟨⟨id, side, price, qty, seq⟩, (mem_iterResting_add fresh).mpr (Or.inl rfl), rfl, rfl⟩

/-! ## Operations on different orders -/

section Commute

variable {first second : OrderId}

/-- What a cancellation answers does not depend on other orders. -/
theorem WF.cancel_snd_congr {left right : Book} (leftWF : left.WF) (rightWF : right.WF)
    (same : ∀ resting : RestingOrder, resting.id = id →
      (resting ∈ left.iterResting ↔ resting ∈ right.iterResting)) :
    (left.cancel id).2 = (right.cancel id).2 := by
  apply Option.ext
  intro qty
  rw [leftWF.cancel_eq_some, rightWF.cancel_eq_some]
  apply exists_congr
  intro resting
  constructor
  · intro rests
    rcases rests with ⟨member, sameId, sameQty⟩
    exact ⟨(same resting sameId).mp member, sameId, sameQty⟩
  · intro rests
    rcases rests with ⟨member, sameId, sameQty⟩
    exact ⟨(same resting sameId).mpr member, sameId, sameQty⟩

theorem WF.cancel_snd_cancel (wf : book.WF) (distinct : first ≠ second) :
    ((book.cancel first).1.cancel second).2 = (book.cancel second).2 := by
  apply (wf.cancel first).cancel_snd_congr wf
  intro resting itsId
  rw [wf.iterResting_cancel, List.mem_filter, itsId]
  simp [Ne.symm distinct]

theorem WF.cancel_comm (wf : book.WF) (first second : OrderId) :
    ((book.cancel first).1.cancel second).1 = ((book.cancel second).1.cancel first).1 := by
  apply ((wf.cancel first).cancel second).ext ((wf.cancel second).cancel first)
  intro side price
  rw [(wf.cancel first).queue_cancel, (wf.cancel second).queue_cancel, wf.queue_cancel,
    wf.queue_cancel, List.filter_comm]

/-- Whether an id is taken does not depend on the cancellation of another. -/
theorem WF.refuses_cancel (wf : book.WF) (distinct : first ≠ second) :
    (book.cancel first).1.Refuses second qty ↔ book.Refuses second qty := by
  have indexed : (book.cancel first).1.contains second = true ↔
      book.contains second = true := by
    rw [(wf.cancel first).contains_iff, wf.contains_iff, wf.iterResting_cancel]
    apply exists_congr
    intro resting
    rw [List.mem_filter]
    constructor
    · intro rests
      rcases rests with ⟨⟨member, -⟩, itsId⟩
      exact ⟨member, itsId⟩
    · intro rests
      rcases rests with ⟨member, itsId⟩
      exact ⟨⟨member, by simpa [itsId] using Ne.symm distinct⟩, itsId⟩
  exact or_congr Iff.rfl indexed

theorem WF.add_snd_cancel (wf : book.WF) (distinct : first ≠ second) :
    ((book.cancel first).1.add second side price qty seq).2 =
      (book.add second side price qty seq).2 := by
  apply Bool.eq_iff_iff.mpr
  rw [add_eq_true, add_eq_true, wf.refuses_cancel distinct]

theorem WF.cancel_snd_add (wf : book.WF) (distinct : first ≠ second) :
    ((book.add second side price qty seq).1.cancel first).2 = (book.cancel first).2 := by
  by_cases refused : book.Refuses second qty
  · rw [add_of_refused refused]
  apply (wf.add second side price qty seq).cancel_snd_congr wf
  intro resting itsId
  rw [mem_iterResting_add refused]
  constructor
  · intro either
    rcases either with rfl | member
    · exact absurd itsId.symm distinct
    · exact member
  · exact Or.inr

theorem WF.cancel_add_comm (wf : book.WF) (distinct : first ≠ second) :
    ((book.cancel first).1.add second side price qty seq).1 =
      ((book.add second side price qty seq).1.cancel first).1 := by
  by_cases refused : book.Refuses second qty
  · rw [add_of_refused refused, add_of_refused ((wf.refuses_cancel distinct).mpr refused)]
  have allowed : ¬(book.cancel first).1.Refuses second qty :=
    mt (wf.refuses_cancel distinct).mp refused
  have addedWF : (book.add second side price qty seq).1.WF :=
    wf.add second side price qty seq
  apply ((wf.cancel first).add second side price qty seq).ext (addedWF.cancel first)
  intro other level_price
  rw [queue_add allowed, wf.queue_cancel, addedWF.queue_cancel, queue_add refused,
    List.filter_append]
  split
  · simp [Spared, Ne.symm distinct]
  · rfl

end Commute

/-- Adding and cancelling on every book that calls can build: a cancellation takes
out one order, undoes the addition before it, and commutes with what is done to
another order. -/
theorem ofCalls_algebra (calls : List Call) :
    let book := ofCalls calls
    (∀ id, (book.cancel id).1.iterResting =
      book.iterResting.filter fun resting => resting.id ≠ id) ∧
    (∀ id side price qty seq, (book.add id side price qty seq).2 = true →
      (book.add id side price qty seq).1.cancel id = (book, some qty)) ∧
    (∀ first second, first ≠ second →
      ((book.cancel first).1.cancel second).1 = ((book.cancel second).1.cancel first).1 ∧
      ((book.cancel first).1.cancel second).2 = (book.cancel second).2 ∧
      ((book.cancel second).1.cancel first).2 = (book.cancel first).2) ∧
    (∀ first second side price qty seq, first ≠ second →
      ((book.cancel first).1.add second side price qty seq).1 =
        ((book.add second side price qty seq).1.cancel first).1 ∧
      ((book.cancel first).1.add second side price qty seq).2 =
        (book.add second side price qty seq).2 ∧
      ((book.add second side price qty seq).1.cancel first).2 = (book.cancel first).2) := by
  intro book
  have wf : book.WF := ofCalls_WF calls
  refine ⟨wf.iterResting_cancel, ?_, ?_, ?_⟩
  · intro id side price qty seq added
    exact wf.cancel_add (add_eq_true.mp added)
  · intro first second distinct
    exact ⟨wf.cancel_comm first second, wf.cancel_snd_cancel distinct,
      wf.cancel_snd_cancel distinct.symm⟩
  · intro first second side price qty seq distinct
    exact ⟨wf.cancel_add_comm distinct, wf.add_snd_cancel distinct,
      wf.cancel_snd_add distinct⟩

end Book

end Bourse
