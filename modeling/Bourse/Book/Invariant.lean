import Bourse.Book.Queue
import Mathlib.Data.List.Nodup

/-!
# The representation invariant of the book

`Book.WF` keeps the two level maps and the index in step.  Every operation
preserves it, whatever its arguments and whether it succeeds or is refused, so
every book built through `Book.add`, `Book.cancel` and `Book.takeFront` has it.
A well-formed book is determined by its queues.
-/

namespace Bourse

namespace Book

/-- The two level maps and the index describe the same resting orders. -/
structure WF (book : Book) : Prop where
  nonempty : ∀ side price, (book.side side).get? price ≠ some []
  positive : ∀ side price, ∀ order ∈ book.queue side price, order.qty ≠ Qty.zero
  nodup : ∀ side price, ((book.queue side price).map Order.id).Nodup
  indexed : ∀ id side price, book.index.get? id = some (side, price) ↔
    ∃ order ∈ book.queue side price, order.id = id

variable {book : Book} {side : Side} {price : Price} {id : OrderId}

/-! ## Consequences -/

theorem WF.get?_eq (wf : book.WF) (side : Side) (price : Price) :
    (book.side side).get? price =
      if (book.queue side price).isEmpty then none
      else some (book.queue side price) := by
  have nonempty := wf.nonempty side price
  unfold queue
  cases present : (book.side side).get? price with
  | none => simp
  | some level =>
      rw [present] at nonempty
      cases level with
      | nil => exact absurd rfl nonempty
      | cons front rest => simp

/-- A well-formed book is determined by its queues. -/
theorem WF.ext {left right : Book} (leftWF : left.WF) (rightWF : right.WF)
    (queues : ∀ side price, left.queue side price = right.queue side price) :
    left = right := by
  apply ext_side
  · intro side
    apply OrderedMap.ext_get?
    intro price
    rw [leftWF.get?_eq, rightWF.get?_eq, queues]
  · apply OrderedMap.ext_get?
    intro id
    apply Option.ext
    intro located
    rcases located with ⟨side, price⟩
    rw [leftWF.indexed, rightWF.indexed, queues]

theorem WF.contains_iff (wf : book.WF) :
    book.contains id = true ↔ ∃ resting ∈ book.iterResting, resting.id = id := by
  simp only [contains, OrderedMap.containsKey_eq_true, Prod.exists, wf.indexed]
  constructor
  · intro indexed
    rcases indexed with ⟨side, price, order, member, rfl⟩
    exact ⟨order.resting side price, mem_queue.mp member, rfl⟩
  · intro rests
    rcases rests with ⟨resting, member, rfl⟩
    exact ⟨resting.side, resting.price, resting.order, mem_iterResting.mp member, rfl⟩

/-- An id names at most one resting order. -/
theorem WF.resting_unique (wf : book.WF) {left right : RestingOrder}
    (leftMem : left ∈ book.iterResting) (rightMem : right ∈ book.iterResting)
    (sameId : left.id = right.id) : left = right := by
  rw [mem_iterResting] at leftMem rightMem
  have leftIndexed := (wf.indexed _ _ _).mpr ⟨left.order, leftMem, rfl⟩
  have rightIndexed := (wf.indexed _ _ _).mpr ⟨right.order, rightMem, rfl⟩
  have located : some (left.side, left.price) = some (right.side, right.price) := by
    rw [← leftIndexed, ← rightIndexed]
    exact congrArg _ sameId
  rcases Prod.mk.inj (Option.some.inj located) with ⟨sideEq, priceEq⟩
  rw [← sideEq, ← priceEq] at rightMem
  have orderEq : left.order = right.order :=
    List.inj_on_of_nodup_map (wf.nodup left.side left.price) leftMem rightMem sameId
  rcases left with ⟨leftId, leftSide, leftPrice, leftQty, leftSeq⟩
  rcases right with ⟨rightId, rightSide, rightPrice, rightQty, rightSeq⟩
  simp_all [RestingOrder.order]

/-! ## Iteration meets every resting order once -/

theorem WF.flatMap_nodup (wf : book.WF) (side : Side) :
    ((book.side side).entries.flatMap (levelResting side)).Nodup := by
  rw [List.nodup_flatMap]
  constructor
  · intro located entry
    rcases located with ⟨price, level⟩
    have present := OrderedMap.mem_entries.mp entry
    have nodup := wf.nodup side price
    simp only [queue, present, Option.getD_some] at nodup
    have injective : Function.Injective (Order.resting side price) := by
      intro left right equal
      have := congrArg RestingOrder.order equal
      simpa using this
    exact (List.Nodup.of_map _ nodup).map injective
  · refine (book.side side).ascending.imp ?_
    intro left right less resting inLeft inRight
    simp only [levelResting, List.mem_map] at inLeft inRight
    rcases inLeft with ⟨leftOrder, -, rfl⟩
    rcases inRight with ⟨rightOrder, -, equal⟩
    have : right.1 = left.1 := congrArg RestingOrder.price equal
    exact absurd this less.ne'

theorem WF.iterResting_ids_nodup (wf : book.WF) :
    (book.iterResting.map RestingOrder.id).Nodup := by
  have nodup : book.iterResting.Nodup := by
    refine List.Nodup.append (wf.flatMap_nodup .buy) (wf.flatMap_nodup .sell) ?_
    intro resting inBids inAsks
    have buy := (mem_flatMap_levelResting.mp inBids).1
    have sell := (mem_flatMap_levelResting.mp inAsks).1
    rw [buy] at sell
    exact Side.noConfusion sell
  exact nodup.map_on fun left leftMem right rightMem sameId =>
    wf.resting_unique leftMem rightMem sameId

/-- `len` counts the resting orders. -/
theorem WF.len_eq (wf : book.WF) : book.len = book.iterResting.length := by
  have sameIds : (book.index.entries.map Prod.fst).Perm
      (book.iterResting.map RestingOrder.id) := by
    rw [List.perm_ext_iff_of_nodup book.index.keys_nodup wf.iterResting_ids_nodup]
    intro id
    simp only [List.mem_map]
    rw [← wf.contains_iff, contains, OrderedMap.containsKey_eq_true]
    constructor
    · intro listed
      rcases listed with ⟨⟨_, value⟩, entry, rfl⟩
      exact ⟨value, OrderedMap.mem_entries.mp entry⟩
    · intro indexed
      rcases indexed with ⟨value, present⟩
      exact ⟨(id, value), OrderedMap.mem_entries.mpr present, rfl⟩
  simpa [len, OrderedMap.len] using sameIds.length_eq

/-! ## Preservation -/

theorem WF.new : new.WF where
  nonempty side price := by cases side <;> simp [Book.new, Book.side]
  positive side price order member := by
    cases side <;> simp [Book.new, queue, Book.side] at member
  nodup side price := by cases side <;> simp [Book.new, queue, Book.side]
  indexed id side price := by cases side <;> simp [Book.new, queue, Book.side]

/-- Writing a queue keeps the invariant when the queue itself is sound and the
index follows it. -/
theorem WF.place (wf : book.WF) {level : Level}
    {index : OrderedMap OrderId (Side × Price)}
    (positive : ∀ order ∈ level, order.qty ≠ Qty.zero)
    (nodup : (level.map Order.id).Nodup)
    (indexed : ∀ id other level_price, index.get? id = some (other, level_price) ↔
      ∃ order ∈ (book.place side price level index).queue other level_price,
        order.id = id) :
    (book.place side price level index).WF where
  nonempty other level_price := by
    rw [get?_place]
    split
    · cases level <;> simp
    · exact wf.nonempty other level_price
  positive other level_price := by
    rw [queue_place]
    split
    · exact positive
    · exact wf.positive other level_price
  nodup other level_price := by
    rw [queue_place]
    split
    · exact nodup
    · exact wf.nodup other level_price
  indexed := indexed

theorem WF.add (wf : book.WF) (id : OrderId) (side : Side) (price : Price) (qty : Qty)
    (seq : Sequence) : (book.add id side price qty seq).1.WF := by
  by_cases refused : book.Refuses id qty
  · rw [add_of_refused refused]
    exact wf
  rw [add_of_fresh refused]
  rcases not_or.mp refused with ⟨positive, absent⟩
  rw [Bool.not_eq_true, OrderedMap.containsKey_eq_false] at absent
  -- No queue holds the new id yet: the index would know.
  have fresh : ∀ other level_price, ∀ order ∈ book.queue other level_price,
      order.id ≠ id := by
    intro other level_price order member sameId
    have := (wf.indexed id other level_price).mpr ⟨order, member, sameId⟩
    rw [absent] at this
    cases this
  refine wf.place ?_ ?_ ?_
  · intro order member
    rcases List.mem_append.mp member with member | member
    · exact wf.positive side price order member
    · rw [List.mem_singleton] at member
      rw [member]
      exact positive
  · rw [List.map_append, List.nodup_append]
    refine ⟨wf.nodup side price, by simp, ?_⟩
    intro other otherMem added idMem
    rcases List.mem_map.mp otherMem with ⟨order, member, rfl⟩
    rw [List.map_singleton, List.mem_singleton] at idMem
    rw [idMem]
    exact fresh side price order member
  · intro otherId other level_price
    rw [OrderedMap.get?_insert, queue_place]
    by_cases sameId : otherId = id
    · subst sameId
      simp only [if_true, Option.some.injEq, Prod.mk.injEq]
      constructor
      · intro located
        rcases located with ⟨rfl, rfl⟩
        simp
      · intro found
        rcases found with ⟨order, member, orderId⟩
        split at member
        next located => exact ⟨located.1.symm, located.2.symm⟩
        next => exact absurd orderId (fresh _ _ order member)
    · rw [if_neg sameId, wf.indexed]
      split
      next located =>
        rcases located with ⟨rfl, rfl⟩
        simp [Ne.symm sameId]
      next => rfl

/-- Taking one order out of its queue and out of the index. -/
theorem WF.removed (wf : book.WF) {before after : Level} {order : Order}
    (queued : book.queue side price = before ++ order :: after) :
    (book.place side price (before ++ after) (book.index.remove order.id)).WF := by
  have sublist : (before ++ after).Sublist (book.queue side price) := by
    rw [queued]
    exact (List.Sublist.refl before).append (List.sublist_cons_self order after)
  have nodup := wf.nodup side price
  refine wf.place ?_ (nodup.sublist (sublist.map _)) ?_
  · intro other member
    exact wf.positive side price other (sublist.subset member)
  · have orderIndexed : book.index.get? order.id = some (side, price) :=
      (wf.indexed _ _ _).mpr ⟨order, by simp [queued], rfl⟩
    rw [queued, List.map_append, List.map_cons, List.nodup_middle,
      ← List.map_append, List.nodup_cons] at nodup
    have gone : ∀ other ∈ before ++ after, other.id ≠ order.id :=
      fun other member sameId => nodup.1 (List.mem_map.mpr ⟨other, member, sameId⟩)
    intro id other level_price
    rw [OrderedMap.get?_remove, queue_place]
    by_cases sameId : id = order.id
    · subst sameId
      simp only [if_true, false_iff, not_exists, not_and, reduceCtorEq]
      intro found member foundId
      split at member
      next => exact gone found member foundId
      next elsewhere =>
        have foundIndexed := (wf.indexed _ other level_price).mpr
          ⟨found, member, foundId⟩
        rw [orderIndexed] at foundIndexed
        rcases Prod.mk.inj (Option.some.inj foundIndexed) with ⟨rfl, rfl⟩
        exact elsewhere ⟨rfl, rfl⟩
    · rw [if_neg sameId, wf.indexed]
      split
      next located =>
        rcases located with ⟨rfl, rfl⟩
        rw [queued]
        simp only [List.mem_append, List.mem_cons]
        constructor
        · intro remains
          rcases remains with ⟨found, member | rfl | member, rfl⟩
          · exact ⟨found, Or.inl member, rfl⟩
          · exact absurd rfl sameId
          · exact ⟨found, Or.inr member, rfl⟩
        · intro remains
          rcases remains with ⟨found, member | member, rfl⟩
          · exact ⟨found, Or.inl member, rfl⟩
          · exact ⟨found, Or.inr (Or.inr member), rfl⟩
      next => rfl

/-- Changing only the quantity of the front order. -/
theorem WF.reduced (wf : book.WF) {front : Order} {rest : Level} {qty : Qty}
    (queued : book.queue side price = front :: rest) (positive : qty ≠ Qty.zero) :
    (book.place side price ({ front with qty } :: rest) book.index).WF := by
  have nodup := wf.nodup side price
  rw [queued] at nodup
  refine wf.place ?_ (by simpa using nodup) ?_
  · intro order member
    rcases List.mem_cons.mp member with rfl | member
    · exact positive
    · exact wf.positive side price order (by rw [queued]; exact List.mem_cons_of_mem _ member)
  · intro id other level_price
    rw [wf.indexed, queue_place]
    split
    next located =>
      rcases located with ⟨rfl, rfl⟩
      simp [queued]
    next => rfl

theorem WF.takeFront (wf : book.WF) (side : Side) (price : Price) (want : Qty) :
    (book.takeFront side price want).1.WF := by
  rcases takeFront_cases book side price want with
    refused | ⟨front, rest, queued, -, ⟨-, taken⟩ | ⟨short, taken⟩⟩
  · rw [refused]
    exact wf
  · rw [taken]
    exact wf.removed (show book.queue side price = [] ++ front :: rest from queued)
  · rw [taken]
    refine wf.reduced queued ?_
    rw [ne_eq, Qty.eq_iff, Qty.toNat_saturatingSub, Qty.toNat_zero]
    have := Qty.lt_iff.mp short
    omega

/-! ## Cancelling -/

theorem cancel_of_absent (absent : book.index.get? id = none) :
    book.cancel id = (book, none) := by
  simp [cancel, absent]

/-- An indexed order is found where the index says, so none of the early returns
of `cancel` behind the index lookup is taken. -/
theorem WF.find_indexed (wf : book.WF) (indexed : book.index.get? id = some (side, price)) :
    ∃ pos order, (book.side side).get? price = some (book.queue side price) ∧
      ((book.queue side price).findIdx? fun order => order.id = id) = some pos ∧
      (book.queue side price)[pos]? = some order ∧ order.id = id := by
  rcases (wf.indexed id side price).mp indexed with ⟨order, member, sameId⟩
  have found : ((book.queue side price).findIdx? fun order => order.id = id).isSome := by
    rw [List.findIdx?_isSome, List.any_eq_true]
    exact ⟨order, member, by simpa using sameId⟩
  rcases Option.isSome_iff_exists.mp found with ⟨pos, posEq⟩
  rcases List.findIdx?_eq_some_iff_getElem.mp posEq with ⟨bound, matched, -⟩
  refine ⟨pos, (book.queue side price)[pos], ?_, posEq,
    List.getElem?_eq_getElem bound, by simpa using matched⟩
  have nonempty : (book.queue side price).isEmpty = false :=
    List.isEmpty_eq_false_iff.mpr (List.ne_nil_of_mem member)
  rw [wf.get?_eq, nonempty]
  rfl

/-- Cancelling a resting order takes it out of its queue. -/
theorem WF.cancel_of_indexed (wf : book.WF)
    (indexed : book.index.get? id = some (side, price)) :
    ∃ before order after, book.queue side price = before ++ order :: after ∧
      order.id = id ∧ book.cancel id =
        (book.place side price (before ++ after) (book.index.remove id),
          some order.qty) := by
  rcases wf.find_indexed indexed with ⟨pos, order, -, posEq, orderAt, sameId⟩
  rcases List.getElem?_eq_some_iff.mp orderAt with ⟨bound, orderEq⟩
  refine ⟨(book.queue side price).take pos, order,
    (book.queue side price).drop (pos + 1), ?_, sameId, ?_⟩
  · rw [← orderEq, List.getElem_cons_drop, List.take_append_drop]
  · rw [cancel_of_entry indexed, posEq]
    simp only [orderAt, List.eraseIdx_eq_take_drop_succ, Option.map_some]

theorem WF.cancel (wf : book.WF) (id : OrderId) : (book.cancel id).1.WF := by
  cases indexed : book.index.get? id with
  | none =>
      rw [cancel_of_absent indexed]
      exact wf
  | some located =>
      rcases wf.cancel_of_indexed indexed with ⟨before, order, after, queued, rfl, cancelled⟩
      rw [cancelled]
      exact wf.removed queued

/-- `cancel` answers with the quantity of the order that rests under the id. -/
theorem WF.cancel_eq_some (wf : book.WF) {qty : Qty} :
    (book.cancel id).2 = some qty ↔
      ∃ resting ∈ book.iterResting, resting.id = id ∧ resting.qty = qty := by
  cases indexed : book.index.get? id with
  | none =>
      have absent : ¬∃ resting ∈ book.iterResting, resting.id = id := by
        rw [← wf.contains_iff, contains, OrderedMap.containsKey_eq_true, indexed]
        simp
      rw [cancel_of_absent indexed]
      constructor
      · intro impossible
        cases impossible
      · intro rests
        rcases rests with ⟨resting, member, sameId, -⟩
        exact absurd ⟨resting, member, sameId⟩ absent
  | some located =>
      rcases wf.cancel_of_indexed indexed with ⟨before, order, after, queued, rfl, cancelled⟩
      have rests : order.resting located.1 located.2 ∈ book.iterResting :=
        mem_queue.mp (by simp [queued])
      rw [cancelled]
      constructor
      · intro equal
        exact ⟨_, rests, rfl, Option.some.inj equal⟩
      · intro shown
        rcases shown with ⟨resting, member, sameId, rfl⟩
        rw [wf.resting_unique member rests sameId]
        rfl

theorem WF.cancel_eq_none (wf : book.WF) (refused : (book.cancel id).2 = none) :
    book.index.get? id = none := by
  cases indexed : book.index.get? id with
  | none => rfl
  | some located =>
      rcases wf.cancel_of_indexed indexed with ⟨before, order, after, -, -, cancelled⟩
      rw [cancelled] at refused
      cases refused

/-! ## Books built by calls -/

/-- One call of a mutating method of the book, with arbitrary arguments. -/
inductive Call where
  | add (id : OrderId) (side : Side) (price : Price) (qty : Qty) (seq : Sequence)
  | cancel (id : OrderId)
  | takeFront (side : Side) (price : Price) (want : Qty)
  deriving DecidableEq, Repr

/-- The book after one call. -/
def apply (book : Book) : Call → Book
  | .add id side price qty seq => (book.add id side price qty seq).1
  | .cancel id => (book.cancel id).1
  | .takeFront side price want => (book.takeFront side price want).1

/-- The book after a sequence of calls on `Book.new`. -/
def ofCalls (calls : List Call) : Book := calls.foldl apply new

theorem WF.apply (wf : book.WF) (call : Call) : (book.apply call).WF := by
  cases call with
  | add id side price qty seq => exact wf.add id side price qty seq
  | cancel id => exact wf.cancel id
  | takeFront side price want => exact wf.takeFront side price want

theorem WF.foldl_apply (calls : List Call) :
    ∀ {book : Book}, book.WF → (calls.foldl Book.apply book).WF := by
  induction calls with
  | nil => exact id
  | cons call calls ih => exact fun wf => ih (wf.apply call)

theorem ofCalls_WF (calls : List Call) : (ofCalls calls).WF :=
  WF.foldl_apply calls WF.new

/-- The representation invariant and its consequences for every book that calls
of `add`, `cancel` and `takeFront` can build. -/
theorem ofCalls_representation (calls : List Call) :
    let book := ofCalls calls
    (∀ side price, (book.side side).get? price ≠ some []) ∧
    (∀ resting ∈ book.iterResting, Qty.zero < resting.qty) ∧
    (book.iterResting.map RestingOrder.id).Nodup ∧
    (∀ id side price, book.index.get? id = some (side, price) ↔
      ∃ level, (book.side side).get? price = some level ∧
        ∃ order ∈ level, order.id = id) ∧
    book.len = book.iterResting.length ∧
    (∀ id qty, (book.cancel id).2 = some qty ↔
      ∃ resting ∈ book.iterResting, resting.id = id ∧ resting.qty = qty) ∧
    (∀ id side price qty seq, (book.add id side price qty seq).2 = false →
      (book.add id side price qty seq).1 = book) ∧
    (∀ id, (book.cancel id).2 = none → (book.cancel id).1 = book) ∧
    (∀ side price want, (book.takeFront side price want).2 = none →
      (book.takeFront side price want).1 = book) ∧
    -- The early returns of `cancel` after the index removal are unreachable.
    (∀ id side price, book.index.get? id = some (side, price) →
      ∃ level pos order, (book.side side).get? price = some level ∧
        (level.findIdx? fun order => order.id = id) = some pos ∧
        level[pos]? = some order) := by
  intro book
  have wf : book.WF := ofCalls_WF calls
  refine ⟨wf.nonempty, ?_, wf.iterResting_ids_nodup, ?_, wf.len_eq,
    fun id qty => wf.cancel_eq_some, ?_, ?_, ?_, ?_⟩
  · intro resting member
    have positive := wf.positive _ _ _ (mem_iterResting.mp member)
    rw [ne_eq, Qty.eq_iff] at positive
    exact Qty.lt_iff.mpr (Nat.pos_of_ne_zero positive)
  · intro id side price
    rw [wf.indexed]
    unfold queue
    cases present : (book.side side).get? price <;> simp
  · intro id side price qty seq refused
    by_cases gate : book.Refuses id qty
    · rw [add_of_refused gate]
    · rw [add_of_fresh gate] at refused
      cases refused
  · intro id refused
    rw [cancel_of_absent (wf.cancel_eq_none refused)]
  · intro side price want refused
    rcases takeFront_cases book side price want with
      unchanged | ⟨front, rest, -, -, ⟨-, taken⟩ | ⟨-, taken⟩⟩
    · rw [unchanged]
    · rw [taken] at refused
      cases refused
    · rw [taken] at refused
      cases refused
  · intro id side price indexed
    rcases wf.find_indexed indexed with ⟨pos, order, present, posEq, orderAt, -⟩
    exact ⟨_, pos, order, present, posEq, orderAt⟩

end Book

end Bourse
