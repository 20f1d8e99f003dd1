import Bourse.Book.Resting

/-!
# Rebuilding a book from its resting orders

Adding resting orders one after another to an empty book gives every queue its
orders in the order of insertion.  A list with the queues of a well-formed book as
its sublists per side and price therefore rebuilds exactly that book.
-/

namespace Bourse

namespace Book

variable {book : Book} {side : Side} {price : Price}

/-- Add one resting order. -/
def addResting (book : Book) (resting : RestingOrder) : Book × Bool :=
  book.add resting.id resting.side resting.price resting.qty resting.seq

/-- Add a list of resting orders, in its order. -/
def addAll (book : Book) (orders : List RestingOrder) : Book :=
  orders.foldl (fun book resting => (book.addResting resting).1) book

/-- Every addition of the list succeeds: positive quantities, and ids that are
pairwise distinct and new to the book. -/
structure Addable (book : Book) (orders : List RestingOrder) : Prop where
  positive : ∀ resting ∈ orders, resting.qty ≠ Qty.zero
  nodup : (orders.map RestingOrder.id).Nodup
  fresh : ∀ resting ∈ orders, book.contains resting.id = false

/-- The orders of a list that belong to `(side, price)`, as queue entries. -/
def queueOf (orders : List RestingOrder) (side : Side) (price : Price) : Level :=
  (orders.filter fun resting => resting.side = side ∧ resting.price = price).map
    RestingOrder.order

theorem queueOf_cons (resting : RestingOrder) (orders : List RestingOrder) (side : Side)
    (price : Price) :
    queueOf (resting :: orders) side price =
      (if side = resting.side ∧ price = resting.price then [resting.order] else []) ++
        queueOf orders side price := by
  by_cases located : side = resting.side ∧ price = resting.price
  · rcases located with ⟨rfl, rfl⟩
    simp [queueOf]
  · have elsewhere : ¬(resting.side = side ∧ resting.price = price) :=
      fun found => located ⟨found.1.symm, found.2.symm⟩
    simp [queueOf, located, elsewhere]

theorem Addable.nil : book.Addable [] where
  positive _ member := by cases member
  nodup := List.nodup_nil
  fresh _ member := by cases member

theorem Addable.not_refuses {resting : RestingOrder} {orders : List RestingOrder}
    (addable : book.Addable (resting :: orders)) :
    ¬book.Refuses resting.id resting.qty := by
  intro refused
  rcases refused with zero | present
  · exact addable.positive resting List.mem_cons_self zero
  · have fresh := addable.fresh resting List.mem_cons_self
    rw [contains] at fresh
    rw [fresh] at present
    cases present

/-- After the first addition the rest of the list can still be added. -/
theorem Addable.tail {resting : RestingOrder} {orders : List RestingOrder}
    (addable : book.Addable (resting :: orders)) :
    (book.addResting resting).1.Addable orders where
  positive other member := addable.positive other (List.mem_cons_of_mem _ member)
  nodup := (List.nodup_cons.mp addable.nodup).2
  fresh other member := by
    have distinct : other.id ≠ resting.id := by
      intro sameId
      apply (List.nodup_cons.mp addable.nodup).1
      rw [← sameId]
      exact List.mem_map_of_mem member
    have fresh := addable.fresh other (List.mem_cons_of_mem _ member)
    rw [contains, OrderedMap.containsKey_eq_false] at fresh ⊢
    rw [addResting, add_of_fresh addable.not_refuses, index_place,
      OrderedMap.get?_insert, if_neg distinct]
    exact fresh

/-- A list can be added if its first order can, and then the rest. -/
theorem addable_cons {resting : RestingOrder} {orders : List RestingOrder} :
    book.Addable (resting :: orders) ↔
      ¬book.Refuses resting.id resting.qty ∧ (book.addResting resting).1.Addable orders := by
  constructor
  · exact fun addable => ⟨addable.not_refuses, addable.tail⟩
  · intro both
    rcases both with ⟨fresh, rest⟩
    have kept : ∀ other ∈ orders, other.id ≠ resting.id ∧ book.contains other.id = false := by
      intro other member
      have absent := rest.fresh other member
      rw [contains, OrderedMap.containsKey_eq_false, addResting, add_of_fresh fresh, index_place,
        OrderedMap.get?_insert] at absent
      split at absent
      next => cases absent
      next distinct => exact ⟨distinct, OrderedMap.containsKey_eq_false.mpr absent⟩
    refine ⟨?_, ?_, ?_⟩
    · intro other member
      rcases List.mem_cons.mp member with rfl | later
      · exact fun zero => fresh (.inl zero)
      · exact rest.positive other later
    · refine List.nodup_cons.mpr ⟨?_, rest.nodup⟩
      intro repeated
      rcases List.mem_map.mp repeated with ⟨other, member, sameId⟩
      exact (kept other member).1 sameId
    · intro other member
      rcases List.mem_cons.mp member with rfl | later
      · cases found : book.contains other.id with
        | false => rfl
        | true => exact absurd (.inr found) fresh
      · exact (kept other later).2

theorem addResting_eq_true {resting : RestingOrder} :
    (book.addResting resting).2 = true ↔ ¬book.Refuses resting.id resting.qty :=
  add_eq_true

/-- What adding a list of orders builds. -/
theorem Addable.addAll {orders : List RestingOrder} (addable : book.Addable orders)
    (wf : book.WF) :
    (book.addAll orders).WF ∧ ∀ side price, (book.addAll orders).queue side price =
      book.queue side price ++ queueOf orders side price := by
  induction orders generalizing book with
  | nil => exact ⟨wf, fun side price => by simp [Book.addAll, queueOf]⟩
  | cons resting orders ih =>
      have restWF : (book.addResting resting).1.WF := wf.add _ _ _ _ _
      rcases ih addable.tail restWF with ⟨finalWF, queues⟩
      refine ⟨finalWF, ?_⟩
      intro side price
      have step : (book.addAll (resting :: orders)).queue side price =
          ((book.addResting resting).1.addAll orders).queue side price := rfl
      rw [step, queues, addResting, queue_add addable.not_refuses, queueOf_cons,
        List.append_assoc]
      rfl

theorem Addable.len_addAll {orders : List RestingOrder} (addable : book.Addable orders) :
    (book.addAll orders).len = book.len + orders.length := by
  induction orders generalizing book with
  | nil => rfl
  | cons resting orders ih =>
      have step : (book.addAll (resting :: orders)).len =
          ((book.addResting resting).1.addAll orders).len := rfl
      rw [step, ih addable.tail, addResting, len_add addable.not_refuses, List.length_cons]
      omega

/-- A list of distinct orders whose queues are those of a well-formed book can be
added to an empty book. -/
theorem WF.addable (wf : book.WF) {orders : List RestingOrder}
    (nodup : (orders.map RestingOrder.id).Nodup)
    (queues : ∀ side price, queueOf orders side price = book.queue side price) :
    Book.new.Addable orders where
  positive resting member := by
    apply wf.positive resting.side resting.price resting.order
    rw [← queues]
    exact List.mem_map_of_mem (List.mem_filter.mpr ⟨member, by simp⟩)
  nodup := nodup
  fresh _ _ := rfl

/-- Adding such a list rebuilds the book. -/
theorem WF.addAll_eq (wf : book.WF) {orders : List RestingOrder}
    (nodup : (orders.map RestingOrder.id).Nodup)
    (queues : ∀ side price, queueOf orders side price = book.queue side price) :
    Book.new.addAll orders = book := by
  rcases (wf.addable nodup queues).addAll WF.new with ⟨finalWF, built⟩
  apply finalWF.ext wf
  intro side price
  rw [built, queues]
  cases side <;> rfl

/-! ## Iteration order -/

theorem flatMap_filter_price (levels : OrderedMap Price Level) (side : Side)
    (price : Price) :
    ((levels.entries.flatMap (levelResting side)).filter fun resting =>
        resting.side = side ∧ resting.price = price).map RestingOrder.order =
      (levels.get? price).getD [] := by
  rcases levels with ⟨entries, ascending⟩
  simp only [OrderedMap.get?]
  induction entries with
  | nil => rfl
  | cons entry rest ih =>
      rcases entry with ⟨head, level⟩
      rcases List.pairwise_cons.mp ascending with ⟨below, restAscending⟩
      have inHead : ((levelResting side (head, level)).filter fun resting =>
          resting.side = side ∧ resting.price = price).map RestingOrder.order =
          if price = head then level else [] := by
        by_cases equal : price = head
        · simp [levelResting, equal, List.filter_map, Function.comp_def]
        · simp [levelResting, Ne.symm equal, equal, List.filter_map, Function.comp_def]
      rw [List.flatMap_cons, List.filter_append, List.map_append, inHead,
        ih restAscending, OrderedMap.lookup]
      by_cases equal : price = head
      · subst equal
        have absent : OrderedMap.lookup price rest = none := by
          cases found : OrderedMap.lookup price rest with
          | none => rfl
          | some other =>
              exact absurd (below _ ((OrderedMap.lookup_eq_some_iff restAscending).mp
                found)) (lt_irrefl price)
        simp [absent]
      · simp [equal]

/-- Iterating a book and restricting to a side and price reads its queue. -/
theorem queueOf_iterResting (book : Book) (side : Side) (price : Price) :
    queueOf book.iterResting side price = book.queue side price := by
  have other : ∀ (levels : OrderedMap Price Level) (away : Side), away ≠ side →
      ((levels.entries.flatMap (levelResting away)).filter fun resting =>
        resting.side = side ∧ resting.price = price) = [] := by
    intro levels away distinct
    apply List.filter_eq_nil_iff.mpr
    intro resting member
    have sideEq := (mem_flatMap_levelResting.mp member).1
    simp [sideEq, distinct]
  rw [queueOf, iterResting, List.filter_append, List.map_append]
  cases side with
  | buy =>
      rw [flatMap_filter_price, other book.asks .sell (by decide)]
      simp [queue, Book.side]
  | sell =>
      rw [flatMap_filter_price, other book.bids .buy (by decide)]
      simp [queue, Book.side]

theorem WF.addable_iterResting (wf : book.WF) : Book.new.Addable book.iterResting :=
  wf.addable wf.iterResting_ids_nodup (queueOf_iterResting book)

/-- Re-adding a well-formed book's orders in iteration order rebuilds it. -/
theorem WF.addAll_iterResting (wf : book.WF) : Book.new.addAll book.iterResting = book :=
  wf.addAll_eq wf.iterResting_ids_nodup (queueOf_iterResting book)

end Book

end Bourse
