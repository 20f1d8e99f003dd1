import Bourse.Book.Invariant

/-!
# Resting orders in priority order

`Book.makers` lists one side best price first and, within a price, front first.
The best price is the price of its head, and an update of the best level only
touches the front of the list.
-/

namespace Bourse

/-- `price` is at least as good as `other` for a taker against `side`. -/
def Side.BetterEq : Side → Price → Price → Prop
  | .sell, price, other => price ≤ other
  | .buy, price, other => other ≤ price

instance (side : Side) (price other : Price) : Decidable (side.BetterEq price other) := by
  cases side <;> exact inferInstanceAs (Decidable (_ ≤ _))

theorem Side.BetterEq.trans {side : Side} {first second third : Price}
    (left : side.BetterEq first second) (right : side.BetterEq second third) :
    side.BetterEq first third := by
  cases side with
  | buy => exact le_trans right left
  | sell => exact le_trans left right

theorem Side.BetterEq.antisymm {side : Side} {first second : Price}
    (left : side.BetterEq first second) (right : side.BetterEq second first) :
    first = second := by
  cases side with
  | buy => exact le_antisymm right left
  | sell => exact le_antisymm left right

theorem Side.betterEq_total (side : Side) (first second : Price) :
    side.BetterEq first second ∨ side.BetterEq second first := by
  cases side with
  | buy => exact le_total second first
  | sell => exact le_total first second

namespace Book

variable {book : Book} {side other : Side} {price : Price}

/-! ## Membership after an update -/

theorem mem_iterResting_place {level : Level}
    {index : OrderedMap OrderId (Side × Price)} {resting : RestingOrder} :
    resting ∈ (book.place side price level index).iterResting ↔
      if resting.side = side ∧ resting.price = price then resting.order ∈ level
      else resting ∈ book.iterResting := by
  rw [mem_iterResting, queue_place]
  split
  · rfl
  · rw [mem_iterResting]

theorem mem_iterResting_add {id : OrderId} {qty : Qty} {seq : Sequence}
    {resting : RestingOrder} (fresh : ¬book.Refuses id qty) :
    resting ∈ (book.add id side price qty seq).1.iterResting ↔
      resting = ⟨id, side, price, qty, seq⟩ ∨ resting ∈ book.iterResting := by
  rw [add_of_fresh fresh, mem_iterResting_place]
  split
  next located =>
    rcases located with ⟨rfl, rfl⟩
    rw [List.mem_append, List.mem_singleton, ← mem_iterResting, or_comm]
    rcases resting with ⟨restingId, restingSide, restingPrice, restingQty, restingSeq⟩
    simp [RestingOrder.order]
  next elsewhere =>
    constructor
    · exact Or.inr
    · intro either
      rcases either with rfl | member
      · exact absurd ⟨rfl, rfl⟩ elsewhere
      · exact member

theorem WF.mem_iterResting_removed (wf : book.WF) {before after : Level} {order : Order}
    (queued : book.queue side price = before ++ order :: after) {resting : RestingOrder} :
    resting ∈ (book.place side price (before ++ after)
        (book.index.remove order.id)).iterResting ↔
      resting ∈ book.iterResting ∧ resting.id ≠ order.id := by
  have rests : order.resting side price ∈ book.iterResting :=
    mem_queue.mp (by simp [queued])
  have nodup := wf.nodup side price
  rw [queued, List.map_append, List.map_cons, List.nodup_middle,
    ← List.map_append, List.nodup_cons] at nodup
  rw [mem_iterResting_place, mem_iterResting]
  split
  next located =>
    rcases located with ⟨rfl, rfl⟩
    rw [queued]
    simp only [List.mem_append, List.mem_cons]
    constructor
    · intro member
      have distinct : resting.id ≠ order.id := fun sameId =>
        nodup.1 (List.mem_map.mpr ⟨resting.order, List.mem_append.mpr member, sameId⟩)
      exact ⟨by tauto, distinct⟩
    · intro remains
      rcases remains with ⟨member | equal | member, distinct⟩
      · exact Or.inl member
      · exact absurd (congrArg Order.id equal) distinct
      · exact Or.inr member
  next elsewhere =>
    constructor
    · intro member
      refine ⟨member, fun sameId => elsewhere ?_⟩
      have equal := wf.resting_unique (mem_iterResting.mpr member) rests sameId
      rw [equal]
      exact ⟨rfl, rfl⟩
    · intro remains
      rcases remains with ⟨member, -⟩
      exact member

theorem WF.mem_iterResting_reduced (wf : book.WF) {front : Order} {rest : Level}
    {qty : Qty} (queued : book.queue side price = front :: rest)
    {resting : RestingOrder} :
    resting ∈ (book.place side price ({ front with qty } :: rest)
        book.index).iterResting ↔
      resting = ⟨front.id, side, price, qty, front.seq⟩ ∨
        resting ∈ book.iterResting ∧ resting.id ≠ front.id := by
  have rests : front.resting side price ∈ book.iterResting :=
    mem_queue.mp (by simp [queued])
  have nodup := wf.nodup side price
  rw [queued, List.map_cons, List.nodup_cons] at nodup
  rw [mem_iterResting_place, mem_iterResting]
  split
  next located =>
    rcases located with ⟨rfl, rfl⟩
    rw [queued]
    simp only [List.mem_cons]
    constructor
    · intro queuedNow
      rcases queuedNow with equal | member
      · left
        rcases resting with ⟨id, restingSide, restingPrice, restingQty, seq⟩
        simp_all [RestingOrder.order]
      · exact Or.inr ⟨Or.inr member, fun sameId =>
          nodup.1 (List.mem_map.mpr ⟨resting.order, member, sameId⟩)⟩
    · intro either
      rcases either with equal | ⟨equal | member, distinct⟩
      · left
        rw [equal]
        rfl
      · exact absurd (congrArg Order.id equal) distinct
      · exact Or.inr member
  next elsewhere =>
    constructor
    · intro member
      refine Or.inr ⟨member, fun sameId => elsewhere ?_⟩
      have equal := wf.resting_unique (mem_iterResting.mpr member) rests sameId
      rw [equal]
      exact ⟨rfl, rfl⟩
    · intro either
      rcases either with rfl | ⟨member, -⟩
      · exact absurd ⟨rfl, rfl⟩ elsewhere
      · exact member

/-! ## The best price -/

theorem WF.best_eq_some (wf : book.WF) :
    book.best side = some price ↔ book.queue side price ≠ [] ∧
      ∀ worse, book.queue side worse ≠ [] → side.BetterEq price worse := by
  have present : ∀ level_price, (∃ level, (book.side side).get? level_price = some level) ↔
      book.queue side level_price ≠ [] := by
    intro level_price
    rw [wf.get?_eq]
    cases book.queue side level_price <;> simp
  cases side with
  | buy =>
      simp only [best, bestBid, Option.map_eq_some_iff, Prod.exists, exists_and_right,
        exists_eq_right, OrderedMap.lastKeyValue_eq_some, ← present, Side.BetterEq]
      constructor
      · intro bestEntry
        rcases bestEntry with ⟨found, greatest⟩
        exact ⟨found, fun worse ⟨other, atWorse⟩ => greatest worse other atWorse⟩
      · intro bestEntry
        rcases bestEntry with ⟨found, greatest⟩
        exact ⟨found, fun worse other atWorse => greatest worse ⟨other, atWorse⟩⟩
  | sell =>
      simp only [best, bestAsk, Option.map_eq_some_iff, Prod.exists, exists_and_right,
        exists_eq_right, OrderedMap.firstKeyValue_eq_some, ← present, Side.BetterEq]
      constructor
      · intro bestEntry
        rcases bestEntry with ⟨found, least⟩
        exact ⟨found, fun worse ⟨other, atWorse⟩ => least worse other atWorse⟩
      · intro bestEntry
        rcases bestEntry with ⟨found, least⟩
        exact ⟨found, fun worse other atWorse => least worse ⟨other, atWorse⟩⟩

theorem best_eq_none (none : book.best side = none) (price : Price) :
    book.queue side price = [] := by
  have empty : (book.side side).entries = [] := by
    cases side with
    | buy =>
        exact OrderedMap.lastKeyValue_eq_none.mp
          (Option.map_eq_none_iff.mp none)
    | sell =>
        exact OrderedMap.firstKeyValue_eq_none.mp
          (Option.map_eq_none_iff.mp none)
  simp [queue, OrderedMap.get?, empty, OrderedMap.lookup]

/-! ## Makers in priority order -/

/-- The orders of a side, best price first and front first within a price. -/
def makers (book : Book) : Side → List RestingOrder
  | .sell => book.asks.entries.flatMap (levelResting .sell)
  | .buy => book.bids.entries.reverse.flatMap (levelResting .buy)

theorem mem_makers {resting : RestingOrder} :
    resting ∈ book.makers side ↔ resting.side = side ∧ resting ∈ book.iterResting := by
  have inSide : resting ∈ book.makers side ↔
      resting ∈ (book.side side).entries.flatMap (levelResting side) := by
    cases side <;> simp [makers, Book.side]
  rw [inSide, mem_flatMap_levelResting, mem_iterResting]
  constructor
  · intro made
    rcases made with ⟨rfl, member⟩
    exact ⟨rfl, member⟩
  · intro rests
    rcases rests with ⟨rfl, member⟩
    exact ⟨rfl, member⟩

/-- The makers are the resting orders of their side in another order. -/
theorem WF.makers_perm (wf : book.WF) (side : Side) :
    (book.iterResting.filter fun maker => maker.side = side).Perm (book.makers side) := by
  have makersNodup : (book.makers side).Nodup := by
    cases side with
    | buy =>
        apply ((List.reverse_perm book.bids.entries).flatMap_right _).nodup_iff.mpr
        exact wf.flatMap_nodup .buy
    | sell => exact wf.flatMap_nodup .sell
  have restingNodup := List.Nodup.of_map _ wf.iterResting_ids_nodup
  rw [List.perm_ext_iff_of_nodup (restingNodup.filter _) makersNodup]
  intro resting
  rw [List.mem_filter, mem_makers, decide_eq_true_eq, and_comm]

/-- The best level is the front of the makers, and rewriting that level leaves
every other maker in place. -/
theorem makers_best (best : book.best side = some price) :
    ∃ others, book.makers side =
        (book.queue side price).map (Order.resting side price) ++ others ∧
      ∀ level index, (book.place side price level index).makers side =
        level.map (Order.resting side price) ++ others := by
  cases side with
  | buy =>
      rcases Option.map_eq_some_iff.mp best with ⟨⟨_, front⟩, last, rfl⟩
      rcases List.getLast?_eq_some_iff.mp last with ⟨rest, split⟩
      have found := (OrderedMap.lastKeyValue_eq_some.mp last).1
      refine ⟨rest.reverse.flatMap (levelResting .buy), ?_, ?_⟩
      · simp [makers, split, queue, Book.side, found, levelResting]
      · intro level index
        cases level with
        | nil =>
            have entries := OrderedMap.entries_remove_last split
            simp [makers, place, Book.setSide, Book.side, entries]
        | cons first tail =>
            have entries := OrderedMap.entries_insert_last (first :: tail) split
            simp [makers, place, Book.setSide, Book.side, entries, levelResting]
  | sell =>
      rcases Option.map_eq_some_iff.mp best with ⟨⟨_, front⟩, first, rfl⟩
      rcases List.head?_eq_some_iff.mp first with ⟨rest, split⟩
      have found := (OrderedMap.firstKeyValue_eq_some.mp first).1
      refine ⟨rest.flatMap (levelResting .sell), ?_, ?_⟩
      · simp [makers, split, queue, Book.side, found, levelResting]
      · intro level index
        cases level with
        | nil =>
            have entries := OrderedMap.entries_remove_first split
            simp [makers, place, Book.setSide, Book.side, entries]
        | cons first tail =>
            have entries := OrderedMap.entries_insert_first (first :: tail) split
            simp [makers, place, Book.setSide, Book.side, entries, levelResting]

end Book

end Bourse
