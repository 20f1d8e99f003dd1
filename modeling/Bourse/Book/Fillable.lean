import Bourse.Book.Resting

/-!
# The liquidity that a limit reaches

`Book::fillable_qty_at` walks the levels with a saturating sum and stops early, once at the
cap and once at the first level out of reach.  The two loops are one walk over the makers
within reach.  Its answer is below the cap exactly when their exact sum is, but the order with
which the sum reaches the cap counts in full, so that the answer can lie above it.
-/

namespace Bourse

/-- The exact sum of the quantities. -/
def totalQty (makers : List RestingOrder) : Nat :=
  (makers.map fun maker => maker.qty.toNat).sum

@[simp] theorem totalQty_nil : totalQty [] = 0 := rfl

@[simp] theorem totalQty_cons (maker : RestingOrder) (makers : List RestingOrder) :
    totalQty (maker :: makers) = maker.qty.toNat + totalQty makers := by
  simp [totalQty]

@[simp] theorem totalQty_append (makers more : List RestingOrder) :
    totalQty (makers ++ more) = totalQty makers + totalQty more := by
  simp [totalQty]

namespace Book

variable {side : Side} {price : Price} {cap sum : Qty}

/-- Reaching the cap is not affected by saturation. -/
theorem cap_le_saturatingAdd_iff (cap sum qty : Qty) :
    cap ≤ sum.saturatingAdd qty ↔ cap.toNat ≤ sum.toNat + qty.toNat := by
  have bounded : cap.toNat < 2 ^ 64 := cap.get.toNat_lt
  rw [← not_lt, Qty.lt_iff, Qty.toNat_saturatingAdd]
  omega

/-- The walk over the makers as one list. -/
def fill (cap : Qty) : List RestingOrder → Qty → Qty
  | [], sum => sum
  | maker :: rest, sum =>
      let sum := sum.saturatingAdd maker.qty
      if cap ≤ sum then sum else fill cap rest sum

/-- A level is walked as its orders in front of the rest. -/
theorem fill_level (side : Side) (price : Price) (level : Level) (rest : List RestingOrder)
    (sum : Qty) :
    fill cap (level.map (Order.resting side price) ++ rest) sum =
      match fillLevel cap level sum with
      | .inl sum => fill cap rest sum
      | .inr sum => sum := by
  induction level generalizing sum with
  | nil => rfl
  | cons order level ih =>
      simp only [List.map_cons, List.cons_append, fill, fillLevel, Order.resting_qty]
      split
      next => rfl
      next => exact ih _

/-- Levels in an order in which the admitted ones come first. -/
def Descending (admits : Price → Bool) (levels : List (Price × Level)) : Prop :=
  levels.Pairwise fun better worse => admits worse.1 → admits better.1

theorem filter_levelResting (admits : Price → Bool) (entry : Price × Level) :
    (levelResting side entry).filter (fun maker => admits maker.price) =
      if admits entry.1 then levelResting side entry else [] := by
  split
  next admitted =>
    apply List.filter_eq_self.mpr
    intro maker member
    rcases List.mem_map.mp member with ⟨order, -, rfl⟩
    exact admitted
  next refused =>
    apply List.filter_eq_nil_iff.mpr
    intro maker member
    rcases List.mem_map.mp member with ⟨order, -, rfl⟩
    exact refused

/-- The nested loops walk the admitted makers as one list. -/
theorem fillLevels_eq_fill (side : Side) {admits : Price → Bool} {levels : List (Price × Level)}
    (descending : Descending admits levels) (sum : Qty) :
    fillLevels admits cap levels sum =
      fill cap ((levels.flatMap (levelResting side)).filter fun maker => admits maker.price)
        sum := by
  induction levels generalizing sum with
  | nil => rfl
  | cons entry rest ih =>
      rcases entry with ⟨price, level⟩
      rcases List.pairwise_cons.mp descending with ⟨first, later⟩
      rw [fillLevels, List.flatMap_cons, List.filter_append, filter_levelResting]
      split
      next admitted =>
        rw [levelResting, fill_level]
        cases fillLevel cap level sum with
        | inl next => exact ih later next
        | inr reached => rfl
      next refused =>
        -- Everything behind a level out of reach is out of reach.
        have none : (rest.flatMap (levelResting side)).filter
            (fun maker => admits maker.price) = [] := by
          apply List.filter_eq_nil_iff.mpr
          intro maker member admitted
          rcases List.mem_flatMap.mp member with ⟨entry, listed, queued⟩
          rcases List.mem_map.mp queued with ⟨order, -, rfl⟩
          exact refused (first entry listed admitted)
        rw [none]
        rfl

theorem descending_asks (book : Book) (limitPrice : Price) :
    Descending (fun ask => decide ¬limitPrice < ask) book.asks.entries := by
  apply book.asks.ascending.imp
  intro better worse closer
  simp only [not_lt, decide_eq_true_eq]
  exact fun reached => le_trans closer.le reached

theorem descending_bids (book : Book) (limitPrice : Price) :
    Descending (fun bid => decide ¬bid < limitPrice) book.bids.entries.reverse := by
  apply List.pairwise_reverse.mpr
  apply book.bids.ascending.imp
  intro worse better closer
  simp only [not_lt, decide_eq_true_eq]
  exact fun reached => le_trans reached closer.le

/-- The makers of a side at a price at or better than the limit, in the order of the walk. -/
def makersWithin (book : Book) (side : Side) (limitPrice : Price) : List RestingOrder :=
  (book.makers side).filter fun maker => side.BetterEq maker.price limitPrice

theorem fillableQtyAt_eq_fill (book : Book) (side : Side) (limitPrice : Price) (cap : Qty) :
    book.fillableQtyAt side limitPrice cap =
      fill cap (book.makersWithin side limitPrice) Qty.zero := by
  cases side with
  | sell =>
      have same : (fun maker : RestingOrder => decide ¬limitPrice < maker.price) =
          fun maker => decide (Side.sell.BetterEq maker.price limitPrice) := by
        funext maker
        exact decide_eq_decide.mpr not_lt
      rw [fillableQtyAt, fillLevels_eq_fill .sell (descending_asks book limitPrice), same]
      rfl
  | buy =>
      have same : (fun maker : RestingOrder => decide ¬maker.price < limitPrice) =
          fun maker => decide (Side.buy.BetterEq maker.price limitPrice) := by
        funext maker
        exact decide_eq_decide.mpr not_lt
      rw [fillableQtyAt, fillLevels_eq_fill .buy (descending_bids book limitPrice), same]
      rfl

/-! ## Where the walk stops -/

/-- Below the cap the walk adds up all makers without reaching it, or it stops behind the
first one with which the sum does. -/
theorem fill_cases (makers : List RestingOrder) (below : sum < cap) :
    (sum.toNat + totalQty makers < cap.toNat ∧
      (fill cap makers sum).toNat = sum.toNat + totalQty makers) ∨
    ∃ front last back, makers = front ++ last :: back ∧
      sum.toNat + totalQty front < cap.toNat ∧
      cap.toNat ≤ sum.toNat + totalQty (front ++ [last]) ∧
      (fill cap makers sum).toNat =
        min (sum.toNat + totalQty (front ++ [last])) (2 ^ 64 - 1) := by
  induction makers generalizing sum with
  | nil => exact .inl ⟨Qty.lt_iff.mp below, rfl⟩
  | cons maker makers ih =>
      have reaches := cap_le_saturatingAdd_iff cap sum maker.qty
      rw [fill]
      by_cases stop : cap ≤ sum.saturatingAdd maker.qty
      · right
        refine ⟨[], maker, makers, rfl, Qty.lt_iff.mp below, ?_, ?_⟩
        · simpa using reaches.mp stop
        · simp [stop]
      · have unsaturated : (sum.saturatingAdd maker.qty).toNat =
            sum.toNat + maker.qty.toNat := by
          have bounded : cap.toNat < 2 ^ 64 := cap.get.toNat_lt
          have short := mt reaches.mpr stop
          rw [Qty.toNat_saturatingAdd]
          omega
        simp only [if_neg stop, totalQty_cons]
        rcases ih (not_le.mp stop) with
          ⟨short, walked⟩ | ⟨front, last, back, split, short, enough, walked⟩
        · rw [unsaturated, Nat.add_assoc] at short walked
          exact .inl ⟨short, walked⟩
        · right
          rw [unsaturated, Nat.add_assoc] at short enough walked
          rw [split]
          exact ⟨maker :: front, last, back, rfl, by simpa using short, by simpa using enough,
            by rw [← split]; simpa using walked⟩

/-- `fillable_qty_at` falls short of a positive cap exactly when the makers whose price is
at or better than the limit do. -/
theorem fillableQtyAt_lt_iff (book : Book) (side : Side) (limitPrice : Price)
    (positive : cap ≠ Qty.zero) :
    book.fillableQtyAt side limitPrice cap < cap ↔
      totalQty ((book.makers side).filter fun maker =>
        side.BetterEq maker.price limitPrice) < cap.toNat := by
  have below : Qty.zero < cap :=
    Qty.lt_iff.mpr (Nat.pos_of_ne_zero fun zero => positive (Qty.eq_iff.mpr zero))
  have bounded : cap.toNat < 2 ^ 64 := cap.get.toNat_lt
  rw [fillableQtyAt_eq_fill, Qty.lt_iff]
  change _ ↔ totalQty (book.makersWithin side limitPrice) < cap.toNat
  rcases fill_cases (book.makersWithin side limitPrice) below with
    ⟨short, walked⟩ | ⟨front, last, back, split, -, enough, walked⟩
  · rw [Qty.toNat_zero, Nat.zero_add] at short walked
    rw [walked]
  · rw [Qty.toNat_zero, Nat.zero_add] at enough walked
    rw [walked, split, List.append_cons front last back, totalQty_append _ back]
    omega

/-! ## When the answer is capped -/

/-- The orders resting on a side at a price at or better than the limit. -/
def restingWithin (book : Book) (side : Side) (limitPrice : Price) : List RestingOrder :=
  book.iterResting.filter fun resting =>
    resting.side = side ∧ side.BetterEq resting.price limitPrice

theorem totalQty_le_of_within {front makers : List RestingOrder} (within : front <+: makers) :
    totalQty front ≤ totalQty makers := by
  rcases within with ⟨back, rfl⟩
  rw [totalQty_append]
  exact Nat.le_add_right _ _

/-- The walk meets them all. -/
theorem WF.totalQty_restingWithin {book : Book} (wf : book.WF) (side : Side)
    (limitPrice : Price) :
    totalQty (book.restingWithin side limitPrice) =
      totalQty (book.makersWithin side limitPrice) := by
  have perm := (wf.makers_perm side).filter fun maker =>
    decide (side.BetterEq maker.price limitPrice)
  rw [List.filter_filter] at perm
  have same : book.restingWithin side limitPrice = book.iterResting.filter fun maker =>
      decide (side.BetterEq maker.price limitPrice) && decide (maker.side = side) := by
    simp only [restingWithin, Bool.decide_and, Bool.and_comm]
  rw [same]
  exact (perm.map _).sum_eq

theorem WF.makersWithin_positive {book : Book} (wf : book.WF) {maker : RestingOrder}
    (member : maker ∈ book.makersWithin side price) : 0 < maker.qty.toNat := by
  have rests := (mem_makers.mp (List.mem_filter.mp member).1).2
  have positive := wf.positive _ _ _ (mem_iterResting.mp rests)
  exact Nat.pos_of_ne_zero fun zero => positive (Qty.eq_iff.mpr zero)

theorem prefix_of_split (front : List RestingOrder) (last : RestingOrder)
    (back : List RestingOrder) : front ++ [last] <+: front ++ last :: back := by
  rw [List.append_cons front last back]
  exact List.prefix_append _ _

/-- No prefix ends between the two ends of the maker that the walk stopped at. -/
theorem totalQty_front_le {front met back : List RestingOrder} {last : RestingOrder}
    (met_within : met <+: front ++ last :: back) (beyond : totalQty front < totalQty met) :
    totalQty (front ++ [last]) ≤ totalQty met := by
  rcases List.prefix_or_prefix_of_prefix met_within (prefix_of_split front last back) with
    shorter | longer
  · rcases List.prefix_concat_iff.mp shorter with rfl | inFront
    · exact Nat.le_refl _
    · have := totalQty_le_of_within inFront
      omega
  · exact totalQty_le_of_within longer

/-- A cap of zero stops the walk behind the first maker. -/
theorem fill_of_cap_zero (zero : cap.toNat = 0) (maker : RestingOrder)
    (makers : List RestingOrder) : fill cap (maker :: makers) Qty.zero = maker.qty := by
  have stop : cap ≤ Qty.zero.saturatingAdd maker.qty := by
    rw [cap_le_saturatingAdd_iff, zero]
    exact Nat.zero_le _
  have bounded : maker.qty.toNat < 2 ^ 64 := maker.qty.get.toNat_lt
  rw [fill, if_pos stop, Qty.eq_iff, Qty.toNat_saturatingAdd, Qty.toNat_zero]
  omega

/-- For makers of positive quantities the walk answers the capped sum if and only if they do
not exceed the cap, the cap is the largest quantity, or the first ones meet the cap exactly. -/
theorem fill_eq_min_iff {makers : List RestingOrder}
    (positive : ∀ maker ∈ makers, 0 < maker.qty.toNat) :
    (fill cap makers Qty.zero).toNat = min (totalQty makers) cap.toNat ↔
      totalQty makers ≤ cap.toNat ∨ cap.toNat = 2 ^ 64 - 1 ∨
        0 < cap.toNat ∧ ∃ met, met <+: makers ∧ totalQty met = cap.toNat := by
  by_cases zero : cap.toNat = 0
  · cases makers with
    | nil => simp [fill]
    | cons maker makers =>
        have some := positive maker List.mem_cons_self
        rw [fill_of_cap_zero zero, totalQty_cons]
        constructor
        · intro capped
          omega
        · intro either
          omega
  · have below : Qty.zero < cap := Qty.lt_iff.mpr (Nat.pos_of_ne_zero zero)
    rcases fill_cases makers below with
      ⟨short, walked⟩ | ⟨front, last, back, rfl, short, enough, walked⟩
    · rw [Qty.toNat_zero, Nat.zero_add] at short walked
      rw [walked]
      constructor
      · exact fun _ => .inl short.le
      · exact fun _ => (Nat.min_eq_left short.le).symm
    · rw [Qty.toNat_zero, Nat.zero_add] at short enough walked
      have bounded : cap.toNat < 2 ^ 64 := cap.get.toNat_lt
      have stop := prefix_of_split front last back
      have total := totalQty_le_of_within stop
      rw [walked, Nat.min_eq_right (enough.trans total)]
      constructor
      · intro capped
        by_cases largest : cap.toNat = 2 ^ 64 - 1
        · exact .inr (.inl largest)
        · exact .inr (.inr ⟨Nat.pos_of_ne_zero zero, front ++ [last], stop, by omega⟩)
      · intro either
        rcases either with all | largest | ⟨-, met, within, exactly⟩
        · omega
        · omega
        · have sooner := totalQty_front_le within (exactly ▸ short)
          omega

/-- In every book that calls of its methods build, `fillable_qty_at` is the sum of the resting
quantities within the limit, capped at `cap`, if and only if the sum does not exceed the cap,
the cap is the largest quantity, or the first makers of the walk meet the cap exactly. It
returns a sum that overshoots the cap as it is. -/
theorem fillableQtyAt_eq_min_iff (calls : List Call) (side : Side) (limitPrice : Price)
    (cap : Qty) :
    let book := ofCalls calls
    let total := totalQty (book.restingWithin side limitPrice)
    (book.fillableQtyAt side limitPrice cap).toNat = min total cap.toNat ↔
      total ≤ cap.toNat ∨ cap.toNat = 2 ^ 64 - 1 ∨
        0 < cap.toNat ∧ ∃ met, met <+: book.makersWithin side limitPrice ∧
          totalQty met = cap.toNat := by
  intro book total
  have wf : book.WF := ofCalls_WF calls
  have walked : total = totalQty (book.makersWithin side limitPrice) :=
    wf.totalQty_restingWithin side limitPrice
  rw [walked, fillableQtyAt_eq_fill]
  exact fill_eq_min_iff fun maker member => wf.makersWithin_positive member

/-- One ask of ten against a cap of five: the answer is ten. -/
theorem fillableQtyAt_overshoots :
    let book := ofCalls [.add ⟨1⟩ .sell ⟨100⟩ ⟨10⟩ ⟨1⟩]
    let total := totalQty (book.restingWithin .sell ⟨100⟩)
    book.fillableQtyAt .sell ⟨100⟩ ⟨5⟩ = ⟨10⟩ ∧ min total (Qty.toNat ⟨5⟩) = 5 ∧
      (book.fillableQtyAt .sell ⟨100⟩ ⟨5⟩).toNat ≠ min total (Qty.toNat ⟨5⟩) := by
  decide

end Book

end Bourse
