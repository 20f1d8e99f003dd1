import Bourse.Book.Resting
import Bourse.Matcher.Run

/-!
# Invariants of the matcher

The book of a running matcher is well formed, so the matching loop only stops
when the taker is filled or the best opposite price is out of reach, and the
remainder that then rests never crosses the other side.
-/

namespace Bourse

namespace Matcher

variable {order : NewOrder} {walk next : Walk} {matcher : Matcher}

/-! ## The shape of `accept` -/

/-- The order passes every pre-acceptance gate. -/
def Admits (matcher : Matcher) (order : NewOrder) : Prop :=
  order.qty ≠ Qty.zero ∧ matcher.book.contains order.id = false ∧
    order.kindRejects matcher.book = false

instance (matcher : Matcher) (order : NewOrder) : Decidable (matcher.Admits order) :=
  inferInstanceAs (Decidable (_ ∧ _ ∧ _))

/-- The loop state of an order that has just been acknowledged. -/
def opening (matcher : Matcher) (order : NewOrder) (out : List Event) : Walk :=
  ⟨{ matcher with seq := matcher.seq.next.2 },
    out ++ [.accepted order.id order.qty matcher.peekSeq], order.qty⟩

theorem accept_of_admits (admits : matcher.Admits order) (out : List Event) :
    matcher.accept order out =
      settle order matcher.peekSeq ((matchLoop order).run (matcher.opening order out)) := by
  rcases admits with ⟨positive, fresh, kind⟩
  simp only [accept, positive, fresh, kind, Bool.false_eq_true, or_self, if_false]
  rfl

theorem accept_of_not_admits (refused : ¬matcher.Admits order) (out : List Event) :
    matcher.accept order out = matcher.pushDone order.id order.qty .rejected out := by
  unfold accept
  split
  · rfl
  next passed =>
    split
    · rfl
    next kind =>
      simp only [not_or, Bool.not_eq_true] at passed kind
      exact absurd ⟨passed.1, passed.2, kind⟩ refused

/-! ## The matching loop on well-formed books -/

theorem matchBody_WF (wf : walk.matcher.book.WF) (step : matchBody order walk = some next) :
    next.matcher.book.WF := by
  rcases matchBody_cases step with ⟨price, front, rest, -, -, queued, -, ⟨-, rfl⟩ | ⟨short, rfl⟩⟩
  · exact wf.removed (show walk.matcher.book.queue order.side.opposite price =
      [] ++ front :: rest from queued)
  · refine wf.reduced queued ?_
    rw [ne_eq, Qty.eq_iff, Qty.toNat_saturatingSub, Qty.toNat_zero]
    have := Qty.lt_iff.mp short
    omega

/-- Invariants of the matching loop may assume a well-formed book. -/
theorem matchLoop_invariant (order : NewOrder) (invariant : Walk → Prop)
    (preserved : ∀ walk next, walk.matcher.book.WF → matchBody order walk = some next →
      invariant walk → invariant next)
    (wf : walk.matcher.book.WF) (start : invariant walk) :
    ((matchLoop order).run walk).matcher.book.WF ∧
      invariant ((matchLoop order).run walk) :=
  (matchLoop order).run_invariant
    (fun walk => walk.matcher.book.WF ∧ invariant walk)
    (fun walk next step holds =>
      ⟨matchBody_WF holds.1 step, preserved walk next holds.1 step holds.2⟩)
    walk ⟨wf, start⟩

/-- The loop goes on while the taker has quantity left and reaches the best price:
on a well-formed book `take_front` cannot refuse. -/
theorem matchBody_eq_none (wf : walk.matcher.book.WF) :
    matchBody order walk = none ↔ walk.remaining = Qty.zero ∨
      ∀ price, walk.matcher.book.best order.side.opposite = some price →
        order.crosses price = false := by
  unfold matchBody
  by_cases empty : walk.remaining = Qty.zero
  · simp [empty]
  have positive : walk.remaining > Qty.zero :=
    Qty.lt_iff.mpr (Nat.pos_of_ne_zero fun zero => empty (Qty.eq_iff.mpr zero))
  simp only [positive, if_true, empty, false_or]
  cases bestEq : walk.matcher.book.best order.side.opposite with
  | none => simp
  | some price =>
      by_cases crosses : order.crosses price = true
      · rcases List.exists_cons_of_ne_nil
          (wf.best_eq_some.mp bestEq).1 with ⟨front, rest, queued⟩
        simp only [crosses, if_true]
        rcases le_or_gt front.qty walk.remaining with covers | short
        · simp [Book.takeFront_exhausts queued empty covers, crosses]
        · simp [Book.takeFront_reduces queued empty short, crosses]
      · simp [crosses]

/-- How the matching loop ends on a well-formed book. -/
theorem matchLoop_end (order : NewOrder) (wf : walk.matcher.book.WF) :
    let final := (matchLoop order).run walk
    final.remaining = Qty.zero ∨
      ∀ price, final.matcher.book.best order.side.opposite = some price →
        order.crosses price = false := by
  have finalWF := (matchLoop_invariant order (fun _ => True)
    (fun _ _ _ _ _ => trivial) wf trivial).1
  exact (matchBody_eq_none finalWF).mp ((matchLoop order).body_run walk)

/-! ## Well-formed books along runs -/

theorem settle_WF (wf : walk.matcher.book.WF) (receiveSeq : Sequence) :
    (settle order receiveSeq walk).1.book.WF := by
  unfold settle
  split
  · exact wf
  · split
    · exact wf.add _ _ _ _ _
    · exact wf.add _ _ _ _ _
    · exact wf
    · exact wf
    · exact wf

theorem accept_WF (wf : matcher.book.WF) (order : NewOrder) (out : List Event) :
    (matcher.accept order out).1.book.WF := by
  by_cases admits : matcher.Admits order
  · rw [accept_of_admits admits]
    refine settle_WF (matchLoop_invariant order (fun _ => True)
      (fun _ _ _ _ _ => trivial) ?_ trivial).1 _
    exact wf
  · rw [accept_of_not_admits admits]
    exact wf

theorem book_cancel (matcher : Matcher) (id : OrderId) (out : List Event) :
    (matcher.cancel id out).1.book = (matcher.book.cancel id).1 := by
  unfold cancel
  split
  next result => rw [result]; rfl
  next result => rw [result]

theorem handle_WF (wf : matcher.book.WF) (command : Command) (out : List Event) :
    (matcher.handle command out).1.book.WF := by
  cases command with
  | new order => exact accept_WF wf order out
  | cancel id =>
      simp only [handle, book_cancel]
      exact wf.cancel id

theorem run_WF (wf : matcher.book.WF) (commands : List Command) :
    (matcher.run commands).1.book.WF :=
  run_invariant (fun matcher => matcher.book.WF)
    (fun _ command wf => handle_WF wf command []) wf commands

theorem run_new_WF (commands : List Command) : (Matcher.new.run commands).1.book.WF :=
  run_WF Book.WF.new commands

/-! ## The book is never left crossed -/

/-- Every resting bid is below every resting ask. -/
def Uncrossed (book : Book) : Prop :=
  ∀ bid ask, book.queue .buy bid ≠ [] → book.queue .sell ask ≠ [] → bid < ask

/-- Books whose levels are among those of an uncrossed book are uncrossed. -/
theorem Uncrossed.mono {book smaller : Book} (uncrossed : Uncrossed book)
    (levels : ∀ side price, smaller.queue side price ≠ [] → book.queue side price ≠ []) :
    Uncrossed smaller :=
  fun bid ask atBid atAsk => uncrossed bid ask (levels _ _ atBid) (levels _ _ atAsk)

/-- Rewriting an occupied queue creates no level. -/
theorem Uncrossed.place {book : Book} {side : Side} {price : Price}
    (uncrossed : Uncrossed book) (occupied : book.queue side price ≠ []) (level : Level)
    (index : OrderedMap OrderId (Side × Price)) :
    Uncrossed (book.place side price level index) := by
  refine uncrossed.mono ?_
  intro other level_price
  rw [Book.queue_place]
  split
  next located =>
    rw [located.1, located.2]
    exact fun _ => occupied
  next => exact id

theorem matchBody_uncrossed (step : matchBody order walk = some next)
    (uncrossed : Uncrossed walk.matcher.book) : Uncrossed next.matcher.book := by
  rcases matchBody_cases step with ⟨price, front, rest, -, -, queued, -, ⟨-, rfl⟩ | ⟨-, rfl⟩⟩ <;>
    exact uncrossed.place (by rw [queued]; exact List.cons_ne_nil _ _) _ _

/-- The loop's test in terms of the limit price: the best opposite price must be
at least as good as the limit. -/
theorem crosses_iff {best : Price} :
    order.crosses best = true ↔
      ∀ price, order.kind.limitPrice = some price →
        order.side.opposite.BetterEq best price := by
  unfold NewOrder.crosses
  cases order.kind <;> cases order.side <;>
    simp [OrderKind.limitPrice, Side.opposite, Side.BetterEq]

/-- A remainder rests strictly away from the other side. -/
theorem Uncrossed.add {book : Book} {price : Price} {qty : Qty} {seq : Sequence}
    (uncrossed : Uncrossed book) (wf : book.WF)
    (rests : order.kind.restingPrice = some price)
    (stopped : ∀ best, book.best order.side.opposite = some best →
      order.crosses best = false) :
    Uncrossed (book.add order.id order.side price qty seq).1 := by
  by_cases refused : book.Refuses order.id qty
  · rw [Book.add_of_refused refused]
    exact uncrossed
  -- The best opposite level is out of reach, and the levels behind it are worse.
  have away : ∀ level_price, book.queue order.side.opposite level_price ≠ [] →
      ¬order.side.opposite.BetterEq level_price price := by
    intro level_price occupied reach
    cases bestEq : book.best order.side.opposite with
    | none => exact occupied (Book.best_eq_none bestEq level_price)
    | some best =>
        have better := (wf.best_eq_some.mp bestEq).2 level_price occupied
        have crosses : order.crosses best = true := by
          rw [crosses_iff, OrderKind.limitPrice_of_restingPrice rests]
          intro limit same
          cases same
          exact better.trans reach
        rw [stopped best bestEq] at crosses
        cases crosses
  rw [Book.add_of_fresh refused]
  intro bid ask atBid atAsk
  rw [Book.queue_place] at atBid atAsk
  cases side : order.side with
  | buy =>
      simp only [side, Side.opposite, Side.BetterEq, not_le] at away atBid atAsk
      simp only [reduceCtorEq, false_and, if_false] at atAsk
      split at atBid
      next located =>
        rw [located.2]
        exact away ask atAsk
      next => exact uncrossed bid ask atBid atAsk
  | sell =>
      simp only [side, Side.opposite, Side.BetterEq, not_le] at away atBid atAsk
      simp only [reduceCtorEq, false_and, if_false] at atBid
      split at atAsk
      next located =>
        rw [located.2]
        exact away bid atBid
      next => exact uncrossed bid ask atBid atAsk

/-- How `accept` ends: the taker is filled, its remainder rests, or its remainder
is done. -/
theorem settle_cases (order : NewOrder) (receiveSeq : Sequence) (walk : Walk) :
    walk.remaining = Qty.zero ∧ settle order receiveSeq walk =
        walk.matcher.pushDone order.id Qty.zero .filled walk.out ∨
    walk.remaining ≠ Qty.zero ∧ (∃ price, order.kind.restingPrice = some price ∧
      settle order receiveSeq walk = ({ walk.matcher with
        book := (walk.matcher.book.add order.id order.side price walk.remaining
          receiveSeq).1 }, walk.out)) ∨
    walk.remaining ≠ Qty.zero ∧ order.kind.restingPrice = none ∧
      settle order receiveSeq walk = walk.matcher.pushDone order.id walk.remaining
        order.kind.remainderReason walk.out := by
  by_cases filled : walk.remaining = Qty.zero
  · exact Or.inl ⟨filled, by simp [settle, filled]⟩
  · right
    simp only [settle, filled, if_false, ne_eq, not_false_eq_true, true_and]
    cases order.kind <;>
      simp [OrderKind.restingPrice, OrderKind.remainderReason]

theorem accept_uncrossed (wf : matcher.book.WF) (uncrossed : Uncrossed matcher.book)
    (order : NewOrder) (out : List Event) :
    Uncrossed (matcher.accept order out).1.book := by
  by_cases admits : matcher.Admits order
  · rw [accept_of_admits admits]
    have wfStart : (matcher.opening order out).matcher.book.WF := wf
    rcases matchLoop_invariant order
      (fun walk => Uncrossed walk.matcher.book)
      (fun _ _ _ step => matchBody_uncrossed step) wfStart uncrossed with ⟨finalWF, finalUncrossed⟩
    have stopped := matchLoop_end order wfStart
    generalize (matchLoop order).run (matcher.opening order out) = final at *
    rcases settle_cases order matcher.peekSeq final with
      ⟨-, settled⟩ | ⟨left, price, rests, settled⟩ | ⟨-, -, settled⟩
    · rw [settled]
      exact finalUncrossed
    · rw [settled]
      exact finalUncrossed.add finalWF rests (stopped.resolve_left left)
    · rw [settled]
      exact finalUncrossed
  · rw [accept_of_not_admits admits]
    exact uncrossed

theorem handle_uncrossed (wf : matcher.book.WF) (uncrossed : Uncrossed matcher.book)
    (command : Command) (out : List Event) :
    Uncrossed (matcher.handle command out).1.book := by
  cases command with
  | new order => exact accept_uncrossed wf uncrossed order out
  | cancel id =>
      simp only [handle, book_cancel]
      cases indexed : matcher.book.index.get? id with
      | none =>
          rw [Book.cancel_of_absent indexed]
          exact uncrossed
      | some located =>
          rcases wf.cancel_of_indexed indexed with ⟨before, order, after, queued, -, cancelled⟩
          rw [cancelled]
          exact uncrossed.place (by simp [queued]) _ _

theorem run_new_uncrossed (commands : List Command) :
    Uncrossed (Matcher.new.run commands).1.book := by
  refine (run_invariant (fun matcher => matcher.book.WF ∧
    Uncrossed matcher.book) ?_ ⟨Book.WF.new, ?_⟩ commands).2
  · intro matcher command held
    rcases held with ⟨wf, uncrossed⟩
    exact ⟨handle_WF wf command [], handle_uncrossed wf uncrossed command []⟩
  · intro bid ask atBid
    exact absurd rfl atBid

/-- No run leaves the best bid at or above the best ask. -/
theorem bestBid_lt_bestAsk (commands : List Command) {bid ask : Price}
    (atBid : (Matcher.new.run commands).1.book.bestBid = some bid)
    (atAsk : (Matcher.new.run commands).1.book.bestAsk = some ask) : bid < ask := by
  have wf := run_new_WF commands
  have bidOccupied := wf.best_eq_some.mp (show Book.best _ .buy = some bid from atBid)
  have askOccupied := wf.best_eq_some.mp (show Book.best _ .sell = some ask from atAsk)
  exact run_new_uncrossed commands bid ask bidOccupied.1 askOccupied.1

/-- A bid and an ask that do not meet both rest. -/
theorem bestBid_lt_bestAsk_two_sided :
    let bid : NewOrder := ⟨.new 1, .buy, .new 5, .limit (.fromRaw 100), .fromNanos 0⟩
    let ask : NewOrder := ⟨.new 2, .sell, .new 5, .postOnly (.fromRaw 101), .fromNanos 0⟩
    let book := (Matcher.new.run [.new bid, .new ask]).1.book
    book.bestBid = some (.fromRaw 100) ∧ book.bestAsk = some (.fromRaw 101) ∧
      Price.fromRaw 100 < Price.fromRaw 101 := by
  intro bid ask book
  have atBid : book.bestBid = some (.fromRaw 100) := by decide
  have atAsk : book.bestAsk = some (.fromRaw 101) := by decide
  exact ⟨atBid, atAsk, bestBid_lt_bestAsk [.new bid, .new ask] atBid atAsk⟩

/-! ## Every resting order has cost an event -/

theorem accept_ne_nil (matcher : Matcher) (order : NewOrder) :
    (matcher.accept order []).2 ≠ [] := by
  by_cases admits : matcher.Admits order
  · rw [accept_of_admits admits]
    rcases emits_matchLoop order (matcher.opening order []) with ⟨fills, emitsFills⟩
    rcases emits_settle order matcher.peekSeq
      ((matchLoop order).run (matcher.opening order [])) with ⟨final, emitsFinal⟩
    rw [emitsFinal.appended, emitsFills.appended]
    simp [opening]
  · rw [accept_of_not_admits admits]
    simp [pushDone]

theorem matchBody_len (step : matchBody order walk = some next) :
    next.matcher.book.len ≤ walk.matcher.book.len := by
  rcases matchBody_cases step with
    ⟨price, front, rest, -, -, -, -, ⟨-, exhausted⟩ | ⟨-, filled⟩⟩
  · rw [exhausted, Walk.book_exhaust, Book.len, Book.index_place]
    exact OrderedMap.len_remove_le _ _
  · rw [filled, Walk.book_fill, Book.len, Book.index_place]
    exact le_refl _

theorem accept_len (matcher : Matcher) (order : NewOrder) :
    (matcher.accept order []).1.book.len ≤ matcher.book.len + 1 := by
  by_cases admits : matcher.Admits order
  · rw [accept_of_admits admits]
    have shrunk : ((matchLoop order).run (matcher.opening order [])).matcher.book.len ≤
        matcher.book.len :=
      (matchLoop order).run_invariant (fun walk => walk.matcher.book.len ≤ matcher.book.len)
        (fun walk next step bounded => (matchBody_len step).trans bounded) _ (le_refl _)
    rcases settle_cases order matcher.peekSeq
        ((matchLoop order).run (matcher.opening order [])) with
      ⟨-, settled⟩ | ⟨-, price, -, settled⟩ | ⟨-, -, settled⟩
    · rw [settled, book_pushDone]
      exact Nat.le_succ_of_le shrunk
    · rw [settled]
      exact (Book.len_add_le ..).trans (Nat.succ_le_succ shrunk)
    · rw [settled, book_pushDone]
      exact Nat.le_succ_of_le shrunk
  · rw [accept_of_not_admits admits]
    exact Nat.le_succ _

/-- A run leaves no more resting orders than it found and emitted events. -/
theorem run_len (matcher : Matcher) (commands : List Command) :
    (matcher.run commands).1.book.len ≤
      matcher.book.len + (matcher.run commands).2.length := by
  induction commands generalizing matcher with
  | nil => exact Nat.le_add_right _ _
  | cons command commands ih =>
      have step : (matcher.handle command []).1.book.len ≤
          matcher.book.len + (matcher.handle command []).2.length := by
        cases command with
        | new order =>
            have emitted := List.length_pos_of_ne_nil (accept_ne_nil matcher order)
            exact (accept_len matcher order).trans (Nat.add_le_add_left emitted _)
        | cancel id =>
            rw [handle, book_cancel]
            exact (Book.len_cancel_le matcher.book id).trans (Nat.le_add_right _ _)
      have later := ih (matcher.handle command []).1
      simp only [run_cons, List.length_append]
      omega

end Matcher

end Bourse
