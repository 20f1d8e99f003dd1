import Bourse.Book.Fillable
import Bourse.Matcher.Reference

/-!
# Order kinds compared

The kinds of `OrderKind` differ in a gate before the matching loop, in the price test of
the loop and in what becomes of a remainder.  Here two orders that differ in their kind only
are accepted from the same state and their runs compared.
-/

namespace Bourse

/-- A trade. -/
def Event.isTrade : Event → Bool
  | .trade _ _ _ _ _ => true
  | .accepted _ _ _ | .done _ _ _ _ => false

/-- A trade or the `Done` of an order other than the taker. -/
def Event.isFill (taker : OrderId) : Event → Bool
  | .trade _ _ _ _ _ => true
  | .done id _ _ _ => id ≠ taker
  | .accepted _ _ _ => false

/-- The trades among the events. -/
def trades (events : List Event) : List Event := events.filter Event.isTrade

/-- The events end with the taker's `Done(Filled)`. -/
def EndsFilled (taker : OrderId) (events : List Event) : Prop :=
  ∃ leavesQty seq, events.getLast? = some (.done taker leavesQty .filled seq)

/-- The order with another kind. -/
def NewOrder.withKind (order : NewOrder) (kind : OrderKind) : NewOrder := { order with kind }

/-- A limit that admits every price the other limit admits. -/
def Side.AtLeastAsAggressive : Side → Price → Price → Prop
  | .buy, price, other => other ≤ price
  | .sell, price, other => price ≤ other

instance : (side : Side) → (price other : Price) →
    Decidable (side.AtLeastAsAggressive price other)
  | .buy, price, other => inferInstanceAs (Decidable (other ≤ price))
  | .sell, price, other => inferInstanceAs (Decidable (price ≤ other))

/-- The limit that admits every price. -/
def Side.extreme : Side → Price
  | .buy => .maxValue
  | .sell => .minValue

namespace Reference

/-- What is left of a taker is what the makers do not hold. -/
theorem toNat_consume (makers : List RestingOrder) (remaining : Qty) :
    (consume makers remaining).2.toNat = remaining.toNat - totalQty makers := by
  induction makers generalizing remaining with
  | nil => rfl
  | cons maker rest ih =>
      rw [totalQty_cons]
      by_cases empty : remaining = Qty.zero
      · rw [empty, consume_zero, Qty.toNat_zero, Nat.zero_sub]
      · rcases le_or_gt maker.qty remaining with covers | short
        · rw [consume_exhausts empty covers, ih, Qty.toNat_saturatingSub]
          omega
        · rw [consume_fills empty short, Qty.toNat_zero]
          have := Qty.lt_iff.mp short
          omega

end Reference

namespace Matcher

open Reference

variable {order : NewOrder} {walk next : Walk} {matcher : Matcher}

/-- An iteration of the loop is also one for an order whose price test admits more. -/
theorem matchBody_mono (left right : NewOrder) (id : left.id = right.id)
    (side : left.side = right.side)
    (crosses : ∀ price, left.crosses price → right.crosses price)
    (step : matchBody left walk = some next) : matchBody right walk = some next := by
  unfold matchBody at step ⊢
  rw [← id, ← side]
  by_cases positive : walk.remaining > Qty.zero
  · rw [if_pos positive] at step ⊢
    cases best : walk.matcher.book.best left.side.opposite with
    | none => simp [best] at step
    | some price =>
        simp only [best] at step ⊢
        by_cases reached : left.crosses price = true
        · rw [if_pos reached] at step
          rw [if_pos (crosses price reached)]
          exact step
        · simp [reached] at step
  · simp [positive] at step

/-- The loop sees an order only through its id, its side and its price test. -/
theorem matchLoop_congr (left right : NewOrder) (id : left.id = right.id)
    (side : left.side = right.side)
    (crosses : ∀ price, left.crosses price = right.crosses price) :
    matchLoop left = matchLoop right := by
  have body : matchBody left = matchBody right := by
    funext walk
    simp only [matchBody, id, side, crosses]
  simp only [matchLoop, Loop.mk.injEq]
  exact ⟨body, by rw [side]⟩

/-- The loop appends to the buffer. -/
theorem out_prefix_matchLoop (order : NewOrder) (walk : Walk) :
    walk.out <+: ((matchLoop order).run walk).out := by
  rcases emits_matchLoop order walk with ⟨events, emits⟩
  exact ⟨events, emits.appended.symm⟩

theorem trades_prefix {events more : List Event} (within : events <+: more) :
    trades events <+: trades more :=
  within.filter _

/-- Settling an order fills no maker. -/
theorem fills_settle (order : NewOrder) (receiveSeq : Sequence) (walk : Walk) :
    (settle order receiveSeq walk).2.filter (Event.isFill order.id) =
      walk.out.filter (Event.isFill order.id) := by
  rcases settle_cases order receiveSeq walk with
    ⟨-, settled⟩ | ⟨-, price, -, settled⟩ | ⟨-, -, settled⟩
  · rw [settled]
    simp [pushDone, Event.isFill]
  · rw [settled]
  · rw [settled]
    simp [pushDone, Event.isFill]

/-- Settling an order trades nothing. -/
theorem trades_settle (order : NewOrder) (receiveSeq : Sequence) (walk : Walk) :
    trades (settle order receiveSeq walk).2 = trades walk.out := by
  rcases settle_cases order receiveSeq walk with
    ⟨-, settled⟩ | ⟨-, price, -, settled⟩ | ⟨-, -, settled⟩
  · rw [settled]
    simp [trades, pushDone, Event.isTrade]
  · rw [settled]
  · rw [settled]
    simp [trades, pushDone, Event.isTrade]

/-- How an order ends whose remainder does not rest. -/
theorem settle_of_not_rests (rests : order.kind.restingPrice = none) (receiveSeq : Sequence)
    (walk : Walk) :
    settle order receiveSeq walk =
      walk.matcher.pushDone order.id walk.remaining
        (if walk.remaining = Qty.zero then .filled else order.kind.remainderReason) walk.out := by
  rcases settle_cases order receiveSeq walk with
    ⟨filled, settled⟩ | ⟨-, price, impossible, -⟩ | ⟨unfilled, -, settled⟩
  · rw [settled, if_pos filled, filled]
  · rw [rests] at impossible
    cases impossible
  · rw [settled, if_neg unfilled]

/-- The `Done` of an exhausted maker is the only one that the loop pushes. -/
theorem matchBody_reason (step : matchBody order walk = some next)
    (before : ∀ id leavesQty reason seq, .done id leavesQty reason seq ∈ walk.out →
      reason = .filled) :
    ∀ id leavesQty reason seq, .done id leavesQty reason seq ∈ next.out → reason = .filled := by
  intro id leavesQty reason seq member
  rcases matchBody_cases step with ⟨price, front, rest, -, -, -, -, ⟨-, rfl⟩ | ⟨-, rfl⟩⟩
  · simp only [Walk.exhaust, pushTrade, pushDone, List.mem_append, List.mem_singleton,
      reduceCtorEq, or_false, Event.done.injEq] at member
    rcases member with earlier | ⟨-, -, filled, -⟩
    · exact before id leavesQty reason seq earlier
    · exact filled
  · simp only [Walk.fill, pushTrade, List.mem_append, List.mem_singleton, reduceCtorEq,
      or_false] at member
    exact before id leavesQty reason seq member

section Compared

variable {kind : OrderKind} (positive : order.qty ≠ Qty.zero)
  (fresh : matcher.book.contains order.id = false)

/-- The state of the loop when an order of the kind stops matching. -/
def stopped (matcher : Matcher) (order : NewOrder) (kind : OrderKind) : Walk :=
  (matchLoop (order.withKind kind)).run (matcher.opening order [])

theorem reason_of_mem_stopped {id : OrderId} {leavesQty : Qty} {reason : DoneReason}
    {seq : Sequence}
    (member : .done id leavesQty reason seq ∈ (stopped matcher order kind).out) :
    reason = .filled := by
  refine (matchLoop (order.withKind kind)).run_invariant (fun walk => ∀ id leavesQty reason seq,
    .done id leavesQty reason seq ∈ walk.out → reason = .filled)
    (fun _ _ step before => matchBody_reason step before) (matcher.opening order []) ?_
    id leavesQty reason seq member
  intro id leavesQty reason seq opened
  simp [opening] at opened

/-- Kinds with the same price test stop matching in the same state. -/
theorem stopped_congr (matcher : Matcher) (order : NewOrder) (kind other : OrderKind)
    (crosses : ∀ price, (order.withKind kind).crosses price =
      (order.withKind other).crosses price) :
    stopped matcher order kind = stopped matcher order other := by
  unfold stopped
  rw [matchLoop_congr (order.withKind kind) (order.withKind other) rfl rfl crosses]

/-- A kind whose price test admits more goes on where the other one stops. -/
theorem out_prefix_stopped (matcher : Matcher) (order : NewOrder) (kind other : OrderKind)
    (crosses : ∀ price, (order.withKind kind).crosses price →
      (order.withKind other).crosses price) :
    (stopped matcher order kind).out <+: (stopped matcher order other).out := by
  have continues := Loop.run_extends (matchLoop (order.withKind kind))
    (matchLoop (order.withKind other)) (fun _ _ => matchBody_mono _ _ rfl rfl crosses)
    (matcher.opening order [])
  have within := out_prefix_matchLoop (order.withKind other) (stopped matcher order kind)
  unfold stopped at within ⊢
  rw [continues]
  exact within

/-- Rejecting an order by its kind. -/
theorem accept_of_kindRejects (rejects : (order.withKind kind).kindRejects matcher.book = true) :
    matcher.accept (order.withKind kind) [] =
      matcher.pushDone order.id order.qty .rejected [] := by
  apply accept_of_not_admits
  intro admits
  rw [admits.2.2] at rejects
  cases rejects

include positive fresh

/-- Accepting an order that its kind does not reject. -/
theorem accept_of_passes (passes : (order.withKind kind).kindRejects matcher.book = false) :
    matcher.accept (order.withKind kind) [] =
      settle (order.withKind kind) matcher.peekSeq (stopped matcher order kind) := by
  have admits : matcher.Admits (order.withKind kind) := ⟨positive, fresh, passes⟩
  exact accept_of_admits admits []

/-- An immediate-or-cancel order is done when it stops matching. -/
theorem accept_ioc (price : Price) :
    matcher.accept (order.withKind (.ioc price)) [] =
      (stopped matcher order (.ioc price)).matcher.pushDone order.id
        (stopped matcher order (.ioc price)).remaining
        (if (stopped matcher order (.ioc price)).remaining = Qty.zero then .filled else .expired)
        (stopped matcher order (.ioc price)).out := by
  rw [accept_of_passes positive fresh rfl]
  exact settle_of_not_rests rfl _ _

/-- A limit order rests with what is left when it stops matching. -/
theorem accept_limit (price : Price)
    (unfilled : (stopped matcher order (.limit price)).remaining ≠ Qty.zero) :
    matcher.accept (order.withKind (.limit price)) [] =
      ({ (stopped matcher order (.limit price)).matcher with
        book := ((stopped matcher order (.limit price)).matcher.book.add order.id order.side price
          (stopped matcher order (.limit price)).remaining matcher.peekSeq).1 },
        (stopped matcher order (.limit price)).out) := by
  rw [accept_of_passes positive fresh rfl]
  simp only [settle, if_neg unfilled]
  rfl

theorem accept_ioc_endsFilled_iff (price : Price) :
    EndsFilled order.id (matcher.accept (order.withKind (.ioc price)) []).2 ↔
      (stopped matcher order (.ioc price)).remaining = Qty.zero := by
  rw [accept_ioc positive fresh]
  by_cases filled : (stopped matcher order (.ioc price)).remaining = Qty.zero
  · simp [EndsFilled, pushDone, filled]
  · simp [EndsFilled, pushDone, filled]

omit fresh in
/-- The gate of a fill-or-kill order foresees whether the loop fills it. -/
theorem kindRejects_fok_eq_false_iff (price : Price) (wf : matcher.book.WF) :
    (order.withKind (.fok price)).kindRejects matcher.book = false ↔
      (stopped matcher order (.ioc price)).remaining = Qty.zero := by
  have follows := matchLoop_follows (order.withKind (.ioc price)) (matcher.opening order []) wf
  have left := toNat_consume ((matcher.book.makers order.side.opposite).filter
    (admits (order.withKind (.ioc price)))) order.qty
  have short := Book.fillableQtyAt_lt_iff matcher.book order.side.opposite price positive
  have gate : (order.withKind (.fok price)).kindRejects matcher.book = false ↔
      ¬matcher.book.fillableQtyAt order.side.opposite price order.qty < order.qty :=
    decide_eq_false_iff_not
  rw [gate, short, Qty.eq_iff, stopped, follows.remaining]
  refine Iff.trans ?_ (iff_of_eq (congrArg (· = Qty.zero.toNat) left.symm))
  rw [Qty.toNat_zero]
  change ¬ totalQty ((matcher.book.makers order.side.opposite).filter
    (admits (order.withKind (.ioc price)))) < order.qty.toNat ↔ _
  omega

/-- A fill-or-kill order runs as the immediate-or-cancel order if that is filled, and is
rejected otherwise. -/
theorem accept_fok_cases (price : Price) (wf : matcher.book.WF) :
    (stopped matcher order (.ioc price)).remaining = Qty.zero ∧
      matcher.accept (order.withKind (.fok price)) [] =
        matcher.accept (order.withKind (.ioc price)) [] ∨
    (stopped matcher order (.ioc price)).remaining ≠ Qty.zero ∧
      matcher.accept (order.withKind (.fok price)) [] =
        matcher.pushDone order.id order.qty .rejected [] := by
  have gate := kindRejects_fok_eq_false_iff positive price wf
  by_cases filled : (stopped matcher order (.ioc price)).remaining = Qty.zero
  · have sameLoop : stopped matcher order (.fok price) = stopped matcher order (.ioc price) :=
      stopped_congr matcher order _ _ fun _ => rfl
    refine .inl ⟨filled, ?_⟩
    rw [accept_of_passes positive fresh (gate.mpr filled), accept_ioc positive fresh, sameLoop]
    rw [settle_of_not_rests rfl, if_pos filled, if_pos filled]
    rfl
  · refine .inr ⟨filled, accept_of_kindRejects ?_⟩
    rw [← Bool.not_eq_false, gate]
    exact filled

omit positive fresh in
/-- The gate of a post-only order is the price test of the loop on the best opposite price. -/
theorem kindRejects_postOnly_eq_false_iff (price : Price) :
    (order.withKind (.postOnly price)).kindRejects matcher.book = false ↔
      ∀ best, matcher.book.best order.side.opposite = some best →
        (order.withKind (.limit price)).crosses best = false := by
  cases side : order.side with
  | buy =>
      simp only [NewOrder.kindRejects, NewOrder.crosses, NewOrder.withKind, Book.best, side,
        Side.opposite]
      cases matcher.book.bestAsk <;> simp
  | sell =>
      simp only [NewOrder.kindRejects, NewOrder.crosses, NewOrder.withKind, Book.best, side,
        Side.opposite]
      cases matcher.book.bestBid <;> simp

omit positive fresh in
/-- An iteration of the loop leaves a trade. -/
theorem trades_of_matchBody (step : matchBody order walk = some next) :
    trades next.out ≠ [] := by
  rcases matchBody_cases step with ⟨price, front, rest, -, -, -, -, ⟨-, rfl⟩ | ⟨-, rfl⟩⟩
  · simp [trades, Walk.exhaust, pushTrade, pushDone, Event.isTrade]
  · simp [trades, Walk.fill, pushTrade, Event.isTrade]

/-- A post-only order runs as the limit order if that one matches nothing, and is rejected
if that one trades. -/
theorem accept_postOnly_cases (price : Price) (wf : matcher.book.WF) :
    (stopped matcher order (.limit price) = matcher.opening order [] ∧
      matcher.accept (order.withKind (.postOnly price)) [] =
        matcher.accept (order.withKind (.limit price)) []) ∨
    (trades (stopped matcher order (.limit price)).out ≠ [] ∧
      matcher.accept (order.withKind (.postOnly price)) [] =
        matcher.pushDone order.id order.qty .rejected []) := by
  have sameLoop : stopped matcher order (.postOnly price) = stopped matcher order (.limit price) :=
    stopped_congr matcher order _ _ fun _ => rfl
  have breaks : matchBody (order.withKind (.limit price)) (matcher.opening order []) = none ↔ _ :=
    matchBody_eq_none wf
  cases step : matchBody (order.withKind (.limit price)) (matcher.opening order []) with
  | none =>
      have passes := (kindRejects_postOnly_eq_false_iff price).mpr
        ((breaks.mp step).resolve_left positive)
      refine .inl ⟨(matchLoop (order.withKind (.limit price))).run_of_break step, ?_⟩
      rw [accept_of_passes positive fresh passes, accept_of_passes positive fresh rfl, sameLoop]
      rfl
  | some next =>
      refine .inr ⟨?_, accept_of_kindRejects ?_⟩
      · have continued : stopped matcher order (.limit price) =
            (matchLoop (order.withKind (.limit price))).run next :=
          (matchLoop (order.withKind (.limit price))).run_of_continue step
        have within := trades_prefix (out_prefix_matchLoop (order.withKind (.limit price)) next)
        rw [continued]
        intro none
        rw [none] at within
        exact trades_of_matchBody step (List.prefix_nil.mp within)
      · rw [← Bool.not_eq_false, kindRejects_postOnly_eq_false_iff]
        intro away
        rw [breaks.mpr (.inr away)] at step
        cases step

/-- A limit order does what the immediate-or-cancel order does, except that its remainder
rests. -/
theorem accept_limit_cases (price : Price) :
    let limit := matcher.accept (order.withKind (.limit price)) []
    let ioc := matcher.accept (order.withKind (.ioc price)) []
    limit.2.filter (Event.isFill order.id) = ioc.2.filter (Event.isFill order.id) ∧
      (EndsFilled order.id ioc.2 ∧ limit = ioc ∨
        ∃ left seq, left ≠ Qty.zero ∧ ioc.2 = limit.2 ++ [.done order.id left .expired seq] ∧
          limit.1.book =
            (ioc.1.book.add order.id order.side price left matcher.peekSeq).1) := by
  intro limit ioc
  have sameLoop : stopped matcher order (.limit price) = stopped matcher order (.ioc price) :=
    stopped_congr matcher order _ _ fun _ => rfl
  have limit_eq : limit = _ := accept_of_passes positive fresh rfl
  have ioc_eq : ioc = _ := accept_of_passes positive fresh rfl
  refine ⟨?_, ?_⟩
  · have limitFills := fills_settle (order.withKind (.limit price)) matcher.peekSeq
      (stopped matcher order (.ioc price))
    have iocFills := fills_settle (order.withKind (.ioc price)) matcher.peekSeq
      (stopped matcher order (.ioc price))
    rw [limit_eq, ioc_eq, sameLoop]
    exact limitFills.trans iocFills.symm
  · by_cases filled : (stopped matcher order (.ioc price)).remaining = Qty.zero
    · refine .inl ⟨(accept_ioc_endsFilled_iff positive fresh price).mpr filled, ?_⟩
      rw [limit_eq, ioc_eq, sameLoop]
      simp only [settle, if_pos filled]
      rfl
    · have rests : limit = _ := accept_limit positive fresh price (by rw [sameLoop]; exact filled)
      have ended : ioc = _ := accept_ioc positive fresh price
      rw [if_neg filled] at ended
      rw [sameLoop] at rests
      refine .inr ⟨(stopped matcher order (.ioc price)).remaining,
        (stopped matcher order (.ioc price)).matcher.peekSeq, filled, ?_, ?_⟩
      · rw [ended, rests]
        rfl
      · rw [ended, rests]
        rfl

/-- The trades of an immediate-or-cancel order are the first ones of the order with a more
aggressive limit. -/
theorem trades_ioc_prefix {price other : Price}
    (aggressive : order.side.AtLeastAsAggressive other price) :
    trades (matcher.accept (order.withKind (.ioc price)) []).2 <+:
      trades (matcher.accept (order.withKind (.ioc other)) []).2 := by
  rw [accept_of_passes positive fresh rfl, accept_of_passes positive fresh rfl, trades_settle,
    trades_settle]
  apply trades_prefix
  apply out_prefix_stopped
  intro best
  cases side : order.side with
  | buy =>
      simp only [NewOrder.crosses, NewOrder.withKind, side, decide_eq_true_eq, ge_iff_le]
      rw [side] at aggressive
      exact fun reached => le_trans reached aggressive
  | sell =>
      simp only [NewOrder.crosses, NewOrder.withKind, side, decide_eq_true_eq]
      rw [side] at aggressive
      exact fun reached => le_trans aggressive reached

/-- A market order is the immediate-or-cancel order without a limit, and names another
reason for its remainder. -/
theorem accept_market_cases :
    let market := matcher.accept (order.withKind .market) []
    let ioc := matcher.accept (order.withKind (.ioc order.side.extreme)) []
    trades market.2 = trades ioc.2 ∧ market.1.book = ioc.1.book ∧
      (market.2 = ioc.2 ∨ ∃ events left seq,
        market.2 = events ++ [.done order.id left .noLiquidity seq] ∧
          ioc.2 = events ++ [.done order.id left .expired seq]) := by
  intro market ioc
  have sameLoop : stopped matcher order .market =
      stopped matcher order (.ioc order.side.extreme) := by
    apply stopped_congr
    intro best
    cases side : order.side with
    | buy => simp [NewOrder.crosses, NewOrder.withKind, side, Side.extreme, Price.le_maxValue]
    | sell => simp [NewOrder.crosses, NewOrder.withKind, side, Side.extreme, Price.minValue_le]
  have market_eq : market = _ := accept_of_passes positive fresh rfl
  have ioc_eq : ioc = _ := accept_ioc positive fresh order.side.extreme
  rw [settle_of_not_rests rfl, sameLoop] at market_eq
  refine ⟨?_, ?_, ?_⟩
  · rw [market_eq, ioc_eq]
    simp [trades, pushDone, Event.isTrade]
  · rw [market_eq, ioc_eq]
    rfl
  · by_cases filled : (stopped matcher order (.ioc order.side.extreme)).remaining = Qty.zero
    · rw [if_pos filled] at market_eq ioc_eq
      left
      rw [market_eq, ioc_eq]
      rfl
    · rw [if_neg filled] at market_eq ioc_eq
      right
      refine ⟨(stopped matcher order (.ioc order.side.extreme)).out,
        (stopped matcher order (.ioc order.side.extreme)).remaining,
        (stopped matcher order (.ioc order.side.extreme)).matcher.peekSeq, ?_, ?_⟩
      · rw [market_eq]
        rfl
      · rw [ioc_eq]
        rfl

end Compared

/-- A fill-or-kill order from any reachable state, compared with the immediate-or-cancel order
with the same fields: the same run if that one is filled, a rejection that leaves the book
alone otherwise, and never `Expired`. -/
theorem accept_fok (commands : List Command) (order : NewOrder) (price : Price)
    (fresh : (Matcher.new.run commands).1.book.contains order.id = false)
    (positive : order.qty ≠ Qty.zero) :
    let matcher := (Matcher.new.run commands).1
    let ioc := matcher.accept (order.withKind (.ioc price)) []
    let fok := matcher.accept (order.withKind (.fok price)) []
    (EndsFilled order.id ioc.2 → fok = ioc) ∧
      (¬EndsFilled order.id ioc.2 →
        fok.2 = [.done order.id order.qty .rejected matcher.peekSeq] ∧
          fok.1.book = matcher.book) ∧
      ∀ id leavesQty seq, .done id leavesQty .expired seq ∉ fok.2 := by
  intro matcher ioc fok
  have wf : matcher.book.WF := run_new_WF commands
  have filled_iff := accept_ioc_endsFilled_iff positive fresh price
  rcases accept_fok_cases positive fresh price wf with ⟨filled, same⟩ | ⟨unfilled, rejected⟩
  · refine ⟨fun _ => same, fun unfilled => absurd (filled_iff.mpr filled) unfilled, ?_⟩
    intro id leavesQty seq member
    have pushed := accept_ioc positive fresh price
    rw [if_pos filled] at pushed
    rw [show fok = _ from same, pushed, pushDone, List.mem_append, List.mem_singleton] at member
    rcases member with earlier | last
    · exact absurd (reason_of_mem_stopped earlier) (by decide)
    · cases last
  · have events : fok.2 = [.done order.id order.qty .rejected matcher.peekSeq] :=
      congrArg Prod.snd rejected
    refine ⟨fun filled => absurd (filled_iff.mp filled) unfilled,
      fun _ => ⟨events, congrArg (fun state => state.1.book) rejected⟩, ?_⟩
    intro id leavesQty seq member
    rw [events] at member
    cases List.mem_singleton.mp member

/-- An ask of three and an ask of the largest quantity: their exact sum does not fit, and
the order takes the first and part of the second. -/
theorem accept_fok_saturated :
    let commands : List Command := [.new ⟨⟨1⟩, .sell, ⟨3⟩, .limit ⟨100⟩, ⟨0⟩⟩,
      .new ⟨⟨2⟩, .sell, ⟨0xFFFFFFFFFFFFFFFF⟩, .limit ⟨101⟩, ⟨0⟩⟩]
    let order : NewOrder := ⟨⟨3⟩, .buy, ⟨5⟩, .market, ⟨0⟩⟩
    let matcher := (Matcher.new.run commands).1
    let ioc := matcher.accept (order.withKind (.ioc ⟨101⟩)) []
    let fok := matcher.accept (order.withKind (.fok ⟨101⟩)) []
    (trades ioc.2).length = 2 ∧ fok = ioc := by
  intro commands order matcher ioc fok
  have filled : EndsFilled order.id ioc.2 := ⟨⟨0⟩, ⟨7⟩, by decide⟩
  exact ⟨by decide, (accept_fok commands order ⟨101⟩ (by decide) (by decide)).1 filled⟩

/-- A post-only order from any reachable state, compared with the limit order with the same
fields: the same run, which rests in full, if that one does not trade, and a rejection that
leaves the book alone if it does. -/
theorem accept_postOnly (commands : List Command) (order : NewOrder) (price : Price)
    (fresh : (Matcher.new.run commands).1.book.contains order.id = false)
    (positive : order.qty ≠ Qty.zero) :
    let matcher := (Matcher.new.run commands).1
    let limit := matcher.accept (order.withKind (.limit price)) []
    let postOnly := matcher.accept (order.withKind (.postOnly price)) []
    (trades limit.2 = [] → postOnly = limit ∧ postOnly.1.book =
      (matcher.book.add order.id order.side price order.qty matcher.peekSeq).1) ∧
    (trades limit.2 ≠ [] →
      postOnly.2 = [.done order.id order.qty .rejected matcher.peekSeq] ∧
        postOnly.1.book = matcher.book) := by
  intro matcher limit postOnly
  have wf : matcher.book.WF := run_new_WF commands
  have traded : trades limit.2 = trades (stopped matcher order (.limit price)).out := by
    rw [show limit = _ from accept_of_passes positive fresh rfl, trades_settle]
  rcases accept_postOnly_cases positive fresh price wf with ⟨opened, same⟩ | ⟨some, rejected⟩
  · constructor
    · intro none
      have rests := accept_limit positive fresh price (by rw [opened]; exact positive)
      refine ⟨same, ?_⟩
      rw [show postOnly = _ from same, rests, opened]
      rfl
    · intro some
      rw [traded, opened] at some
      exact absurd rfl some
  · constructor
    · intro none
      rw [traded] at none
      exact absurd none some
    · intro _
      exact ⟨congrArg Prod.snd rejected, congrArg (fun state => state.1.book) rejected⟩

/-- A post-only bid at the price of an ask. -/
theorem accept_postOnly_at_ask :
    let commands : List Command := [.new ⟨⟨1⟩, .sell, ⟨3⟩, .limit ⟨100⟩, ⟨0⟩⟩]
    let order : NewOrder := ⟨⟨2⟩, .buy, ⟨5⟩, .market, ⟨0⟩⟩
    let matcher := (Matcher.new.run commands).1
    let postOnly := matcher.accept (order.withKind (.postOnly ⟨100⟩)) []
    postOnly.2 = [.done order.id order.qty .rejected matcher.peekSeq] ∧
      postOnly.1.book = matcher.book := by
  intro commands order matcher postOnly
  exact (accept_postOnly commands order ⟨100⟩ (by decide) (by decide)).2 (by decide)

/-- Orders with the same id, side and quantity from any reachable state: a limit order fills
the same makers as the immediate-or-cancel order, a more aggressive limit continues the
trades, and a market order is the immediate-or-cancel order at the extreme price. -/
theorem accept_fills (commands : List Command) (order : NewOrder) (price : Price)
    (fresh : (Matcher.new.run commands).1.book.contains order.id = false)
    (positive : order.qty ≠ Qty.zero) :
    let matcher := (Matcher.new.run commands).1
    let market := matcher.accept (order.withKind .market) []
    let limit := matcher.accept (order.withKind (.limit price)) []
    let ioc := fun price => matcher.accept (order.withKind (.ioc price)) []
    (limit.2.filter (Event.isFill order.id) = (ioc price).2.filter (Event.isFill order.id) ∧
      (EndsFilled order.id (ioc price).2 ∧ limit = ioc price ∨
        ∃ left seq, left ≠ Qty.zero ∧
          (ioc price).2 = limit.2 ++ [.done order.id left .expired seq] ∧
          limit.1.book =
            ((ioc price).1.book.add order.id order.side price left matcher.peekSeq).1)) ∧
    (∀ other, order.side.AtLeastAsAggressive other price →
      trades (ioc price).2 <+: trades (ioc other).2) ∧
    trades market.2 = trades (ioc order.side.extreme).2 ∧
      market.1.book = (ioc order.side.extreme).1.book ∧
      (market.2 = (ioc order.side.extreme).2 ∨ ∃ events left seq,
        market.2 = events ++ [.done order.id left .noLiquidity seq] ∧
          (ioc order.side.extreme).2 = events ++ [.done order.id left .expired seq]) := by
  intro matcher market limit ioc
  exact ⟨accept_limit_cases positive fresh price,
    fun other aggressive => trades_ioc_prefix positive fresh aggressive,
    accept_market_cases positive fresh⟩

/-- A limit at the first of two levels and one at the second. -/
theorem accept_fills_two_levels :
    let commands : List Command := [.new ⟨⟨1⟩, .sell, ⟨3⟩, .limit ⟨100⟩, ⟨0⟩⟩,
      .new ⟨⟨2⟩, .sell, ⟨4⟩, .limit ⟨101⟩, ⟨0⟩⟩]
    let order : NewOrder := ⟨⟨3⟩, .buy, ⟨9⟩, .market, ⟨0⟩⟩
    let matcher := (Matcher.new.run commands).1
    let ioc := fun price => matcher.accept (order.withKind (.ioc price)) []
    (trades (ioc ⟨100⟩).2).length = 1 ∧ (trades (ioc ⟨101⟩).2).length = 2 ∧
      trades (ioc ⟨100⟩).2 <+: trades (ioc ⟨101⟩).2 := by
  intro commands order matcher ioc
  exact ⟨by decide, by decide,
    (accept_fills commands order ⟨100⟩ (by decide) (by decide)).2.1 ⟨101⟩ (by decide)⟩

end Matcher

end Bourse
