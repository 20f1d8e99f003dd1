import Bourse.Matcher.Reference
import Mathlib.Data.List.Induction

/-!
# Price-time priority

As long as sequence numbers have not wrapped, every level lists its orders by
ascending sequence number.  The book then lists the makers of a side as the
reference matcher sorts them, and accepting an order refines the reference.
-/

namespace Bourse

namespace Matcher

open Reference

variable {order : NewOrder} {walk next : Walk} {matcher : Matcher} {book : Book}
  {bound : Nat}

/-! ## Levels are in sequence order -/

/-- Every level lists its orders by strictly ascending sequence number, all of them
below `bound`. -/
structure SeqOrdered (book : Book) (bound : Nat) : Prop where
  ascending : ∀ side price, (book.queue side price).Pairwise fun left right =>
    left.seq < right.seq
  below : ∀ side price, ∀ order ∈ book.queue side price, order.seq.get.toNat < bound

theorem SeqOrdered.mono {larger : Nat} (ordered : SeqOrdered book bound)
    (le : bound ≤ larger) : SeqOrdered book larger :=
  ⟨ordered.ascending, fun side price order member =>
    lt_of_lt_of_le (ordered.below side price order member) le⟩

/-- Rewriting a queue keeps the order when its sequence numbers are among the old
ones, in the same order. -/
theorem SeqOrdered.place {side : Side} {price : Price}
    {level : Level} (ordered : SeqOrdered book bound)
    (index : OrderedMap OrderId (Side × Price))
    (sublist : (level.map Order.seq).Sublist ((book.queue side price).map Order.seq)) :
    SeqOrdered (book.place side price level index) bound where
  ascending other level_price := by
    rw [Book.queue_place]
    split
    · have old := List.pairwise_map.mpr (ordered.ascending side price)
      exact List.pairwise_map.mp (old.sublist sublist)
    · exact ordered.ascending other level_price
  below other level_price order := by
    rw [Book.queue_place]
    split
    · intro member
      rcases List.mem_map.mp (sublist.subset (List.mem_map_of_mem member)) with
        ⟨old, oldMember, seqEq⟩
      rw [← seqEq]
      exact ordered.below side price old oldMember
    · exact ordered.below other level_price order

theorem SeqOrdered.add (ordered : SeqOrdered book bound)
    (id : OrderId) (side : Side) (price : Price) (qty : Qty) {seq : Sequence}
    (later : bound ≤ seq.get.toNat) :
    SeqOrdered (book.add id side price qty seq).1 (seq.get.toNat + 1) := by
  have wider : SeqOrdered book (seq.get.toNat + 1) := ordered.mono (by omega)
  by_cases refused : book.Refuses id qty
  · rw [Book.add_of_refused refused]
    exact wider
  rw [Book.add_of_fresh refused]
  refine ⟨?_, ?_⟩
  · intro other level_price
    rw [Book.queue_place]
    split
    · rw [List.pairwise_append]
      refine ⟨ordered.ascending side price, List.pairwise_singleton _ _, ?_⟩
      intro old oldMember new newMember
      rw [List.mem_singleton] at newMember
      subst newMember
      exact Sequence.lt_iff.mpr
        (lt_of_lt_of_le (ordered.below side price old oldMember) later)
    · exact ordered.ascending other level_price
  · intro other level_price order
    rw [Book.queue_place]
    split
    · intro member
      rcases List.mem_append.mp member with member | member
      · exact wider.below side price order member
      · rw [List.mem_singleton] at member
        subst member
        exact Nat.lt_succ_self _
    · exact wider.below other level_price order

theorem matchBody_seqOrdered (step : matchBody order walk = some next)
    (ordered : SeqOrdered walk.matcher.book bound) :
    SeqOrdered next.matcher.book bound := by
  rcases matchBody_cases step with
    ⟨price, front, rest, -, -, queued, -, ⟨-, rfl⟩ | ⟨-, rfl⟩⟩
  · apply ordered.place
    rw [queued, List.map_cons]
    exact List.sublist_cons_self _ _
  · apply ordered.place
    rw [queued]
    exact List.Sublist.refl _

theorem accept_seqOrdered (wf : matcher.book.WF)
    (ordered : SeqOrdered matcher.book matcher.seq.counter.toNat) (order : NewOrder) :
    SeqOrdered (matcher.accept order []).1.book (matcher.seq.counter.toNat + 1) := by
  have wider := ordered.mono (Nat.le_succ _)
  by_cases admits : matcher.Admits order
  · rw [accept_of_admits admits]
    have finalOrdered := (matchLoop_invariant order
      (fun walk => SeqOrdered walk.matcher.book matcher.seq.counter.toNat)
      (fun _ _ _ step => matchBody_seqOrdered step)
      (show (matcher.opening order []).matcher.book.WF from wf) ordered).2
    rcases settle_cases order matcher.peekSeq
        ((matchLoop order).run (matcher.opening order [])) with
      ⟨-, settled⟩ | ⟨-, price, -, settled⟩ | ⟨-, -, settled⟩
    · rw [settled, book_pushDone]
      exact finalOrdered.mono (Nat.le_succ _)
    · rw [settled]
      exact finalOrdered.add _ _ _ _ (le_refl _)
    · rw [settled, book_pushDone]
      exact finalOrdered.mono (Nat.le_succ _)
  · rw [accept_of_not_admits admits]
    exact wider

theorem handle_seqOrdered (wf : matcher.book.WF)
    (ordered : SeqOrdered matcher.book matcher.seq.counter.toNat) (command : Command) :
    SeqOrdered (matcher.handle command []).1.book
      (matcher.seq.counter.toNat + (matcher.handle command []).2.length) := by
  cases command with
  | new order =>
      have emitted := List.length_pos_of_ne_nil (accept_ne_nil matcher order)
      exact (accept_seqOrdered wf ordered order).mono (Nat.add_le_add_left emitted _)
  | cancel id =>
      apply SeqOrdered.mono _ (Nat.le_add_right _ _)
      simp only [handle, book_cancel]
      cases indexed : matcher.book.index.get? id with
      | none =>
          rw [Book.cancel_of_absent indexed]
          exact ordered
      | some located =>
          rcases wf.cancel_of_indexed indexed with
            ⟨before, order, after, queued, -, cancelled⟩
          rw [cancelled]
          apply ordered.place
          rw [queued]
          exact (List.sublist_append_right [order] after |>.append_left before).map _

/-- As long as no sequence number has wrapped, the next one exceeds the number of
events by one. -/
theorem counter_run_new (commands : List Command)
    (fits : (Matcher.new.run commands).2.length + 1 < 2 ^ 64) :
    (Matcher.new.run commands).1.seq.counter.toNat =
      (Matcher.new.run commands).2.length + 1 := by
  rw [(emits_run Matcher.new commands).counter, toNat_add_ofNat]
  · exact Nat.add_comm _ _
  · exact Nat.add_comm _ _ ▸ fits

theorem run_new_seqOrdered {commands : List Command}
    (fits : (Matcher.new.run commands).2.length + 1 < 2 ^ 64) :
    SeqOrdered (Matcher.new.run commands).1.book
      ((Matcher.new.run commands).2.length + 1) := by
  induction commands using List.reverseRecOn with
  | nil =>
      refine ⟨?_, ?_⟩
      · intro side price
        cases side <;> exact List.Pairwise.nil
      · intro side price order member
        cases side <;> cases member
  | append_singleton commands command ih =>
      rw [run_concat] at fits ⊢
      rw [List.length_append] at fits ⊢
      have counter := counter_run_new commands (by omega)
      have step := handle_seqOrdered (run_new_WF commands) (counter ▸ ih (by omega)) command
      rw [counter] at step
      exact step.mono (by omega)

/-! ## The book lists makers as the reference sorts them -/

theorem SeqOrdered.eq_of_seq {side : Side} {price : Price} {left right : Order}
    (ordered : SeqOrdered book bound) (leftMem : left ∈ book.queue side price)
    (rightMem : right ∈ book.queue side price) (equal : left.seq = right.seq) :
    left = right := by
  have nodup : ((book.queue side price).map Order.seq).Nodup := by
    apply List.pairwise_map.mpr
    exact (ordered.ascending side price).imp ne_of_lt
  exact List.inj_on_of_nodup_map nodup leftMem rightMem equal

theorem SeqOrdered.resting_eq {left right : RestingOrder} (ordered : SeqOrdered book bound)
    (leftMem : left ∈ book.iterResting) (rightMem : right ∈ book.iterResting)
    (sides : left.side = right.side) (prices : left.price = right.price)
    (seqs : left.seq = right.seq) : left = right := by
  rw [Book.mem_iterResting] at leftMem rightMem
  rw [sides, prices] at leftMem
  have orders : left.order = right.order := ordered.eq_of_seq leftMem rightMem seqs
  cases left
  cases right
  simp_all [RestingOrder.order]

theorem precedes_iff {side : Side} {left right : RestingOrder} :
    precedes side left right = true ↔ side.BetterEq left.price right.price ∧
      (left.price = right.price → left.seq ≤ right.seq) := by
  unfold precedes
  by_cases equal : left.price = right.price
  · have reflexive : side.BetterEq right.price right.price := by
      cases side <;> exact le_refl _
    simp [equal, reflexive]
  · simp [equal]

theorem precedes_trans (side : Side) (first second third : RestingOrder)
    (left : precedes side first second = true) (right : precedes side second third = true) :
    precedes side first third = true := by
  rw [precedes_iff] at left right ⊢
  refine ⟨left.1.trans right.1, ?_⟩
  intro equal
  have same : first.price = second.price := left.1.antisymm (equal ▸ right.1)
  exact (left.2 same).trans (right.2 (same ▸ equal))

theorem precedes_total (side : Side) (left right : RestingOrder) :
    (precedes side left right || precedes side right left) = true := by
  unfold precedes
  by_cases equal : left.price = right.price
  · simpa [equal] using le_total left.seq right.seq
  · simpa [equal, Ne.symm equal] using side.betterEq_total left.price right.price

theorem precedes_antisymm {side : Side} {left right : RestingOrder}
    (before : precedes side left right = true) (after : precedes side right left = true) :
    left.price = right.price ∧ left.seq = right.seq := by
  rw [precedes_iff] at before after
  have equal := before.1.antisymm after.1
  exact ⟨equal, le_antisymm (before.2 equal) (after.2 equal.symm)⟩

/-- One level in priority order. -/
theorem SeqOrdered.level_pairwise (ordered : SeqOrdered book bound) (side : Side)
    {entry : Price × Level} (member : entry ∈ (book.side side).entries) :
    (Book.levelResting side entry).Pairwise fun left right =>
      precedes side left right = true := by
  have ascending := ordered.ascending side entry.1
  rw [Book.queue, OrderedMap.mem_entries.mp member, Option.getD_some] at ascending
  apply List.pairwise_map.mpr
  apply ascending.imp
  intro left right less
  simp [precedes, less.le]

/-- Orders of a better level come first. -/
theorem precedes_of_levels {side : Side} {better worse : Price × Level}
    (apart : better.1 ≠ worse.1) (le : side.BetterEq better.1 worse.1) :
    ∀ left ∈ Book.levelResting side better, ∀ right ∈ Book.levelResting side worse,
      precedes side left right = true := by
  intro left leftMem right rightMem
  rcases List.mem_map.mp leftMem with ⟨leftOrder, -, rfl⟩
  rcases List.mem_map.mp rightMem with ⟨rightOrder, -, rfl⟩
  exact precedes_iff.mpr ⟨le, fun equal => absurd equal apart⟩

theorem SeqOrdered.makers_pairwise (ordered : SeqOrdered book bound) (side : Side) :
    (book.makers side).Pairwise fun left right => precedes side left right = true := by
  cases side with
  | buy =>
      rw [Book.makers, List.pairwise_flatMap, List.pairwise_reverse]
      refine ⟨?_, ?_⟩
      · intro entry member
        exact ordered.level_pairwise .buy (List.mem_reverse.mp member)
      · apply book.bids.ascending.imp
        intro worse better less
        exact precedes_of_levels (ne_of_gt less) (le_of_lt less)
  | sell =>
      rw [Book.makers, List.pairwise_flatMap]
      refine ⟨?_, ?_⟩
      · intro entry member
        exact ordered.level_pairwise .sell member
      · apply book.asks.ascending.imp
        intro better worse less
        exact precedes_of_levels (ne_of_lt less) (le_of_lt less)

/-- The makers of the reference are the makers in the order of the book. -/
theorem makers_eq (wf : book.WF) (ordered : SeqOrdered book bound) (order : NewOrder) :
    Reference.makers book.iterResting order =
      (book.makers order.side.opposite).filter (admits order) := by
  rw [Reference.makers]
  congr 1
  generalize order.side.opposite = side
  have sorted := List.pairwise_mergeSort (precedes_trans side) (precedes_total side)
    (book.iterResting.filter fun maker => maker.side = side)
  have perm := (List.mergeSort_perm (book.iterResting.filter fun maker =>
    maker.side = side) (precedes side)).trans (wf.makers_perm side)
  apply perm.eq_of_pairwise _ sorted (ordered.makers_pairwise side)
  intro left right leftMem rightMem before after
  rcases precedes_antisymm before after with ⟨prices, seqs⟩
  rcases Book.mem_makers.mp (perm.mem_iff.mp leftMem) with ⟨leftSide, leftRests⟩
  rcases Book.mem_makers.mp rightMem with ⟨rightSide, rightRests⟩
  exact ordered.resting_eq leftRests rightRests (leftSide.trans rightSide.symm) prices seqs

/-! ## The book of a list of resting orders -/

theorem bySeq_trans (first second third : RestingOrder) (left : bySeq first second = true)
    (right : bySeq second third = true) : bySeq first third = true :=
  decide_eq_true ((of_decide_eq_true left).trans (of_decide_eq_true right))

theorem bySeq_total (left right : RestingOrder) :
    (bySeq left right || bySeq right left) = true := by
  simpa [bySeq] using le_total left.seq right.seq

theorem mem_queueOf {resting : List RestingOrder} {side : Side} {price : Price}
    {order : Order} :
    order ∈ Book.queueOf resting side price ↔ order.resting side price ∈ resting := by
  simp only [Book.queueOf, List.mem_map, List.mem_filter, decide_eq_true_eq]
  constructor
  · intro found
    rcases found with ⟨located, ⟨member, rfl, rfl⟩, rfl⟩
    exact member
  · intro member
    exact ⟨_, ⟨member, rfl, rfl⟩, rfl⟩

/-- A list that holds the orders of an ordered book, in any order, determines it. -/
theorem bookOf_eq {resting : List RestingOrder} (wf : book.WF)
    (ordered : SeqOrdered book bound) (nodup : (resting.map RestingOrder.id).Nodup)
    (same : ∀ order, order ∈ resting ↔ order ∈ book.iterResting) :
    bookOf resting = book := by
  have perm := List.mergeSort_perm resting bySeq
  have sorted := List.pairwise_mergeSort bySeq_trans bySeq_total resting
  apply wf.addAll_eq ((perm.map _).nodup_iff.mpr nodup)
  intro side price
  have queueSorted : (Book.queueOf (resting.mergeSort bySeq) side price).Pairwise
      fun left right => left.seq ≤ right.seq :=
    List.pairwise_map.mpr ((sorted.filter _).imp fun before => of_decide_eq_true before)
  have queueAscending := (ordered.ascending side price).imp le_of_lt
  have queueNodup : (Book.queueOf (resting.mergeSort bySeq) side price).Nodup := by
    apply List.Nodup.map_on _ ((List.Nodup.of_map _ nodup).perm perm.symm |>.filter _)
    intro left leftMem right rightMem equal
    apply List.inj_on_of_nodup_map ((perm.map _).nodup_iff.mpr nodup)
      (List.mem_of_mem_filter leftMem) (List.mem_of_mem_filter rightMem)
    exact congrArg Order.id equal
  have queuePerm : (Book.queueOf (resting.mergeSort bySeq) side price).Perm
      (book.queue side price) := by
    rw [List.perm_ext_iff_of_nodup queueNodup (List.Nodup.of_map _ (wf.nodup side price))]
    intro order
    rw [mem_queueOf, perm.mem_iff, same, Book.mem_queue]
  apply queuePerm.eq_of_pairwise _ queueSorted queueAscending
  intro left right leftMem rightMem before after
  exact ordered.eq_of_seq (queuePerm.mem_iff.mp leftMem) rightMem (le_antisymm before after)

/-! ## Accepting an order refines the reference -/

/-- How an accepted order ends, in the reference's words. -/
theorem settle_reference (wf : walk.matcher.book.WF) (receiveSeq : Sequence)
    (fresh : ∀ resting ∈ walk.matcher.book.iterResting, resting.id ≠ order.id) :
    (settle order receiveSeq walk).2 = walk.out ++
        number walk.matcher.seq.counter (finalEvents order walk.remaining) ∧
    ∀ resting, resting ∈ (settle order receiveSeq walk).1.book.iterResting ↔
      resting ∈ walk.matcher.book.iterResting ∨
        resting ∈ remainder order walk.remaining receiveSeq := by
  rcases settle_cases order receiveSeq walk with
    ⟨filled, settled⟩ | ⟨left, price, rests, settled⟩ | ⟨left, done, settled⟩
  · rw [settled, finalEvents, if_pos filled]
    refine ⟨rfl, ?_⟩
    intro resting
    cases price : order.kind.restingPrice <;> simp [remainder, price, filled]
  · rw [settled]
    have accepted : ¬walk.matcher.book.Refuses order.id walk.remaining := by
      intro refused
      rcases refused with zero | present
      · exact left zero
      · rcases (wf.contains_iff).mp present with ⟨resting, member, sameId⟩
        exact fresh resting member sameId
    refine ⟨?_, ?_⟩
    · simp [finalEvents, left, rests, number]
    · intro resting
      rw [Book.mem_iterResting_add accepted, or_comm]
      simp [remainder, rests, left]
  · rw [settled, finalEvents, if_neg left, done]
    refine ⟨rfl, ?_⟩
    intro resting
    simp [remainder, done]

/-- The loop of an accepted order performs the fills of the reference. -/
theorem accept_follows (wf : matcher.book.WF) (ordered : SeqOrdered matcher.book bound)
    (order : NewOrder) :
    Follows order (matcher.opening order [])
      ((matchLoop order).run (matcher.opening order []))
      (outcome matcher.book order).1 (outcome matcher.book order).2 := by
  rw [outcome, makers_eq wf ordered]
  exact matchLoop_follows order (matcher.opening order []) wf

/-- Dropping and reducing resting orders leaves their ids distinct. -/
theorem ids_filterMap_sublist (fills : List Fill) (resting : List RestingOrder) :
    ((resting.filterMap (afterFills fills)).map RestingOrder.id).Sublist
      (resting.map RestingOrder.id) := by
  induction resting with
  | nil => exact List.Sublist.refl _
  | cons first rest ih =>
      cases left : afterFills fills first with
      | none =>
          rw [List.filterMap_cons_none left]
          exact ih.cons _
      | some after =>
          rw [List.filterMap_cons_some left, List.map_cons, List.map_cons,
            id_of_afterFills left]
          exact ih.cons_cons _

theorem fresh_of_admits (wf : matcher.book.WF) (admits : matcher.Admits order)
    {resting : RestingOrder} (member : resting ∈ matcher.book.iterResting) :
    resting.id ≠ order.id := by
  intro sameId
  have contained := wf.contains_iff.mpr ⟨resting, member, sameId⟩
  rw [admits.2.1] at contained
  cases contained

theorem id_of_mem_remainder {left : Qty} {receiveSeq : Sequence} {resting : RestingOrder}
    (member : resting ∈ remainder order left receiveSeq) : resting.id = order.id := by
  unfold remainder at member
  split at member
  · split at member
    · cases member
    · rw [List.mem_singleton.mp member]
  · cases member

theorem restingAfter_ids_nodup (wf : matcher.book.WF) (admits : matcher.Admits order) :
    ((restingAfter matcher order).map RestingOrder.id).Nodup := by
  have kept := ids_filterMap_sublist (outcome matcher.book order).1
    matcher.book.iterResting
  rw [restingAfter, List.map_append]
  apply List.Nodup.append (wf.iterResting_ids_nodup.sublist kept)
  · unfold remainder
    split
    · split <;> simp
    · exact List.nodup_nil
  · intro id inKept inRemainder
    rcases List.mem_map.mp (kept.subset inKept) with ⟨resting, rests, rfl⟩
    rcases List.mem_map.mp inRemainder with ⟨taker, remains, sameId⟩
    exact fresh_of_admits wf admits rests (sameId.symm.trans (id_of_mem_remainder remains))

/-- The end of the loop of an accepted order. The taker is still new to the book. -/
theorem accept_final (wf : matcher.book.WF) (ordered : SeqOrdered matcher.book bound)
    (admits : matcher.Admits order) :
    ∃ final, matcher.accept order [] = settle order matcher.peekSeq final ∧
      Follows order (matcher.opening order []) final (outcome matcher.book order).1
        (outcome matcher.book order).2 ∧
      final.matcher.book.WF ∧
      ∀ resting ∈ final.matcher.book.iterResting, resting.id ≠ order.id := by
  have follows := accept_follows wf ordered order
  refine ⟨_, accept_of_admits admits [], follows, ?_, ?_⟩
  · exact (matchLoop_invariant order (fun _ => True) (fun _ _ _ _ _ => trivial)
      (show (matcher.opening order []).matcher.book.WF from wf) trivial).1
  · intro resting member
    rcases (follows.resting resting).mp member with ⟨before, present, after⟩
    rw [id_of_afterFills after]
    exact fresh_of_admits wf admits present

/-- On a book in sequence order, accepting an order is what the reference does. -/
theorem accept_eq_reference (wf : matcher.book.WF)
    (ordered : SeqOrdered matcher.book matcher.seq.counter.toNat)
    (admits : matcher.Admits order) :
    matcher.accept order [] = Reference.accept matcher order := by
  have finalWF := accept_WF wf order []
  have finalOrdered := accept_seqOrdered wf ordered order
  rcases emits_accept matcher order [] with ⟨emitted, emits⟩
  rcases accept_final wf ordered admits with ⟨final, settled, follows, walkWF, fresh⟩
  rcases settle_reference walkWF matcher.peekSeq fresh with ⟨out, resting⟩
  rw [← settled] at out resting
  have stream : (matcher.accept order []).2 = events matcher order := by
    have shape : events matcher order = number matcher.seq.counter
        ([.accepted order.id order.qty] ++
          (outcome matcher.book order).1.flatMap (fillEvents order) ++
          finalEvents order (outcome matcher.book order).2) := rfl
    rw [out, follows.out, follows.remaining, follows.counter, shape, number_append,
      number_append, List.length_append, UInt64.ofNat_add, ← UInt64.add_assoc]
    rfl
  have book : bookOf (restingAfter matcher order) = (matcher.accept order []).1.book := by
    apply bookOf_eq finalWF finalOrdered (restingAfter_ids_nodup wf admits)
    intro order'
    rw [resting, restingAfter, List.mem_append, List.mem_filterMap, follows.resting,
      follows.remaining]
    rfl
  have counter : (matcher.accept order []).1.seq.counter =
      matcher.seq.counter + UInt64.ofNat (events matcher order).length := by
    rw [emits.counter, ← stream, emits.appended]
    rfl
  rw [Reference.accept, book, ← counter, ← stream]

/-- What becomes of the makers in the book. -/
theorem accept_makers (wf : matcher.book.WF) (ordered : SeqOrdered matcher.book bound)
    (admits : matcher.Admits order) {fill : Fill}
    (member : fill ∈ (outcome matcher.book order).1) :
    (fill.taken = fill.maker.qty →
      (matcher.accept order []).1.book.contains fill.maker.id = false) ∧
    (fill.taken ≠ fill.maker.qty → (outcome matcher.book order).2 = Qty.zero ∧
      ((matcher.accept order []).1.book.queue fill.maker.side fill.maker.price).head? =
        some { fill.maker.order with qty := fill.maker.qty.saturatingSub fill.taken }) := by
  rcases accept_final wf ordered admits with ⟨final, settled, follows, walkWF, fresh⟩
  constructor
  · intro exhausted
    rw [Bool.eq_false_iff, ne_eq, (accept_WF wf order []).contains_iff, settled]
    intro present
    rcases present with ⟨resting, rests, sameId⟩
    rcases ((settle_reference walkWF matcher.peekSeq fresh).2 resting).mp rests with
      old | new
    · exact follows.gone fill member exhausted resting old sameId
    · exact fresh_of_admits wf admits (maker_of_mem_outcome member)
        (sameId.symm.trans (id_of_mem_remainder new))
  · intro partly
    rcases follows.reduced fill member partly with ⟨filled, front⟩
    refine ⟨filled, ?_⟩
    rw [settled, settle, if_pos (follows.remaining.trans filled)]
    exact front

/-- Price-time priority: in every state that a run from the empty matcher reaches
before the sequence numbers wrap, accepting an order does what the reference does.
Exhausted makers are gone, and only the last maker can be left reduced: it then
keeps its sequence number at the front of its level, and the taker is filled. -/
theorem accept_priority {commands : List Command} {order : NewOrder}
    (fits : (Matcher.new.run commands).2.length + 1 < 2 ^ 64)
    (admits : (Matcher.new.run commands).1.Admits order) (out : List Event) :
    let matcher := (Matcher.new.run commands).1
    let after := (matcher.accept order out).1
    let fills := (Reference.outcome matcher.book order).1
    matcher.accept order out =
      ((Reference.accept matcher order).1, out ++ (Reference.accept matcher order).2) ∧
    (∀ fill ∈ fills.dropLast, fill.taken = fill.maker.qty) ∧
    (∀ fill ∈ fills, fill.taken = fill.maker.qty →
      after.book.contains fill.maker.id = false) ∧
    (∀ fill ∈ fills, fill.taken ≠ fill.maker.qty →
      (Reference.outcome matcher.book order).2 = Qty.zero ∧
      (after.book.queue fill.maker.side fill.maker.price).head? = some
        { fill.maker.order with qty := fill.maker.qty.saturatingSub fill.taken }) := by
  intro matcher after fills
  have wf : matcher.book.WF := run_new_WF commands
  have counter : matcher.seq.counter.toNat = (Matcher.new.run commands).2.length + 1 :=
    counter_run_new commands fits
  have ordered : SeqOrdered matcher.book matcher.seq.counter.toNat :=
    counter ▸ run_new_seqOrdered fits
  have appended : matcher.accept order out =
      ((matcher.accept order []).1, out ++ (matcher.accept order []).2) := by
    simpa [prepend] using accept_prepend matcher order out []
  have sameBook : after = (matcher.accept order []).1 := by
    simp only [after, appended]
  refine ⟨?_, (accept_follows wf ordered order).exhausted, ?_, ?_⟩
  · rw [appended, accept_eq_reference wf ordered admits]
  · intro fill member
    rw [sameBook]
    exact (accept_makers wf ordered admits member).1
  · intro fill member
    rw [sameBook]
    exact (accept_makers wf ordered admits member).2

/-- Two asks at one price and a market order that exhausts the earlier one. -/
theorem accept_priority_two_asks :
    let first : NewOrder := ⟨.new 1, .sell, .new 5, .limit (.fromRaw 100), .fromNanos 0⟩
    let second : NewOrder := ⟨.new 2, .sell, .new 5, .limit (.fromRaw 100), .fromNanos 0⟩
    let taker : NewOrder := ⟨.new 3, .buy, .new 7, .market, .fromNanos 0⟩
    let matcher := (Matcher.new.run [.new first, .new second]).1
    matcher.Admits taker ∧ (matcher.accept taker []).2 = [
      .accepted (.new 3) (.new 7) (.fromRaw 3),
      .trade (.new 3) (.new 1) (.fromRaw 100) (.new 5) (.fromRaw 4),
      .done (.new 1) Qty.zero .filled (.fromRaw 5),
      .trade (.new 3) (.new 2) (.fromRaw 100) (.new 2) (.fromRaw 6),
      .done (.new 3) Qty.zero .filled (.fromRaw 7)] ∧
    matcher.accept taker [] = Reference.accept matcher taker := by
  intro first second taker matcher
  have fits : (Matcher.new.run [.new first, .new second]).2.length + 1 < 2 ^ 64 := by
    decide
  have admits : matcher.Admits taker := by decide
  exact ⟨admits, by decide, (accept_priority fits admits []).1⟩

/-! ## Once the sequence numbers wrap -/

/-- Orders of quantity zero only use up sequence numbers. -/
theorem run_replicate_zero (matcher : Matcher) (order : NewOrder)
    (zero : order.qty = Qty.zero) (count : Nat) :
    (matcher.run (List.replicate count (.new order))).1 =
      ⟨matcher.book, ⟨matcher.seq.counter + UInt64.ofNat count⟩⟩ := by
  induction count generalizing matcher with
  | zero => simp
  | succ count ih =>
      have step : (matcher.handle (.new order) []).1 =
          ⟨matcher.book, ⟨matcher.seq.counter + 1⟩⟩ := by
        simp [handle, accept, zero, pushDone, SequenceGenerator.next]
      rw [List.replicate_succ, run_cons, ih, step, ofNat_succ, UInt64.add_assoc]

theorem length_run_replicate_zero (matcher : Matcher) (order : NewOrder)
    (zero : order.qty = Qty.zero) (count : Nat) :
    (matcher.run (List.replicate count (.new order))).2.length = count := by
  induction count generalizing matcher with
  | zero => rfl
  | succ count ih =>
      have step : (matcher.handle (.new order) []).2.length = 1 := by
        simp [handle, accept, zero, pushDone]
      rw [List.replicate_succ, run_cons, List.length_append, ih, step, Nat.add_comm]

/-- Cancels of ids that do not rest do nothing at all. -/
theorem run_replicate_cancel {matcher : Matcher} {id : OrderId}
    (absent : matcher.book.index.get? id = none) (count : Nat) :
    matcher.run (List.replicate count (.cancel id)) = (matcher, []) := by
  induction count with
  | zero => rfl
  | succ count ih =>
      have step : matcher.handle (.cancel id) [] = (matcher, []) := by
        simp [handle, cancel, Book.cancel_of_absent absent]
      rw [List.replicate_succ, run_cons, step, ih]
      rfl

/-- After `2 ^ 64 - 2` rejections the last sequence number before the wrap goes to
the first ask and number zero to the second, which the reference then prefers. -/
theorem accept_priority_wrapped :
    let rejected : NewOrder := ⟨.new 9, .buy, Qty.zero, .market, .fromNanos 0⟩
    let first : NewOrder := ⟨.new 1, .sell, .new 1, .limit (.fromRaw 100), .fromNanos 0⟩
    let second : NewOrder := ⟨.new 2, .sell, .new 1, .limit (.fromRaw 100), .fromNanos 0⟩
    let taker : NewOrder := ⟨.new 3, .buy, .new 1, .market, .fromNanos 0⟩
    let matcher := (Matcher.new.run (List.replicate (2 ^ 64 - 2) (.new rejected) ++
      [.new first, .new second])).1
    matcher.Admits taker ∧
      (matcher.accept taker []).2 ≠ (Reference.accept matcher taker).2 := by
  intro rejected first second taker matcher
  have reached : matcher = ((⟨Book.new, ⟨18446744073709551615⟩⟩ : Matcher).run
      [.new first, .new second]).1 := by
    have burnt := run_replicate_zero Matcher.new rejected rfl (2 ^ 64 - 2)
    simp only [matcher, run_append, burnt]
    rfl
  let early : RestingOrder :=
    ⟨.new 1, .sell, .fromRaw 100, .new 1, .fromRaw 18446744073709551615⟩
  let late : RestingOrder := ⟨.new 2, .sell, .fromRaw 100, .new 1, .fromRaw 0⟩
  have rests : matcher.book.iterResting = [early, late] := by
    rw [reached]
    decide
  have preferred : Reference.makers [early, late] taker = [late, early] := by
    have behind : precedes .sell early late = false := by decide
    simp [Reference.makers, List.mergeSort, taker, early, late, behind,
      Side.opposite, admits, OrderKind.limitPrice]
  refine ⟨by rw [reached]; decide, ?_⟩
  rw [Reference.accept, events, outcome, rests, preferred, reached]
  decide

end Matcher

end Bourse
