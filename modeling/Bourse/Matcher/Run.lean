import Bourse.Matcher.Core

/-!
# Runs of the matcher and their event streams

A run feeds commands to one matcher and collects the events in one growing
buffer.  Emission only appends to that buffer, so a run splits at any command,
and every event draws the next sequence number when it is pushed.
-/

namespace Bourse

/-- What a gateway sends to the matcher. -/
inductive Command where
  | new (order : NewOrder)
  | cancel (id : OrderId)
  deriving DecidableEq, Repr

namespace Matcher

/-- Process one command, appending its events to `out`. -/
def handle (matcher : Matcher) (command : Command) (out : List Event) :
    Matcher × List Event :=
  match command with
  | .new order => matcher.accept order out
  | .cancel id => matcher.cancel id out

/-- Process a list of commands, appending all events to `out`. -/
def runFrom (state : Matcher × List Event) (commands : List Command) :
    Matcher × List Event :=
  commands.foldl (fun state command => state.1.handle command state.2) state

/-- Process a list of commands, collecting all events. -/
def run (matcher : Matcher) (commands : List Command) : Matcher × List Event :=
  runFrom (matcher, []) commands

/-! ## The event buffer is only appended to -/

/-- `out` put in front of the buffer of a state. -/
def prepend (out : List Event) (state : Matcher × List Event) : Matcher × List Event :=
  (state.1, out ++ state.2)

theorem pushDone_prepend (matcher : Matcher) (id : OrderId) (leavesQty : Qty)
    (reason : DoneReason) (out tail : List Event) :
    matcher.pushDone id leavesQty reason (out ++ tail) =
      prepend out (matcher.pushDone id leavesQty reason tail) := by
  simp [pushDone, prepend]

theorem pushTrade_prepend (matcher : Matcher) (taker maker : OrderId) (price : Price)
    (qty : Qty) (out tail : List Event) :
    matcher.pushTrade taker maker price qty (out ++ tail) =
      prepend out (matcher.pushTrade taker maker price qty tail) := by
  simp [pushTrade, prepend]

/-- A matching-loop state with `out` in front of its buffer. -/
def Walk.prepend (out : List Event) (walk : Walk) : Walk :=
  { walk with out := out ++ walk.out }

theorem matchBody_prepend (order : NewOrder) (out : List Event) (walk : Walk) :
    matchBody order (walk.prepend out) = (matchBody order walk).map (Walk.prepend out) := by
  simp only [matchBody, Walk.prepend]
  by_cases positive : walk.remaining > Qty.zero
  · simp only [positive, if_true]
    cases walk.matcher.book.best order.side.opposite with
    | none => rfl
    | some price =>
        by_cases crosses : order.crosses price = true
        · simp only [crosses, if_true]
          rcases walk.matcher.book.takeFront order.side.opposite price walk.remaining with
            ⟨book, _ | take⟩
          · rfl
          · by_cases exhausted : take.remaining = Qty.zero <;>
              simp [exhausted, pushTrade_prepend, pushDone_prepend, prepend, Walk.prepend]
        · simp [crosses]
  · simp [positive]

theorem matchLoop_prepend (order : NewOrder) (out : List Event) (walk : Walk) :
    (matchLoop order).run (walk.prepend out) = ((matchLoop order).run walk).prepend out := by
  refine Loop.run_simulation (matchLoop order) (matchLoop order)
    (fun left right => left = right.prepend out) ?_ _ _ rfl
  intro left right equal
  subst equal
  change Option.Rel _ (matchBody order (right.prepend out)) (matchBody order right)
  rw [matchBody_prepend]
  cases matchBody order right with
  | none => exact Option.Rel.none
  | some next => exact Option.Rel.some rfl

theorem settle_prepend (order : NewOrder) (receiveSeq : Sequence) (out : List Event)
    (walk : Walk) :
    settle order receiveSeq (walk.prepend out) =
      prepend out (settle order receiveSeq walk) := by
  simp only [settle, Walk.prepend]
  by_cases filled : walk.remaining = Qty.zero
  · simp only [filled, if_true]
    exact pushDone_prepend ..
  · simp only [filled, if_false]
    cases order.kind with
    | limit price => rfl
    | postOnly price => rfl
    | market => exact pushDone_prepend ..
    | ioc price => exact pushDone_prepend ..
    | fok price => exact pushDone_prepend ..

theorem accept_prepend (matcher : Matcher) (order : NewOrder) (out tail : List Event) :
    matcher.accept order (out ++ tail) = prepend out (matcher.accept order tail) := by
  unfold accept
  split
  · exact pushDone_prepend ..
  · split
    · exact pushDone_prepend ..
    · simp only [List.append_assoc]
      rw [← settle_prepend, ← matchLoop_prepend]
      rfl

theorem cancel_prepend (matcher : Matcher) (id : OrderId) (out tail : List Event) :
    matcher.cancel id (out ++ tail) = prepend out (matcher.cancel id tail) := by
  unfold cancel
  split
  · exact pushDone_prepend ..
  · rfl

theorem handle_prepend (matcher : Matcher) (command : Command) (out tail : List Event) :
    matcher.handle command (out ++ tail) = prepend out (matcher.handle command tail) := by
  cases command with
  | new order => exact accept_prepend ..
  | cancel id => exact cancel_prepend ..

theorem runFrom_prepend (commands : List Command) (state : Matcher × List Event)
    (out : List Event) :
    runFrom (prepend out state) commands = prepend out (runFrom state commands) := by
  induction commands generalizing state with
  | nil => rfl
  | cons command commands ih =>
      have step : (prepend out state).1.handle command (prepend out state).2 =
          prepend out (state.1.handle command state.2) :=
        handle_prepend state.1 command out state.2
      simp only [runFrom, List.foldl_cons] at ih ⊢
      rw [step, ih]

/-! ## Splitting runs -/

@[simp] theorem run_nil (matcher : Matcher) : matcher.run [] = (matcher, []) := rfl

theorem run_append (matcher : Matcher) (commands more : List Command) :
    matcher.run (commands ++ more) =
      (((matcher.run commands).1.run more).1,
        (matcher.run commands).2 ++ ((matcher.run commands).1.run more).2) := by
  have split : matcher.run (commands ++ more) =
      runFrom (prepend (matcher.run commands).2 ((matcher.run commands).1, [])) more := by
    simp [run, runFrom, prepend]
  rw [split, runFrom_prepend]
  rfl

theorem run_singleton (matcher : Matcher) (command : Command) :
    matcher.run [command] = matcher.handle command [] := rfl

theorem run_cons (matcher : Matcher) (command : Command) (commands : List Command) :
    matcher.run (command :: commands) =
      (((matcher.handle command []).1.run commands).1,
        (matcher.handle command []).2 ++ ((matcher.handle command []).1.run commands).2) := by
  rw [← List.singleton_append, run_append, run_singleton]

theorem run_concat (matcher : Matcher) (commands : List Command) (command : Command) :
    matcher.run (commands ++ [command]) =
      (((matcher.run commands).1.handle command []).1,
        (matcher.run commands).2 ++ ((matcher.run commands).1.handle command []).2) := by
  rw [run_append, run_singleton]

/-- What every command preserves holds along every run. -/
theorem run_invariant (invariant : Matcher → Prop)
    (preserved : ∀ matcher command, invariant matcher →
      invariant (matcher.handle command []).1)
    {matcher : Matcher} (start : invariant matcher) (commands : List Command) :
    invariant (matcher.run commands).1 := by
  induction commands generalizing matcher with
  | nil => exact start
  | cons command commands ih =>
      rw [run_cons]
      exact ih (preserved matcher command start)

/-! ## Every event draws the next sequence number -/

/-- The sequence numbers a generator issues in `count` draws. -/
def seqsFrom (counter : UInt64) : Nat → List Sequence
  | 0 => []
  | count + 1 => .fromRaw counter :: seqsFrom (counter + 1) count

theorem seqsFrom_add (counter : UInt64) (count more : Nat) :
    seqsFrom counter (count + more) =
      seqsFrom counter count ++ seqsFrom (counter + UInt64.ofNat count) more := by
  induction count generalizing counter with
  | zero => simp [seqsFrom]
  | succ count ih =>
      rw [Nat.succ_add, seqsFrom, seqsFrom, ih (counter + 1), ofNat_succ,
        UInt64.add_assoc]
      rfl

theorem getElem?_seqsFrom (counter : UInt64) (count pos : Nat) :
    (seqsFrom counter count)[pos]? =
      if pos < count then some (.fromRaw (counter + UInt64.ofNat pos)) else none := by
  induction count generalizing counter pos with
  | zero => simp [seqsFrom]
  | succ count ih =>
      cases pos with
      | zero => simp [seqsFrom]
      | succ pos =>
          rw [seqsFrom, List.getElem?_cons_succ, ih, ofNat_succ,
            UInt64.add_assoc]
          simp

/-- `events` are appended to the buffer, numbered consecutively from the counter,
which ends just behind the last of them. -/
structure Emits (before after : Matcher × List Event) (events : List Event) : Prop where
  appended : after.2 = before.2 ++ events
  numbered : events.map Event.seq = seqsFrom before.1.seq.counter events.length
  counter : after.1.seq.counter = before.1.seq.counter + UInt64.ofNat events.length

theorem Emits.nil {before after : Matcher × List Event} (buffer : after.2 = before.2)
    (seq : after.1.seq = before.1.seq) : Emits before after [] where
  appended := by simp [buffer]
  numbered := rfl
  counter := by simp [seq]

theorem Emits.trans {before middle after : Matcher × List Event}
    {events more : List Event} (first : Emits before middle events)
    (second : Emits middle after more) : Emits before after (events ++ more) where
  appended := by rw [second.appended, first.appended, List.append_assoc]
  numbered := by
    rw [List.map_append, first.numbered, second.numbered, first.counter,
      List.length_append, seqsFrom_add]
  counter := by
    rw [second.counter, first.counter, List.length_append, UInt64.ofNat_add,
      UInt64.add_assoc]

theorem emits_pushDone (matcher : Matcher) (id : OrderId) (leavesQty : Qty)
    (reason : DoneReason) (out : List Event) :
    Emits (matcher, out) (matcher.pushDone id leavesQty reason out)
      [.done id leavesQty reason matcher.peekSeq] :=
  ⟨rfl, rfl, rfl⟩

theorem emits_pushTrade (matcher : Matcher) (taker maker : OrderId) (price : Price)
    (qty : Qty) (out : List Event) :
    Emits (matcher, out) (matcher.pushTrade taker maker price qty out)
      [.trade taker maker price qty matcher.peekSeq] :=
  ⟨rfl, rfl, rfl⟩

/-- Only the counter and the buffer of the initial state matter. -/
theorem Emits.of_book {matcher : Matcher} {out : List Event}
    {after : Matcher × List Event} {events : List Event} (book : Book)
    (emits : Emits ({ matcher with book }, out) after events) :
    Emits (matcher, out) after events :=
  ⟨emits.appended, emits.numbered, emits.counter⟩

theorem emits_matchBody {order : NewOrder} {walk next : Walk}
    (step : matchBody order walk = some next) :
    ∃ events, Emits (walk.matcher, walk.out) (next.matcher, next.out) events := by
  rcases matchBody_cases step with ⟨price, front, rest, -, -, -, -, ⟨-, rfl⟩ | ⟨-, rfl⟩⟩
  · exact ⟨_, (Emits.of_book _ (emits_pushTrade ..)).trans (emits_pushDone ..)⟩
  · exact ⟨_, Emits.of_book _ (emits_pushTrade ..)⟩

theorem emits_matchLoop (order : NewOrder) (walk : Walk) :
    ∃ events, Emits (walk.matcher, walk.out)
      (((matchLoop order).run walk).matcher, ((matchLoop order).run walk).out) events := by
  refine (matchLoop order).run_invariant (fun current =>
    ∃ events, Emits (walk.matcher, walk.out) (current.matcher, current.out) events)
    ?_ walk ⟨[], Emits.nil rfl rfl⟩
  intro current next step emitted
  rcases emitted with ⟨events, emits⟩
  rcases emits_matchBody step with ⟨more, emitsMore⟩
  exact ⟨_, emits.trans emitsMore⟩

theorem emits_settle (order : NewOrder) (receiveSeq : Sequence) (walk : Walk) :
    ∃ events, Emits (walk.matcher, walk.out) (settle order receiveSeq walk) events := by
  unfold settle
  split
  · exact ⟨_, emits_pushDone ..⟩
  · split
    · exact ⟨_, Emits.nil rfl rfl⟩
    · exact ⟨_, Emits.nil rfl rfl⟩
    · exact ⟨_, emits_pushDone ..⟩
    · exact ⟨_, emits_pushDone ..⟩
    · exact ⟨_, emits_pushDone ..⟩

theorem emits_accept (matcher : Matcher) (order : NewOrder) (out : List Event) :
    ∃ events, Emits (matcher, out) (matcher.accept order out) events := by
  unfold accept
  split
  · exact ⟨_, emits_pushDone ..⟩
  · split
    · exact ⟨_, emits_pushDone ..⟩
    · have received : Emits (matcher, out)
          ({ matcher with seq := matcher.seq.next.2 },
            out ++ [.accepted order.id order.qty matcher.seq.next.1])
          [.accepted order.id order.qty matcher.seq.next.1] := ⟨rfl, rfl, rfl⟩
      rcases emits_matchLoop order
        ⟨{ matcher with seq := matcher.seq.next.2 },
          out ++ [.accepted order.id order.qty matcher.seq.next.1], order.qty⟩ with
        ⟨fills, emitsFills⟩
      rcases emits_settle order matcher.seq.next.1 _ with ⟨final, emitsFinal⟩
      exact ⟨_, (received.trans emitsFills).trans emitsFinal⟩

theorem emits_cancel (matcher : Matcher) (id : OrderId) (out : List Event) :
    ∃ events, Emits (matcher, out) (matcher.cancel id out) events := by
  unfold cancel
  split
  · exact ⟨_, Emits.of_book _ (emits_pushDone ..)⟩
  · exact ⟨_, Emits.nil rfl rfl⟩

theorem emits_handle (matcher : Matcher) (command : Command) (out : List Event) :
    ∃ events, Emits (matcher, out) (matcher.handle command out) events := by
  cases command with
  | new order => exact emits_accept ..
  | cancel id => exact emits_cancel ..

theorem emits_runFrom (commands : List Command) (state : Matcher × List Event) :
    ∃ events, Emits state (runFrom state commands) events := by
  induction commands generalizing state with
  | nil => exact ⟨[], Emits.nil rfl rfl⟩
  | cons command commands ih =>
      rcases emits_handle state.1 command state.2 with ⟨events, emits⟩
      rcases ih (state.1.handle command state.2) with ⟨more, emitsMore⟩
      exact ⟨_, emits.trans emitsMore⟩

/-- A run numbers its whole event stream from the initial counter. -/
theorem emits_run (matcher : Matcher) (commands : List Command) :
    Emits (matcher, []) (matcher.run commands) (matcher.run commands).2 := by
  rcases emits_runFrom commands (matcher, []) with ⟨events, emits⟩
  have stream : (matcher.run commands).2 = events := by
    simpa [run] using emits.appended
  rw [stream]
  exact emits

/-- The events of a run, in the wrapping arithmetic of the counter. -/
theorem seq_of_getElem? {matcher : Matcher} {commands : List Command} {pos : Nat}
    {event : Event} (found : (matcher.run commands).2[pos]? = some event) :
    event.seq = .fromRaw (matcher.seq.counter + UInt64.ofNat pos) := by
  rcases List.getElem?_eq_some_iff.mp found with ⟨bound, -⟩
  have numbered := congrArg (fun seqs => seqs[pos]?) (emits_run matcher commands).numbered
  simp only [List.getElem?_map, found, getElem?_seqsFrom, bound, if_true,
    Option.map_some] at numbered
  exact Option.some.inj numbered

/-- Where a matcher with next sequence number `start` can come from. -/
def StartsAt (matcher : Matcher) (start : Sequence) : Prop :=
  matcher = Matcher.new ∧ start = .fromRaw 1 ∨
    ∃ book, matcher = withBook book start ∧ start > Sequence.zero

theorem StartsAt.counter_eq {matcher : Matcher} {start : Sequence}
    (origin : matcher.StartsAt start) : matcher.seq.counter = start.get := by
  rcases origin with ⟨rfl, rfl⟩ | ⟨book, rfl, positive⟩
  · rfl
  · have nonzero : start.get ≠ 0 := by
      intro zero
      have := Sequence.lt_iff.mp positive
      rw [zero] at this
      exact absurd this (by decide)
    simp [withBook, SequenceGenerator.startingAt, nonzero]

/-- The event stream of every run carries consecutive sequence numbers from
`start`, across calls and within each of them. -/
theorem run_consecutive {matcher : Matcher} {start : Sequence}
    (origin : matcher.StartsAt start) (commands : List Command) :
    let after := (matcher.run commands).1
    let stream := (matcher.run commands).2
    (∀ (pos : Nat) (event : Event), stream[pos]? = some event →
      event.seq = .fromRaw (start.get + UInt64.ofNat pos)) ∧
    after.peekSeq = .fromRaw (start.get + UInt64.ofNat stream.length) ∧
    (start.get.toNat + stream.length ≤ 2 ^ 64 →
      (∀ (pos : Nat) (event : Event), stream[pos]? = some event →
        event.seq.get.toNat = start.get.toNat + pos) ∧
      stream.Pairwise fun earlier later => earlier.seq < later.seq) ∧
    (start.get.toNat + stream.length < 2 ^ 64 →
      after.peekSeq.get.toNat = start.get.toNat + stream.length) ∧
    (∀ command, matcher.run (commands ++ [command]) =
      ((after.handle command []).1, stream ++ (after.handle command []).2)) ∧
    (∀ id, after.book.contains id = false →
      ∀ out, after.cancel id out = (after, out)) := by
  intro after stream
  have counter := origin.counter_eq
  have numbered : ∀ (pos : Nat) (event : Event), stream[pos]? = some event →
      event.seq = .fromRaw (start.get + UInt64.ofNat pos) := by
    intro pos event found
    rw [← counter]
    exact seq_of_getElem? found
  have peek : after.peekSeq = .fromRaw (start.get + UInt64.ofNat stream.length) := by
    rw [← counter]
    exact congrArg Sequence.fromRaw (emits_run matcher commands).counter
  refine ⟨numbered, peek, ?_, ?_, run_concat matcher commands, ?_⟩
  · intro fits
    have exact : ∀ (pos : Nat) (event : Event), stream[pos]? = some event →
        event.seq.get.toNat = start.get.toNat + pos := by
      intro pos event found
      rcases List.getElem?_eq_some_iff.mp found with ⟨bound, -⟩
      rw [numbered pos event found]
      exact toNat_add_ofNat (by omega)
    refine ⟨exact, List.pairwise_iff_getElem.mpr ?_⟩
    intro earlier later earlierBound laterBound less
    rw [Sequence.lt_iff, exact earlier _ (List.getElem?_eq_getElem earlierBound),
      exact later _ (List.getElem?_eq_getElem laterBound)]
    omega
  · intro fits
    rw [peek]
    exact toNat_add_ofNat fits
  · intro id absent out
    have missing : after.book.index.get? id = none :=
      OrderedMap.containsKey_eq_false.mp absent
    simp [cancel, Book.cancel_of_absent missing]

/-- A resumed matcher on an order that rests, one that trades with it and rests in part, the
cancel of the remainder, and a cancel that it ignores. -/
theorem run_consecutive_resumed :
    let ask : NewOrder := ⟨.new 1, .sell, .new 5, .limit (.fromRaw 100), .fromNanos 0⟩
    let bid : NewOrder := ⟨.new 2, .buy, .new 7, .limit (.fromRaw 100), .fromNanos 0⟩
    let commands : List Command := [.new ask, .new bid, .cancel (.new 2), .cancel (.new 1)]
    let after := (withBook Book.new (.fromRaw 5)).run commands
    after.2.length = 5 ∧ after.1.peekSeq = .fromRaw 10 ∧
      ∀ (pos : Nat) (event : Event), after.2[pos]? = some event →
        event.seq.get.toNat = 5 + pos := by
  intro ask bid commands after
  have fits : (Sequence.fromRaw 5).get.toNat + after.2.length ≤ 2 ^ 64 := by decide
  have origin : (withBook Book.new (.fromRaw 5)).StartsAt (.fromRaw 5) :=
    Or.inr ⟨Book.new, rfl, by decide⟩
  rcases run_consecutive origin commands with ⟨-, peek, numbered, -⟩
  exact ⟨by decide, peek.trans (by decide), (numbered fits).1⟩

end Matcher

end Bourse
