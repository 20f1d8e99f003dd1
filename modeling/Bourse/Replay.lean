import Bourse.Data.Crc32c
import Bourse.Matcher.Priority
import Bourse.Snapshot.Codec
import Bourse.Wal.Writer

/-!
# Crash recovery

The recovery of `bourse-replay/src/main.rs`, and the live run that it recovers from:
every command is appended to the log before the matcher sees it.  Recovery from a
snapshot and a log that was cut off anywhere rejoins the live run.
-/

namespace Bourse

namespace Replay

open Wal Matcher

variable (crc32c : Bytes → UInt32)

/-! ## The live side -/

/-- An engine that logs to a single segment. -/
structure Live where
  writer : WalWriter
  matcher : Matcher
  events : List Event

namespace Live

def start : Live := ⟨WalWriter.create, Matcher.new, []⟩

/-- Log a record, then apply it. -/
def step (live : Live) (record : WalRecord) : Except WalError Live := do
  let (_, writer) ← live.writer.append crc32c record
  let (matcher, events) := live.matcher.handle record.command live.events
  return ⟨writer, matcher, events⟩

def run (records : List WalRecord) : Except WalError Live :=
  records.foldlM (step crc32c) start

/-- The snapshot of the current state: the marker is the number of the last record
appended. -/
def snapshot (live : Live) : Bytes :=
  Snapshot.write live.matcher.book live.matcher.peekSeq
    (.fromRaw (live.writer.nextSeq - 1))

end Live

/-! ## Recovery -/

/-- The `expect`s of the recovery that can fail. -/
inductive RecoveryError where
  | snapshot (error : SnapshotError)
  | wal (error : WalError)
  deriving DecidableEq, Repr

/-- What the recovery keeps while it replays. -/
structure Recovery where
  matcher : Matcher
  events : List Event
  replayed : Nat
  lastSeq : Sequence

/-- The matcher to start from and the marker up to which records are skipped. -/
def load (snapshot : Option Bytes) : Except SnapshotError (Matcher × Sequence) :=
  match snapshot with
  | some file => do
      let (book, matcherSeq) ← Snapshot.read file
      let walMarker ← Snapshot.readWalMarker file
      return (Matcher.withBook book matcherSeq, walMarker)
  | none => .ok (Matcher.new, Sequence.zero)

/-- The callback that `for_each_record` runs on every record. -/
def replayRecord (skipMarker : Sequence) (recovery : Recovery)
    (entry : Sequence × WalRecord) : Recovery :=
  if entry.1 ≤ skipMarker then recovery
  else
    let (matcher, events) := match entry.2 with
      | .newOrder order => recovery.matcher.accept order recovery.events
      | .cancel id => recovery.matcher.cancel id recovery.events
    ⟨matcher, events, recovery.replayed + 1, entry.1⟩

/-- Recovery from an optional snapshot file and a WAL file. -/
def recover (snapshot : Option Bytes) (wal : Bytes) : Except RecoveryError Recovery :=
  match load snapshot with
  | .error error => .error (.snapshot error)
  | .ok (matcher, skipMarker) =>
      let (delivered, result) := forEachRecord crc32c wal
      let recovery := delivered.foldl (replayRecord skipMarker)
        ⟨matcher, [], 0, Sequence.zero⟩
      match result with
      | .error error => .error (.wal error)
      | .ok () => .ok recovery

/-! ## What a live run leaves behind -/

/-- The state of a live run after the given records. -/
structure Live.After (records : List WalRecord) (live : Live) : Prop where
  single : live.writer.rotation = none
  bytes : live.writer.file.bytes = segmentHeader ++ frames crc32c (numbered 1 records)
  nextSeq : live.writer.nextSeq = 1 + UInt64.ofNat records.length
  outcome : (live.matcher, live.events) = Matcher.new.run (records.map WalRecord.command)

theorem Live.After.step {records : List WalRecord} {live : Live}
    (after : live.After crc32c records) (record : WalRecord) :
    ∃ next, live.step crc32c record = .ok next ∧
      next.After crc32c (records ++ [record]) := by
  let handled := live.matcher.handle record.command live.events
  refine ⟨⟨live.writer.written crc32c live.writer.nextSeq record, handled.1, handled.2⟩,
    ?_, ?_, ?_, ?_, ?_⟩
  · rw [Live.step, append_single crc32c after.single]
    rfl
  · exact after.single
  · simp only [WalWriter.written, after.bytes, numbered_append, ← after.nextSeq]
    simp [frames, numbered]
  · rw [List.length_append, List.length_singleton, ofNat_succ]
    simp only [WalWriter.written, after.nextSeq]
    rw [UInt64.add_assoc, UInt64.add_comm 1 (UInt64.ofNat _)]
  · have outcome := after.outcome
    simp only [Matcher.run, Matcher.runFrom] at outcome
    simp only [Matcher.run, Matcher.runFrom, List.map_append, List.foldl_append, ← outcome]
    rfl

/-- Logging to a single segment never fails. -/
theorem Live.run_after (records : List WalRecord) :
    ∃ live, Live.run crc32c records = .ok live ∧ live.After crc32c records := by
  induction records using List.reverseRecOn with
  | nil =>
      refine ⟨Live.start, rfl, rfl, ?_, rfl, rfl⟩
      exact (List.append_nil segmentHeader).symm
  | append_singleton records record ih =>
      rcases ih with ⟨live, ran, after⟩
      rcases after.step crc32c record with ⟨next, stepped, nextAfter⟩
      refine ⟨next, ?_, nextAfter⟩
      rw [Live.run, List.foldlM_append, ← Live.run, ran]
      simp [stepped]

/-! ## Skipping and replaying -/

theorem replay_skipped {marker : Sequence} {delivered : List (Sequence × WalRecord)}
    (skipped : ∀ entry ∈ delivered, entry.1 ≤ marker) (recovery : Recovery) :
    delivered.foldl (replayRecord marker) recovery = recovery := by
  induction delivered with
  | nil => rfl
  | cons entry delivered ih =>
      have skip : replayRecord marker recovery entry = recovery :=
        if_pos (skipped entry List.mem_cons_self)
      rw [List.foldl_cons, skip]
      exact ih fun later member => skipped later (List.mem_cons_of_mem _ member)

theorem replay_applied {marker : Sequence} {delivered : List (Sequence × WalRecord)}
    (applied : ∀ entry ∈ delivered, marker < entry.1) (recovery : Recovery) :
    let final := delivered.foldl (replayRecord marker) recovery
    (final.matcher, final.events) = runFrom (recovery.matcher, recovery.events)
      (delivered.map fun entry => entry.2.command) := by
  induction delivered generalizing recovery with
  | nil => rfl
  | cons entry delivered ih =>
      have step : ((replayRecord marker recovery entry).matcher,
          (replayRecord marker recovery entry).events) =
            recovery.matcher.handle entry.2.command recovery.events := by
        rw [replayRecord, if_neg (not_le.mpr (applied entry List.mem_cons_self))]
        cases entry.2 <;> rfl
      have rest := ih (fun later member => applied later (List.mem_cons_of_mem _ member))
        (replayRecord marker recovery entry)
      simp only [step] at rest
      exact rest

section Numbered

variable {records : List WalRecord} {count : Nat} {entry : UInt64 × WalRecord}
variable (fits : records.length < 2 ^ 64)

include fits in
theorem toNat_le_of_mem_take (member : entry ∈ numbered 1 (records.take count)) :
    entry.1.toNat ≤ count := by
  have short : (records.take count).length ≤ records.length := List.length_take_le' ..
  have few : (records.take count).length ≤ count := List.length_take_le ..
  have bounds := toNat_of_mem_numbered (by rw [UInt64.toNat_one]; omega) member
  rw [UInt64.toNat_one] at bounds
  omega

include fits in
theorem lt_toNat_of_mem_drop (member : entry ∈
      numbered (1 + UInt64.ofNat (records.take count).length) (records.drop count)) :
    count < entry.1.toNat := by
  rcases Nat.lt_or_ge count records.length with within | beyond
  · rw [List.length_take_of_le (Nat.le_of_lt within)] at member
    have start : (1 + UInt64.ofNat count).toNat = 1 + count :=
      toNat_add_ofNat (by rw [UInt64.toNat_one]; omega)
    have bounds := toNat_of_mem_numbered (by rw [start, List.length_drop]; omega) member
    rw [start] at bounds
    omega
  · rw [List.drop_eq_nil_of_le beyond] at member
    cases member

include fits in
/-- Replaying numbered records behind a marker of `count` runs those after the first
`count`. -/
theorem replay_numbered (countFits : count < 2 ^ 64) (matcher : Matcher) :
    let final := ((numbered 1 records).map entryOf).foldl
      (replayRecord (.fromRaw (UInt64.ofNat count))) ⟨matcher, [], 0, Sequence.zero⟩
    (final.matcher, final.events) =
      matcher.run ((records.drop count).map WalRecord.command) := by
  have countEq : (UInt64.ofNat count).toNat = count := by
    rw [UInt64.toNat_ofNat', Nat.mod_eq_of_lt countFits]
  let later := numbered (1 + UInt64.ofNat (records.take count).length) (records.drop count)
  have split : numbered 1 records = numbered 1 (records.take count) ++ later := by
    rw [← numbered_append, List.take_append_drop]
  have skipped : ∀ entry ∈ (numbered 1 (records.take count)).map entryOf,
      entry.1 ≤ .fromRaw (UInt64.ofNat count) := by
    intro entry member
    rcases List.mem_map.mp member with ⟨origin, inside, rfl⟩
    rw [Sequence.le_iff, countEq]
    exact toNat_le_of_mem_take fits inside
  have applied : ∀ entry ∈ later.map entryOf, .fromRaw (UInt64.ofNat count) < entry.1 := by
    intro entry member
    rcases List.mem_map.mp member with ⟨origin, inside, rfl⟩
    rw [Sequence.lt_iff, countEq]
    exact lt_toNat_of_mem_drop fits inside
  have commands : (later.map entryOf).map (fun entry => entry.2.command) =
      (records.drop count).map WalRecord.command := by
    rw [← map_snd_numbered (1 + UInt64.ofNat (records.take count).length)
      (records.drop count), List.map_map, List.map_map]
    rfl
  rw [split, List.map_append, List.foldl_append, replay_skipped skipped, Matcher.run,
    ← commands]
  exact replay_applied applied _

end Numbered

/-! ## Recovery rejoins the live run -/

theorem withBook_peekSeq {matcher : Matcher} (running : matcher.seq.counter ≠ 0) :
    Matcher.withBook matcher.book matcher.peekSeq = matcher := by
  rw [Matcher.withBook, SequenceGenerator.startingAt, Matcher.peekSeq,
    SequenceGenerator.peek, if_neg running]

/-- A snapshot of a live run that has not wrapped loads the live matcher. -/
theorem load_snapshot {records : List WalRecord} {live : Live}
    (after : live.After crc32c records)
    (fits : (Matcher.new.run (records.map WalRecord.command)).2.length + 1 < 2 ^ 64) :
    load (some live.snapshot) =
      .ok (live.matcher, .fromRaw (UInt64.ofNat records.length)) := by
  have matcherEq : live.matcher = (Matcher.new.run (records.map WalRecord.command)).1 :=
    congrArg Prod.fst after.outcome
  have running : live.matcher.seq.counter ≠ 0 := by
    intro zero
    have counter := counter_run_new _ fits
    rw [← matcherEq, zero] at counter
    exact absurd counter (Nat.succ_ne_zero _).symm
  have wf : live.matcher.book.WF := matcherEq ▸ run_new_WF _
  have few : live.matcher.book.len < 2 ^ 64 := by
    have bounded := run_len Matcher.new (records.map WalRecord.command)
    rw [← matcherEq] at bounded
    have empty : Matcher.new.book.len = 0 := rfl
    omega
  have marker : live.writer.nextSeq - 1 = UInt64.ofNat records.length := by
    rw [after.nextSeq, UInt64.add_comm, UInt64.add_sub_cancel]
  rw [load, Live.snapshot, marker]
  simp only [Snapshot.read_write wf few, Snapshot.readWalMarker_write, ok_bind,
    withBook_peekSeq running]
  rfl

/-- What recovery does with a log whose first `survived` records are complete. -/
theorem recover_eq {records : List WalRecord} {count cut : Nat} {atSnapshot atCrash : Live}
    (early : atSnapshot.After crc32c (records.take count))
    (full : atCrash.After crc32c records)
    (within : count ≤ records.length) (header : 8 ≤ cut) (logged : records.length < 2 ^ 64)
    (fits : (Matcher.new.run ((records.take count).map WalRecord.command)).2.length + 1 <
      2 ^ 64) :
    let survived := complete crc32c (numbered 1 records) (cut - 8)
    ∃ recovered,
      recover crc32c (some atSnapshot.snapshot) (atCrash.writer.file.bytes.take cut) =
        .ok recovered ∧
      (recovered.matcher, recovered.events) = atSnapshot.matcher.run
        (((records.take survived).drop count).map WalRecord.command) := by
  intro survived
  have loaded := load_snapshot crc32c early fits
  rw [List.length_take_of_le within] at loaded
  have delivered := forEachRecord_take crc32c (numbered 1 records) (cut - 8)
  rw [Nat.add_sub_cancel' header, ← full.bytes, take_numbered] at delivered
  have short : (records.take survived).length < 2 ^ 64 :=
    lt_of_le_of_lt (List.length_take_le' ..) logged
  refine ⟨_, ?_, replay_numbered short (lt_of_le_of_lt within logged) atSnapshot.matcher⟩
  rw [recover, loaded, delivered]

theorem take_max {α : Type} (list : List α) (count survived : Nat) :
    list.take (max count survived) = list.take count ++ (list.take survived).drop count := by
  rcases Nat.le_total count survived with ahead | behind
  · have front : (list.take survived).take count = list.take count := by
      rw [List.take_take, Nat.min_eq_left ahead]
    rw [Nat.max_eq_right ahead, ← front, List.take_append_drop]
  · rw [Nat.max_eq_left behind, List.drop_eq_nil_of_le, List.append_nil]
    exact (List.length_take_le ..).trans behind

/-- Crash recovery is exact. The snapshot is taken after `count` records and the log
is cut at byte `cut`: recovery succeeds, its matcher is that of a live run that
stops after the snapshot or after the last complete record, whichever is later, and
it emits the events of that run behind the snapshot. -/
theorem recover_exact {records : List WalRecord} {count cut : Nat}
    (within : count ≤ records.length) (header : 8 ≤ cut) (logged : records.length < 2 ^ 64)
    (fits : (Matcher.new.run ((records.take count).map WalRecord.command)).2.length + 1 <
      2 ^ 64) :
    let survived := complete crc32c (numbered 1 records) (cut - 8)
    ∃ atSnapshot atCrash rejoined recovered,
      Live.run crc32c (records.take count) = .ok atSnapshot ∧
      Live.run crc32c records = .ok atCrash ∧
      Live.run crc32c (records.take (max count survived)) = .ok rejoined ∧
      recover crc32c (some atSnapshot.snapshot) (atCrash.writer.file.bytes.take cut) =
        .ok recovered ∧
      recovered.matcher = rejoined.matcher ∧
      rejoined.events = atSnapshot.events ++ recovered.events := by
  intro survived
  rcases Live.run_after crc32c (records.take count) with ⟨atSnapshot, ranSnapshot, early⟩
  rcases Live.run_after crc32c records with ⟨atCrash, ranCrash, full⟩
  rcases Live.run_after crc32c (records.take (max count survived)) with
    ⟨rejoined, ranRejoined, late⟩
  rcases recover_eq crc32c early full within header logged fits with
    ⟨recovered, succeeds, replayed⟩
  have outcome := late.outcome
  rw [take_max, List.map_append, run_append, ← early.outcome, ← replayed] at outcome
  exact ⟨atSnapshot, atCrash, rejoined, recovered, ranSnapshot, ranCrash, ranRejoined,
    succeeds, (congrArg Prod.fst outcome).symm, congrArg Prod.snd outcome⟩

/-- A snapshot after the first of three records, and a log cut inside the third. -/
theorem recover_exact_torn :
    let ask : NewOrder := ⟨.new 1, .sell, .new 5, .limit (.fromRaw 100), .fromNanos 0⟩
    let bid : NewOrder := ⟨.new 2, .buy, .new 3, .market, .fromNanos 0⟩
    let records : List WalRecord := [.newOrder ask, .newOrder bid, .cancel (.new 1)]
    complete Crc32c.checksum (numbered 1 records) (114 - 8) = 2 ∧
    ∃ atSnapshot atCrash rejoined recovered,
      Live.run Crc32c.checksum (records.take 1) = .ok atSnapshot ∧
      Live.run Crc32c.checksum records = .ok atCrash ∧
      Live.run Crc32c.checksum (records.take 2) = .ok rejoined ∧
      recover Crc32c.checksum (some atSnapshot.snapshot)
        (atCrash.writer.file.bytes.take 114) = .ok recovered ∧
      recovered.matcher = rejoined.matcher ∧
      rejoined.events = atSnapshot.events ++ recovered.events := by
  intro ask bid records
  have survived : complete Crc32c.checksum (numbered 1 records) (114 - 8) = 2 := by
    decide +kernel
  have exact := recover_exact Crc32c.checksum (show 1 ≤ records.length by decide)
    (show 8 ≤ 114 by decide) (by decide) (by decide)
  rw [survived] at exact
  exact ⟨survived, exact⟩

/-! ## Once a counter wraps -/

/-- Recovery does not restore a sequence counter that has just wrapped: the snapshot
holds the sentinel `0`, and the generator starts at `1` again. -/
theorem recover_wrapped_events (order : NewOrder) (zero : order.qty = Qty.zero) {count : Nat}
    (wraps : 1 + UInt64.ofNat count = 0) :
    ∃ live recovered,
      Live.run crc32c (List.replicate count (.newOrder order)) = .ok live ∧
      live.events.length = count ∧
      recover crc32c (some live.snapshot) (live.writer.file.bytes.take 8) =
        .ok recovered ∧
      recovered.matcher.peekSeq ≠ live.matcher.peekSeq := by
  rcases Live.run_after crc32c (List.replicate count (.newOrder order)) with
    ⟨live, ran, after⟩
  have outcome := after.outcome
  rw [List.map_replicate, WalRecord.command] at outcome
  have matcherEq : live.matcher = ⟨Book.new, ⟨0⟩⟩ := by
    rw [← wraps]
    exact (congrArg Prod.fst outcome).trans (run_replicate_zero Matcher.new order zero count)
  have emitted : live.events.length = count := by
    rw [← length_run_replicate_zero Matcher.new order zero count, ← outcome]
  have loaded : load (some live.snapshot) =
      .ok (Matcher.new, .fromRaw (live.writer.nextSeq - 1)) := by
    rw [load, Live.snapshot, matcherEq]
    simp only [Snapshot.read_write Book.WF.new (show Book.new.len < 2 ^ 64 by decide),
      Snapshot.readWalMarker_write, ok_bind]
    rfl
  refine ⟨live, ⟨Matcher.new, [], 0, Sequence.zero⟩, ran, emitted, ?_, ?_⟩
  · rw [recover, loaded, after.bytes, forEachRecord_header]
    rfl
  · rw [matcherEq]
    decide

/-- Cancels of ids that do not rest leave the recovered matcher alone. -/
theorem replay_cancels {marker : Sequence} {id : OrderId} {recovery : Recovery}
    (absent : recovery.matcher.book.index.get? id = none)
    {delivered : List (Sequence × WalRecord)}
    (cancels : ∀ entry ∈ delivered, entry.2 = .cancel id) :
    (delivered.foldl (replayRecord marker) recovery).matcher = recovery.matcher := by
  induction delivered generalizing recovery with
  | nil => rfl
  | cons entry delivered ih =>
      have step : (replayRecord marker recovery entry).matcher = recovery.matcher := by
        rw [replayRecord, cancels entry List.mem_cons_self]
        split
        · rfl
        · simp [Matcher.cancel, Book.cancel_of_absent absent]
      rw [List.foldl_cons, ih, step]
      · rw [step]
        exact absent
      · intro later member
        exact cancels later (List.mem_cons_of_mem _ member)

/-- Recovery skips a record whose `wal_seq` has wrapped to `0`. -/
theorem recover_wrapped_records (order : NewOrder) (zero : order.qty = Qty.zero)
    (id : OrderId) {count : Nat} (wraps : 1 + UInt64.ofNat count = 0) :
    ∃ live recovered,
      Live.run crc32c (List.replicate count (.cancel id) ++ [.newOrder order]) = .ok live ∧
      live.events.length = 1 ∧
      recover crc32c (some Live.start.snapshot) live.writer.file.bytes =
        .ok recovered ∧
      recovered.matcher.peekSeq ≠ live.matcher.peekSeq := by
  let records : List WalRecord := List.replicate count (.cancel id) ++ [.newOrder order]
  rcases Live.run_after crc32c records with ⟨live, ran, after⟩
  have outcome : (live.matcher, live.events) = Matcher.new.handle (.new order) [] := by
    rw [after.outcome, List.map_append, List.map_replicate, run_append]
    simp only [WalRecord.command, List.map_cons, List.map_nil,
      run_replicate_cancel (show Matcher.new.book.index.get? id = none from rfl),
      run_singleton, List.nil_append]
  have rejected : Matcher.new.handle (.new order) [] =
      (⟨Book.new, ⟨2⟩⟩, [.done order.id order.qty .rejected (.fromRaw 1)]) := by
    simp [Matcher.handle, Matcher.accept, zero]
    rfl
  rw [rejected] at outcome
  have loaded : load (some Live.start.snapshot) = .ok (Matcher.new, .fromRaw 0) := by
    decide
  have log : numbered 1 records =
      numbered 1 (List.replicate count (.cancel id)) ++ [(0, .newOrder order)] := by
    rw [numbered_append, List.length_replicate, wraps]
    rfl
  have cancels : ∀ entry ∈ (numbered 1 (List.replicate count (.cancel id))).map entryOf,
      entry.2 = .cancel id := by
    intro entry member
    rcases List.mem_map.mp member with ⟨origin, inside, rfl⟩
    have recorded := List.mem_map_of_mem (f := Prod.snd) inside
    rw [map_snd_numbered] at recorded
    exact List.eq_of_mem_replicate recorded
  have skipped : ∀ recovery, replayRecord (.fromRaw 0) recovery
      (entryOf (0, .newOrder order)) = recovery := fun recovery => if_pos (le_refl _)
  let recovered := ((numbered 1 records).map entryOf).foldl (replayRecord (.fromRaw 0))
    ⟨Matcher.new, [], 0, Sequence.zero⟩
  have untouched : recovered.matcher = Matcher.new := by
    simp only [recovered, log, List.map_append, List.foldl_append, List.map_cons,
      List.map_nil, List.foldl_cons, List.foldl_nil, skipped]
    exact replay_cancels rfl cancels
  have emitted : live.events.length = 1 := congrArg List.length (congrArg Prod.snd outcome)
  have matcherEq : live.matcher = ⟨Book.new, ⟨2⟩⟩ := congrArg Prod.fst outcome
  refine ⟨live, recovered, ran, emitted, ?_, ?_⟩
  · rw [recover, loaded, after.bytes, forEachRecord_frames]
  · rw [untouched, matcherEq]
    decide

/-- With `2 ^ 64 - 1` events the sequence number that comes next has wrapped, and with
`2 ^ 64` records the last `wal_seq` has. -/
theorem recover_exact_wrapped :
    let rejected : NewOrder := ⟨.new 9, .buy, Qty.zero, .market, .fromNanos 0⟩
    (∃ live recovered,
      Live.run Crc32c.checksum (List.replicate (2 ^ 64 - 1) (.newOrder rejected)) =
        .ok live ∧
      live.events.length < 2 ^ 64 ∧
      recover Crc32c.checksum (some live.snapshot) (live.writer.file.bytes.take 8) =
        .ok recovered ∧
      recovered.matcher.peekSeq ≠ live.matcher.peekSeq) ∧
    ∃ live recovered,
      Live.run Crc32c.checksum (List.replicate (2 ^ 64 - 1) (.cancel (.new 1)) ++
        [.newOrder rejected]) = .ok live ∧
      live.events.length < 2 ^ 64 ∧
      recover Crc32c.checksum (some Live.start.snapshot) live.writer.file.bytes =
        .ok recovered ∧
      recovered.matcher.peekSeq ≠ live.matcher.peekSeq := by
  intro rejected
  have wraps : 1 + UInt64.ofNat (2 ^ 64 - 1) = 0 := by decide
  constructor
  · rcases recover_wrapped_events Crc32c.checksum rejected rfl wraps with
      ⟨live, recovered, ran, emitted, succeeds, differs⟩
    exact ⟨live, recovered, ran, emitted ▸ by decide, succeeds, differs⟩
  · rcases recover_wrapped_records Crc32c.checksum rejected rfl (.new 1) wraps with
      ⟨live, recovered, ran, emitted, succeeds, differs⟩
    exact ⟨live, recovered, ran, emitted ▸ by decide, succeeds, differs⟩

end Replay

end Bourse
