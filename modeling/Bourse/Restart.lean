import Bourse.Data.Replacing
import Bourse.Replay

/-!
# Restarts

A live engine logs every command to one segment before it applies it, commits the log now and
then, and now and then replaces its snapshot, which may fail.  Then the machine stops.  The
recovery of `bourse-replay` starts from what the crash has left of the snapshot and of the log.
-/

namespace Bourse

namespace Restart

open Wal Matcher Replacing Replay

variable (crc32c : Bytes → UInt32)

/-! ## The engine until the crash -/

/-- The engine and the files on the path of its snapshot. -/
structure Running where
  live : Live
  disk : Disk UInt8

/-- What the engine does. A snapshot reaches its file in chunks of some sizes, and the call
may fail after some of its operations. -/
inductive Move where
  | handle (record : WalRecord)
  | commit
  | save (sizes : List Nat) (removes : Bool) (fails : Option Nat)
  deriving DecidableEq

/-- How a call of `snapshot::write` ends. -/
def ending : Option Nat → Ending
  | none => .returned
  | some acts => .failed acts

namespace Running

def start : Running := ⟨Live.start, Disk.empty⟩

def step (running : Running) : Move → Except WalError Running
  | .handle record => do
      let live ← running.live.step crc32c record
      return { running with live }
  | .commit =>
      .ok { running with live := { running.live with writer := running.live.writer.commit } }
  | .save sizes removes fails =>
      let chunks := chunked sizes running.live.snapshot
      .ok { running with disk := Attempt.run running.disk ⟨chunks, removes, ending fails⟩ }

def run (moves : List Move) : Except WalError Running :=
  moves.foldlM (step crc32c) start

end Running

/-- The record that a move logs and applies. -/
def Move.record? : Move → Option WalRecord
  | .handle record => some record
  | _ => none

def handled (moves : List Move) : List WalRecord := moves.filterMap Move.record?

theorem handled_append (moves more : List Move) :
    handled (moves ++ more) = handled moves ++ handled more :=
  List.filterMap_append

/-- A snapshot that was to be saved after some of the moves. -/
structure Saved (moves before : List Move) (file : Bytes) : Prop where
  attempted : ∃ sizes removes fails, before ++ [.save sizes removes fails] <+: moves
  snapshot : ∃ live : Live, live.After crc32c (handled before) ∧ file = live.snapshot

/-- What is under the snapshot's name, saved after some of the moves. -/
inductive Latest (moves : List Move) : List Move → Option Bytes → Prop where
  | none : Latest moves [] none
  | saved {before : List Move} {file : Bytes} (saved : Saved crc32c moves before file) :
      Latest moves before (some file)

variable {crc32c} {moves more before : List Move} {file : Bytes}

theorem Saved.mono (saved : Saved crc32c moves before file) (later : moves <+: more) :
    Saved crc32c more before file where
  attempted := by
    rcases saved.attempted with ⟨sizes, removes, fails, made⟩
    exact ⟨sizes, removes, fails, made.trans later⟩
  snapshot := saved.snapshot

theorem Saved.first (saved : Saved crc32c moves before file) : before <+: moves := by
  rcases saved.attempted with ⟨sizes, removes, fails, made⟩
  exact (List.prefix_append _ _).trans made

theorem Latest.mono {content : Option Bytes} (latest : Latest crc32c moves before content)
    (later : moves <+: more) : Latest crc32c more before content := by
  cases latest with
  | none => exact .none
  | saved saved => exact .saved (saved.mono later)

theorem Latest.first {content : Option Bytes} (latest : Latest crc32c moves before content) :
    before <+: moves := by
  cases latest with
  | none => exact List.nil_prefix
  | saved saved => exact saved.first

variable (crc32c)

/-- What holds of the engine after the given moves. -/
structure Running.After (moves : List Move) (running : Running) : Prop where
  live : running.live.After crc32c (handled moves)
  headed : 8 ≤ running.live.writer.file.synced
  synced : running.live.writer.file.synced ≤ running.live.writer.file.bytes.length
  committed : ∀ before, before ++ [.commit] <+: moves →
    (segmentHeader ++ frames crc32c (numbered 1 (handled before))).length ≤
      running.live.writer.file.synced
  whole : ∃ files, Whole files running.disk ∧
    ∀ file ∈ files, ∃ before, Saved crc32c moves before file
  newest : ∃ before, Latest crc32c moves before running.disk.content ∧
    ∀ earlier sizes, earlier ++ [.save sizes true none] <+: moves → earlier <+: before

variable {crc32c} {running : Running}

/-- A move that does not touch the snapshot keeps what is known of it. -/
theorem Running.After.untouched (after : running.After crc32c moves) (move : Move)
    (other : ∀ sizes removes fails, move ≠ .save sizes removes fails) :
    (∃ files, Whole files running.disk ∧
      ∀ file ∈ files, ∃ before, Saved crc32c (moves ++ [move]) before file) ∧
    ∃ before, Latest crc32c (moves ++ [move]) before running.disk.content ∧
      ∀ earlier sizes, earlier ++ [.save sizes true none] <+: moves ++ [move] →
        earlier <+: before := by
  constructor
  · rcases after.whole with ⟨files, whole, saved⟩
    refine ⟨files, whole, ?_⟩
    intro file member
    rcases saved file member with ⟨before, earlier⟩
    exact ⟨before, earlier.mono (List.prefix_append _ _)⟩
  · rcases after.newest with ⟨before, latest, newest⟩
    refine ⟨before, latest.mono (List.prefix_append _ _), ?_⟩
    intro earlier sizes made
    rcases List.prefix_concat_iff.mp made with last | old
    · have same := List.append_inj_right' last rfl
      exact absurd (List.singleton_inj.mp same).symm (other sizes true none)
    · exact newest earlier sizes old

theorem Running.After.handle (after : running.After crc32c moves) (record : WalRecord) :
    ∃ next, running.step crc32c (.handle record) = .ok next ∧
      next.After crc32c (moves ++ [.handle record]) := by
  rcases after.live.step crc32c record with ⟨live, stepped, logged⟩
  have file : live.writer =
      running.live.writer.written crc32c running.live.writer.nextSeq record := by
    rw [Live.step, append_single crc32c after.live.single] at stepped
    exact (congrArg Live.writer (Except.ok.inj stepped)).symm
  rcases after.untouched (.handle record) (by intro _ _ _ same; cases same) with
    ⟨whole, newest⟩
  refine ⟨{ running with live }, ?_, ?_, ?_, ?_, ?_, whole, newest⟩
  · rw [Running.step, stepped]
    rfl
  · rw [handled_append]
    exact logged
  · rw [file]
    exact after.headed
  · simp only [file, WalWriter.written, List.length_append]
    exact after.synced.trans (Nat.le_add_right _ _)
  · intro before made
    rw [file]
    rcases List.prefix_concat_iff.mp made with last | earlier
    · cases List.append_inj_right' last rfl
    · exact after.committed before earlier

theorem Running.After.commit (after : running.After crc32c moves) :
    ∃ next, running.step crc32c .commit = .ok next ∧
      next.After crc32c (moves ++ [.commit]) := by
  have records : handled (moves ++ [.commit]) = handled moves := by
    rw [handled_append]
    exact List.append_nil _
  rcases after.untouched .commit (by intro _ _ _ same; cases same) with
    ⟨whole, newest⟩
  refine ⟨_, rfl, ?_, after.headed.trans after.synced, Nat.le_refl _, ?_, whole, newest⟩
  · rw [records]
    exact ⟨after.live.single, after.live.bytes, after.live.nextSeq, after.live.outcome⟩
  · intro before made
    rcases List.prefix_concat_iff.mp made with last | earlier
    · rw [List.append_inj_left' last rfl]
      simp only [WalWriter.commit, after.live.bytes]
      exact Nat.le_refl _
    · exact (after.committed before earlier).trans after.synced

/-- A call of `snapshot::write`, wherever it stops, leaves the old snapshot or the new one. -/
theorem Running.After.save (after : running.After crc32c moves) (sizes : List Nat)
    (removes : Bool) (fails : Option Nat) :
    ∃ next, running.step crc32c (.save sizes removes fails) = .ok next ∧
      next.After crc32c (moves ++ [.save sizes removes fails]) := by
  let attempt : Attempt UInt8 :=
    ⟨chunked sizes running.live.snapshot, removes, ending fails⟩
  have content : attempt.content = running.live.snapshot := flatten_chunked sizes _
  have records : handled (moves ++ [.save sizes removes fails]) = handled moves := by
    rw [handled_append]
    exact List.append_nil _
  have new : Saved crc32c (moves ++ [.save sizes removes fails]) moves attempt.content :=
    ⟨⟨sizes, removes, fails, List.prefix_refl _⟩, running.live, after.live, content⟩
  rcases after.whole with ⟨files, whole, saved⟩
  have run := (Saving.mk (whole.mono fun file member => List.mem_cons_of_mem _ member)
    rfl).run attempt (List.mem_cons_self (a := attempt.content) (l := files))
  refine ⟨_, rfl, ?_, after.headed, after.synced, ?_, ⟨_, run.1, ?_⟩, ?_⟩
  · rw [records]
    exact after.live
  · intro before made
    rcases List.prefix_concat_iff.mp made with last | earlier
    · cases List.append_inj_right' last rfl
    · exact after.committed before earlier
  · intro file member
    rcases List.mem_cons.mp member with rfl | old
    · exact ⟨moves, new⟩
    · rcases saved file old with ⟨before, earlier⟩
      exact ⟨before, earlier.mono (List.prefix_append _ _)⟩
  · have settled : attempt.Settled := by
      intro acts back kept crashed
      cases fails <;> cases crashed
    have outcome := run.2 settled
    by_cases renames : attempt.renames running.disk = true
    · rw [if_pos renames] at outcome
      refine ⟨moves, ?_, ?_⟩
      · exact outcome ▸ Latest.saved new
      · intro earlier sizes made
        rcases List.prefix_concat_iff.mp made with last | old
        · exact List.append_inj_left' last rfl ▸ List.prefix_refl earlier
        · exact (List.prefix_append _ _).trans old
    · rw [if_neg renames] at outcome
      rcases after.newest with ⟨before, latest, newest⟩
      refine ⟨before, ?_, ?_⟩
      · exact outcome ▸ latest.mono (List.prefix_append _ _)
      · intro earlier sizes made
        rcases List.prefix_concat_iff.mp made with last | old
        · cases List.append_inj_right' last rfl
          exact absurd (by simp [Attempt.renames, Attempt.acts, attempt, ending]) renames
        · exact newest earlier sizes old

theorem Running.start_after : Running.start.After crc32c [] where
  live := ⟨rfl, (List.append_nil segmentHeader).symm, rfl, rfl⟩
  headed := Nat.le_refl 8
  synced := Nat.le_refl 8
  committed before made := by
    have empty := List.prefix_nil.mp made
    simp at empty
  whole := ⟨[], whole_empty, fun _ member => absurd member List.not_mem_nil⟩
  newest := by
    refine ⟨[], .none, ?_⟩
    intro earlier sizes made
    have empty := List.prefix_nil.mp made
    simp at empty

/-- The engine never fails, apart from calls of `snapshot::write`. -/
theorem Running.run_after (crc32c : Bytes → UInt32) (moves : List Move) :
    ∃ running, Running.run crc32c moves = .ok running ∧ running.After crc32c moves := by
  induction moves using List.reverseRecOn with
  | nil => exact ⟨Running.start, rfl, Running.start_after⟩
  | append_singleton moves move ih =>
      rcases ih with ⟨running, ran, after⟩
      have stepped : ∃ next, running.step crc32c move = .ok next ∧
          next.After crc32c (moves ++ [move]) := by
        cases move with
        | handle record => exact after.handle record
        | commit => exact after.commit
        | save sizes removes fails => exact after.save sizes removes fails
      rcases stepped with ⟨next, stepped, nextAfter⟩
      refine ⟨next, ?_, nextAfter⟩
      rw [Running.run, List.foldlM_append, ← Running.run, ran]
      simp [stepped]

/-! ## The recovery after the crash -/

theorem handled_mono (first : before <+: moves) : handled before <+: handled moves := by
  rcases first with ⟨after, rfl⟩
  exact ⟨handled after, (handled_append before after).symm⟩

/-- The events of the first commands come first. -/
theorem length_events_le {records first : List WalRecord} (prior : first <+: records) :
    (Matcher.new.run (first.map WalRecord.command)).2.length ≤
      (Matcher.new.run (records.map WalRecord.command)).2.length := by
  rcases prior with ⟨rest, rfl⟩
  rw [List.map_append, run_append, List.length_append]
  exact Nat.le_add_right _ _

/-- What is under the snapshot's name loads the matcher that it was made of. -/
theorem Latest.load {content : Option Bytes} (latest : Latest crc32c moves before content)
    (fits : (Matcher.new.run ((handled moves).map WalRecord.command)).2.length + 1 < 2 ^ 64) :
    load content = .ok ((Matcher.new.run ((handled before).map WalRecord.command)).1,
      .fromRaw (UInt64.ofNat (handled before).length)) := by
  cases latest with
  | none => rfl
  | saved saved =>
      rcases saved.snapshot with ⟨live, after, rfl⟩
      have fewer := length_events_le (handled_mono saved.first)
      rw [load_snapshot crc32c after (by omega), ← congrArg Prod.fst after.outcome]

/-- What the recovery counts while it applies records. -/
theorem replay_counted {marker : Sequence} {delivered : List (Sequence × WalRecord)}
    (applied : ∀ entry ∈ delivered, marker < entry.1) (recovery : Recovery) :
    let final := delivered.foldl (replayRecord marker) recovery
    final.replayed = recovery.replayed + delivered.length ∧
      final.lastSeq = (delivered.map Prod.fst).getLastD recovery.lastSeq := by
  induction delivered generalizing recovery with
  | nil => exact ⟨rfl, rfl⟩
  | cons entry delivered ih =>
      let next := replayRecord marker recovery entry
      have later : marker < entry.1 := applied entry List.mem_cons_self
      have counted : next.replayed = recovery.replayed + 1 ∧ next.lastSeq = entry.1 := by
        rw [show next = _ from if_neg (not_le.mpr later)]
        exact ⟨rfl, rfl⟩
      rcases ih (fun entry member => applied entry (List.mem_cons_of_mem _ member)) next with
        ⟨replayed, lastSeq⟩
      refine ⟨?_, ?_⟩
      · rw [List.foldl_cons, replayed, counted.1, List.length_cons]
        omega
      · rw [List.foldl_cons, lastSeq, counted.2, List.map_cons, List.getLastD_cons]

/-- Replaying numbered records behind a marker of `count` counts those after the first `count`,
and ends with the number of the last one. -/
theorem replay_summary {records : List WalRecord} {count : Nat}
    (logged : records.length < 2 ^ 64) (within : count < 2 ^ 64) (matcher : Matcher) :
    let final := ((numbered 1 records).map entryOf).foldl
      (replayRecord (.fromRaw (UInt64.ofNat count))) ⟨matcher, [], 0, Sequence.zero⟩
    final.replayed = records.length - count ∧
      (final.replayed ≠ 0 → final.lastSeq = .fromRaw (UInt64.ofNat records.length)) := by
  have countEq : (UInt64.ofNat count).toNat = count := by
    rw [UInt64.toNat_ofNat', Nat.mod_eq_of_lt within]
  let first := (numbered 1 (records.take count)).map entryOf
  let start := 1 + UInt64.ofNat (records.take count).length
  let later := (numbered start (records.drop count)).map entryOf
  have split : (numbered 1 records).map entryOf = first ++ later := by
    rw [← List.map_append, ← numbered_append, List.take_append_drop]
  have skipped : ∀ entry ∈ first, entry.1 ≤ .fromRaw (UInt64.ofNat count) := by
    intro entry member
    rcases List.mem_map.mp member with ⟨origin, inside, rfl⟩
    rw [Sequence.le_iff, countEq]
    exact toNat_le_of_mem_take logged inside
  have applied : ∀ entry ∈ later, .fromRaw (UInt64.ofNat count) < entry.1 := by
    intro entry member
    rcases List.mem_map.mp member with ⟨origin, inside, rfl⟩
    rw [Sequence.lt_iff, countEq]
    exact lt_toNat_of_mem_drop logged inside
  have counted := replay_counted applied ⟨matcher, [], 0, Sequence.zero⟩
  have size : later.length = records.length - count := by
    rw [List.length_map, length_numbered, List.length_drop]
  intro final
  have rest : final = later.foldl (replayRecord (.fromRaw (UInt64.ofNat count)))
      ⟨matcher, [], 0, Sequence.zero⟩ := by
    simp only [final, split, List.foldl_append]
    rw [replay_skipped skipped]
  rw [rest, counted.1, counted.2, size, Nat.zero_add]
  refine ⟨rfl, ?_⟩
  intro some
  rcases List.eq_nil_or_concat (records.drop count) with empty | ⟨front, last, ends⟩
  · exact absurd (List.length_drop ▸ congrArg List.length empty) some
  · have total : records.length = (records.take count).length + front.length + 1 := by
      have lengths := congrArg List.length (List.take_append_drop count records)
      rw [List.length_append, ends, List.length_concat] at lengths
      omega
    have number : start + UInt64.ofNat front.length = UInt64.ofNat records.length := by
      rw [total, UInt64.ofNat_add, UInt64.ofNat_add, UInt64.add_comm _ (UInt64.ofNat 1),
        ← UInt64.add_assoc]
      rfl
    rw [← number]
    simp [later, ends, numbered_append, numbered, entryOf]

/-- What the recovery does with a snapshot that loads and a log that was cut. -/
theorem recover_loaded {snapshot : Option Bytes} {records : List WalRecord}
    {matcher : Matcher} {count size : Nat}
    (loaded : load snapshot = .ok (matcher, .fromRaw (UInt64.ofNat count)))
    (within : count ≤ records.length) (headed : 8 ≤ size) (logged : records.length < 2 ^ 64) :
    let survived := complete crc32c (numbered 1 records) (size - 8)
    ∃ recovered, recover crc32c snapshot
        ((segmentHeader ++ frames crc32c (numbered 1 records)).take size) = .ok recovered ∧
      (recovered.matcher, recovered.events) =
        matcher.run (((records.take survived).drop count).map WalRecord.command) ∧
      recovered.replayed = survived - count ∧
      (recovered.replayed ≠ 0 → recovered.lastSeq = .fromRaw (UInt64.ofNat survived)) := by
  intro survived
  have delivered := forEachRecord_take crc32c (numbered 1 records) (size - 8)
  rw [Nat.add_sub_cancel' headed, take_numbered] at delivered
  have short : (records.take survived).length < 2 ^ 64 :=
    lt_of_le_of_lt (List.length_take_le' ..) logged
  have fits : count < 2 ^ 64 := lt_of_le_of_lt within logged
  have length : (records.take survived).length = survived := by
    rw [List.length_take_of_le]
    exact (complete_le crc32c _ _).trans_eq (length_numbered 1 records)
  have summary := replay_summary short fits matcher
  rw [length] at summary
  refine ⟨_, ?_, replay_numbered short fits matcher, summary⟩
  rw [recover, loaded, delivered]

/-- What a crash may leave under the snapshot's name: nothing, or the whole of a snapshot, and
unless it takes back a rename, none that is older than the last one whose call returned. -/
theorem Running.After.crash (after : running.After crc32c moves) (back : Nat)
    (kept : Nat → Nat) :
    ∃ before, Latest crc32c moves before (running.disk.crash back kept).content ∧
      (back = 0 → ∀ earlier sizes, earlier ++ [.save sizes true none] <+: moves →
        earlier <+: before) := by
  rcases after.whole with ⟨files, whole, saved⟩
  have saving := Saving.mk whole rfl
  by_cases settled : back = 0
  · subst settled
    rcases after.newest with ⟨before, latest, newest⟩
    refine ⟨before, ?_, fun _ => newest⟩
    rw [saving.crash_settled kept]
    exact latest
  · cases content : (running.disk.crash back kept).content with
    | none => exact ⟨[], .none, fun impossible => absurd impossible settled⟩
    | some file =>
        rcases Option.map_eq_some_iff.mp content with ⟨index, target, rfl⟩
        rcases saving.crash back kept _ List.mem_cons_self index target with ⟨-, member, -⟩
        rcases saved _ member with ⟨before, found⟩
        exact ⟨before, .saved found, fun impossible => absurd impossible settled⟩

/-- The engine runs until the machine stops: the log may be cut anywhere behind what was
synced, and the latest renames may be taken back. The recovery succeeds. Its matcher is that of
a run that stops after the last whole record or at the snapshot found, whichever is later, and it
emits the events behind the snapshot. Nothing committed is lost, and nothing before a snapshot
whose call returned, unless its rename is taken back. -/
theorem recover_crashed (crc32c : Bytes → UInt32) (moves : List Move)
    (logged : (handled moves).length < 2 ^ 64)
    (fits : (Matcher.new.run ((handled moves).map WalRecord.command)).2.length + 1 < 2 ^ 64) :
    ∃ running, Running.run crc32c moves = .ok running ∧ ∀ back kept size,
      running.live.writer.file.synced ≤ size →
      let survived := complete crc32c (numbered 1 (handled moves)) (size - 8)
      ∃ before recovered, Latest crc32c moves before (running.disk.crash back kept).content ∧
        recover crc32c (running.disk.crash back kept).content
          (running.live.writer.file.bytes.take size) = .ok recovered ∧
        (recovered.matcher,
            (Matcher.new.run ((handled before).map WalRecord.command)).2 ++ recovered.events) =
          Matcher.new.run (((handled moves).take (max (handled before).length survived)).map
            WalRecord.command) ∧
        recovered.replayed = survived - (handled before).length ∧
        (recovered.replayed ≠ 0 → recovered.lastSeq = .fromRaw (UInt64.ofNat survived)) ∧
        (∀ earlier, earlier ++ [.commit] <+: moves → (handled earlier).length ≤ survived) ∧
        (back = 0 → ∀ earlier sizes, earlier ++ [.save sizes true none] <+: moves →
          (handled earlier).length ≤ (handled before).length) := by
  rcases Running.run_after crc32c moves with ⟨running, ran, after⟩
  refine ⟨running, ran, ?_⟩
  intro back kept size covers survived
  have headed : 8 ≤ size := after.headed.trans covers
  rcases after.crash back kept with ⟨before, latest, newest⟩
  rcases handled_mono latest.first with ⟨rest, split⟩
  have within : (handled before).length ≤ (handled moves).length := by
    rw [← split, List.length_append]
    exact Nat.le_add_right _ _
  have front : (handled moves).take (handled before).length = handled before := by
    rw [← split, List.take_left]
  rcases recover_loaded (latest.load fits) within headed logged with
    ⟨recovered, succeeds, replayed, counted, lastSeq⟩
  refine ⟨before, recovered, latest, ?_, ?_, counted, lastSeq, ?_, ?_⟩
  · rw [after.live.bytes]
    exact succeeds
  · rw [take_max, front, List.map_append, run_append, ← replayed]
  · intro earlier made
    have shorter : (handled earlier).length ≤ (handled moves).length :=
      (handled_mono ((List.prefix_append _ _).trans made)).length_le
    have synced := after.committed earlier made
    have first := handled_mono ((List.prefix_append _ _).trans made)
    have header : segmentHeader.length = 8 := rfl
    rw [le_complete_iff crc32c (by rw [length_numbered]; exact shorter), take_numbered,
      ← List.prefix_iff_eq_take.mp first]
    rw [List.length_append, header] at synced
    omega
  · intro settled earlier sizes made
    exact (handled_mono (newest settled earlier sizes made)).length_le

/-- A snapshot after the first of three records, a call that fails after the second, and a log
that is cut inside the third. -/
theorem recover_crashed_torn :
    let ask : NewOrder := ⟨.new 1, .sell, .new 5, .limit (.fromRaw 100), .fromNanos 0⟩
    let bid : NewOrder := ⟨.new 2, .buy, .new 3, .market, .fromNanos 0⟩
    let moves : List Move := [.handle (.newOrder ask), .save [20] true none,
      .handle (.newOrder bid), .commit, .save [8] true (some 3), .handle (.cancel (.new 1))]
    ∃ running, Running.run Crc32c.checksum moves = .ok running ∧
      running.live.writer.file.synced ≤ 114 ∧
      ∃ before recovered,
        recover Crc32c.checksum (running.disk.crash 0 fun _ => 0).content
          (running.live.writer.file.bytes.take 114) = .ok recovered ∧
        (recovered.matcher,
            (Matcher.new.run ((handled before).map WalRecord.command)).2 ++ recovered.events) =
          Matcher.new.run (((handled moves).take (max (handled before).length 2)).map
            WalRecord.command) ∧
        1 ≤ (handled before).length := by
  intro ask bid moves
  rcases recover_crashed Crc32c.checksum moves (by decide +kernel)
    (by decide +kernel) with ⟨running, ran, crashed⟩
  have synced : (Running.run Crc32c.checksum moves).map
      (fun running => decide (running.live.writer.file.synced ≤ 114)) = .ok true := by
    decide +kernel
  rw [ran] at synced
  have covers := of_decide_eq_true (Except.ok.inj synced)
  have survived : complete Crc32c.checksum (numbered 1 (handled moves)) (114 - 8) = 2 := by
    decide +kernel
  rcases crashed 0 (fun _ => 0) 114 covers with
    ⟨before, recovered, -, succeeds, outcome, -, -, -, newest⟩
  rw [survived] at outcome
  exact ⟨running, ran, covers, before, recovered, succeeds, outcome,
    newest rfl [.handle (.newOrder ask)] [20] ⟨_, rfl⟩⟩

end Restart

end Bourse
