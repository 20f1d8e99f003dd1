import Bourse.Data.Crc32c
import Bourse.Wal.Directory

/-!
# Sessions on one directory

A session opens a rotating writer, appends and commits, and commits once more before
the writer is dropped.  Whatever the segment sizes, the directory delivers all records
of all sessions in the order of their appends.  Every session numbers its records from
`1`, so the numbers increase only while a single session has appended anything.
-/

namespace Bourse

namespace Wal

/-- A call on an open writer. -/
inductive Op where
  | append (record : WalRecord)
  | commit
  deriving DecidableEq, Repr

def Op.record? : Op → Option WalRecord
  | .append record => some record
  | .commit => none

/-- The records of a list of calls. -/
def recordsOf (ops : List Op) : List WalRecord := ops.filterMap Op.record?

/-- The arguments of one session. -/
structure Session where
  maxSegmentBytes : UInt64
  ops : List Op

def Session.records (session : Session) : List WalRecord := recordsOf session.ops

/-- A directory between sessions, and all records appended so far with the numbers
that `append` returned. -/
structure History where
  files : Directory
  appended : List (Sequence × WalRecord)

/-- An open session. -/
structure Active where
  writer : WalWriter
  appended : List (Sequence × WalRecord)

/-- The directory that a writer leaves when it is dropped after a commit. -/
def WalWriter.files (writer : WalWriter) : Directory :=
  match writer.rotation with
  | none => []
  | some rotation => rotation.others ++ [(rotation.path, writer.file)]

section Run

variable (crc32c : Bytes → UInt32) (readDir : ReadDir)

def Op.run (active : Active) : Op → Except WalError Active
  | .append record => do
      let (seq, writer) ← active.writer.append crc32c record
      return ⟨writer, active.appended ++ [(seq, record)]⟩
  | .commit => .ok { active with writer := active.writer.commit }

def Session.run (history : History) (session : Session) : Except WalError History := do
  let writer ← openDir readDir history.files session.maxSegmentBytes
  let active ← session.ops.foldlM (Op.run crc32c) ⟨writer, history.appended⟩
  return ⟨active.writer.commit.files, active.appended⟩

/-- A series of sessions on an initially empty directory. -/
def runSessions (sessions : List Session) : Except WalError History :=
  sessions.foldlM (Session.run crc32c readDir) ⟨[], []⟩

/-- `wal_seq` is usable as a recovery marker: the directory delivers all records in
the order of their appends, their numbers increase, and what is numbered above an
append is what was appended after it. -/
def History.Recoverable (history : History) : Prop :=
  ∃ delivered, forEachRecordDir crc32c readDir history.files = (delivered, .ok ()) ∧
    delivered = history.appended ∧
    (delivered.Pairwise fun earlier later => earlier.1 < later.1) ∧
    ∀ before marker after, history.appended = before ++ marker :: after →
      (delivered.filter fun entry => marker.1 < entry.1) = after

end Run

/-! ## What an open session has written -/

/-- The session writes `log` to its current segment, behind segments that hold `logs`. -/
structure Active.Writing (crc32c : Bytes → UInt32) (active : Active)
    (logs : List (List (UInt64 × WalRecord))) (log : List (UInt64 × WalRecord)) : Prop where
  rotating : ∃ rotation, active.writer.rotation = some rotation ∧
    Segments crc32c 0 logs rotation.others ∧
    rotation.path = segmentPath (UInt64.ofNat logs.length) ∧
    rotation.nextIndex = UInt64.ofNat (logs.length + 1)
  bytes : active.writer.file.bytes = segmentHeader ++ frames crc32c log
  room : logs.length < 2 ^ 64
  appended : active.appended = (logs.flatten ++ log).map entryOf

/-- The directory holds segments with the given logs. -/
structure History.Stored (crc32c : Bytes → UInt32) (history : History)
    (logs : List (List (UInt64 × WalRecord))) : Prop where
  segments : Segments crc32c 0 logs history.files
  room : logs.length ≤ 2 ^ 64
  appended : history.appended = logs.flatten.map entryOf

variable {crc32c : Bytes → UInt32} {logs : List (List (UInt64 × WalRecord))}
  {log : List (UInt64 × WalRecord)} {active : Active} {history : History}

/-- A segment can be created unless all indices are in use. -/
theorem Segments.createSegment {dir : Directory} (segments : Segments crc32c 0 logs dir) :
    Ensures (createSegment (dir.map Prod.fst) (segmentPath (UInt64.ofNat logs.length)))
      (fun created => created = (newSegment, 8) ∧ logs.length < 2 ^ 64)
      (2 ^ 64 ≤ logs.length) := by
  rw [← segments.length_eq]
  exact segments.named.createSegment

theorem WalWriter.files_commit {writer : WalWriter} {rotation : Rotation}
    (rotating : writer.rotation = some rotation) :
    writer.commit.files = rotation.others ++ [(rotation.path, writer.commit.file)] := by
  simp only [WalWriter.files, WalWriter.commit, rotating]

/-- Closing a session leaves its segments behind. -/
theorem Active.Writing.closed (writing : active.Writing crc32c logs log) :
    (⟨active.writer.commit.files, active.appended⟩ : History).Stored crc32c
      (logs ++ [log]) := by
  rcases writing.rotating with ⟨rotation, rotating, segments, path, -⟩
  refine ⟨?_, ?_, ?_⟩
  · rw [WalWriter.files_commit rotating, path, ← Nat.zero_add logs.length]
    exact segments.concat writing.bytes
  · rw [List.length_append, List.length_singleton]
    exact writing.room
  · rw [List.flatten_append, List.flatten_singleton]
    exact writing.appended

theorem Active.Writing.commit (writing : active.Writing crc32c logs log) :
    (⟨active.writer.commit, active.appended⟩ : Active).Writing crc32c logs log :=
  ⟨writing.rotating, writing.bytes, writing.room, writing.appended⟩

/-- Rotation closes the current segment and starts an empty one. -/
theorem Active.Writing.rotate (writing : active.Writing crc32c logs log) :
    Ensures active.writer.rotate
      (fun rolled => rolled.nextSeq = active.writer.nextSeq ∧
        (⟨rolled, active.appended⟩ : Active).Writing crc32c (logs ++ [log]) [])
      (2 ^ 64 ≤ logs.length + 1) := by
  have stored := writing.closed
  rcases writing.rotating with ⟨rotation, rotating, -, -, nextIndex⟩
  have created := stored.segments.createSegment
  have committed : active.writer.commit.rotation = some rotation := rotating
  rw [WalWriter.files_commit rotating] at created stored
  simp only [List.length_append, List.length_singleton] at created
  simp only [WalWriter.rotate, committed, nextIndex]
  apply created.bind
  intro file free
  rw [free.1]
  refine ⟨rfl, ⟨_, rfl, stored.segments, ?_, ?_⟩, ?_, ?_, ?_⟩
  · rw [List.length_append, List.length_singleton]
  · rw [List.length_append, List.length_singleton]
    exact (UInt64.ofNat_add (logs.length + 1) 1).symm
  · exact (List.append_nil segmentHeader).symm
  · rw [List.length_append, List.length_singleton]
    exact free.2
  · rw [List.append_nil]
    exact stored.appended

/-- One frame more in the current segment. -/
theorem Active.Writing.written (writing : active.Writing crc32c logs log)
    (record : WalRecord) :
    (⟨active.writer.written crc32c active.writer.nextSeq record,
      active.appended ++ [(.fromRaw active.writer.nextSeq, record)]⟩ : Active).Writing crc32c
        logs (log ++ [(active.writer.nextSeq, record)]) := by
  refine ⟨writing.rotating, ?_, writing.room, ?_⟩
  · simp [WalWriter.written, writing.bytes, frames]
  · simp [writing.appended, entryOf]

/-- An append adds its record behind all others, in the current segment or in a new
one. -/
theorem Active.Writing.append (writing : active.Writing crc32c logs log)
    (record : WalRecord) :
    Ensures (Op.run crc32c active (.append record))
      (fun next => next.writer.nextSeq = active.writer.nextSeq + 1 ∧
        ∃ logs' log', next.Writing crc32c logs' log' ∧
          logs'.flatten ++ log' = logs.flatten ++ log ++ [(active.writer.nextSeq, record)] ∧
          logs'.length ≤ logs.length + 1)
      (2 ^ 64 ≤ logs.length + 1) := by
  have ready : Ensures (if active.writer.mustRotate
        (8 + UInt64.ofNat (payload active.writer.nextSeq record).length)
      then active.writer.rotate else pure active.writer)
      (fun rolled => rolled.nextSeq = active.writer.nextSeq ∧
        ∃ logs' log', (⟨rolled, active.appended⟩ : Active).Writing crc32c logs' log' ∧
          logs'.flatten ++ log' = logs.flatten ++ log ∧ logs'.length ≤ logs.length + 1)
      (2 ^ 64 ≤ logs.length + 1) := by
    split
    · apply writing.rotate.mono
      · intro rolled started
        exact ⟨started.1, _, _, started.2, by simp, by simp⟩
      · exact id
    · exact ⟨rfl, logs, log, writing, rfl, Nat.le_succ _⟩
  rw [Op.run, append_eq]
  simp only [bind_assoc, pure_bind]
  apply ready.bind
  intro rolled started
  rcases started with ⟨nextSeq, logs', log', rolledWriting, flat, length⟩
  refine ⟨congrArg (· + 1) nextSeq, logs', log' ++ [(active.writer.nextSeq, record)],
    ?_, ?_, length⟩
  · have written := rolledWriting.written record
    rw [nextSeq] at written
    exact written
  · rw [← List.append_assoc, flat]

/-! ## Whole sessions -/

theorem recordsOf_append (ops more : List Op) :
    recordsOf (ops ++ more) = recordsOf ops ++ recordsOf more :=
  List.filterMap_append

/-- A session that has made the calls `done` on top of segments that hold `logs`. -/
structure Active.Progress (crc32c : Bytes → UInt32) (logs : List (List (UInt64 × WalRecord)))
    (done : List Op) (active : Active) : Prop where
  nextSeq : active.writer.nextSeq = 1 + UInt64.ofNat (recordsOf done).length
  writing : ∃ closed log, active.Writing crc32c closed log ∧
    closed.flatten ++ log = logs.flatten ++ numbered 1 (recordsOf done) ∧
    closed.length ≤ logs.length + (recordsOf done).length

/-- Opening a directory starts an empty segment behind those it holds. -/
theorem openDir_progress (readDir : ReadDir) (stored : history.Stored crc32c logs)
    (maxSegmentBytes : UInt64) :
    Ensures (openDir readDir history.files maxSegmentBytes)
      (fun writer => (⟨writer, history.appended⟩ : Active).Progress crc32c logs [])
      (2 ^ 64 ≤ logs.length) := by
  have length := stored.segments.length_eq
  have index := stored.segments.named.nextSegmentIndex (by rw [length]; exact stored.room)
    (readDir.perm history.files)
  rw [length] at index
  simp only [openDir, index]
  apply stored.segments.createSegment.bind
  intro created free
  rw [free.1]
  refine ⟨rfl, logs, [], ⟨⟨_, rfl, stored.segments, rfl, ?_⟩, ?_, free.2, ?_⟩, ?_, ?_⟩
  · exact (UInt64.ofNat_add logs.length 1).symm
  · exact (List.append_nil segmentHeader).symm
  · rw [List.append_nil]
    exact stored.appended
  · rfl
  · exact Nat.le_add_right _ _

/-- One call keeps the progress of a session. -/
theorem Active.Progress.step {done : List Op} (progress : active.Progress crc32c logs done)
    (op : Op) :
    Ensures (op.run crc32c active) (Active.Progress crc32c logs (done ++ [op]))
      (2 ^ 64 ≤ logs.length + 1 + (recordsOf done).length) := by
  rcases progress.writing with ⟨closed, log, writing, flat, length⟩
  cases op with
  | append record =>
      have records : recordsOf (done ++ [.append record]) = recordsOf done ++ [record] :=
        recordsOf_append done _
      apply (writing.append record).mono
      · intro next appended
        rcases appended with ⟨nextSeq, closed', log', nextWriting, nextFlat, nextLength⟩
        refine ⟨?_, closed', log', nextWriting, ?_, ?_⟩
        · rw [nextSeq, progress.nextSeq, records, List.length_append, List.length_singleton,
            UInt64.ofNat_add, UInt64.add_assoc]
          rfl
        · rw [nextFlat, flat, records, numbered_append, progress.nextSeq, List.append_assoc]
          rfl
        · rw [records, List.length_append, List.length_singleton]
          omega
      · intro full
        omega
  | commit =>
      have records : recordsOf (done ++ [.commit]) = recordsOf done := by
        rw [recordsOf_append]
        exact List.append_nil _
      refine ⟨?_, closed, log, writing.commit, ?_, ?_⟩
      · rw [records]
        exact progress.nextSeq
      · rw [records]
        exact flat
      · rw [records]
        exact length

/-- What a session adds to its directory. -/
theorem Session.run_stored (readDir : ReadDir) (stored : history.Stored crc32c logs)
    (session : Session) :
    Ensures (session.run crc32c readDir history)
      (fun next => ∃ logs', next.Stored crc32c logs' ∧
        logs'.flatten = logs.flatten ++ numbered 1 session.records ∧
        logs'.length ≤ logs.length + 1 + session.records.length)
      (2 ^ 64 ≤ logs.length + 1 + session.records.length) := by
  rw [Session.run]
  apply ((openDir_progress readDir stored session.maxSegmentBytes).mono
    (fun _ => id) (fun full => by omega)).bind
  intro writer opened
  apply (Ensures.foldlM (Active.Progress crc32c logs) _ opened).bind
  · intro active progress
    rcases progress.writing with ⟨closed, log, writing, flat, length⟩
    refine ⟨closed ++ [log], writing.closed, ?_, ?_⟩
    · rw [List.flatten_append, List.flatten_singleton]
      exact flat
    · rw [List.length_append, List.length_singleton]
      have bound : closed.length ≤ logs.length + session.records.length := length
      omega
  · intro done op rest active split progress
    apply (progress.step op).mono
    · exact fun _ => id
    · intro full
      have shorter : (recordsOf done).length ≤ session.records.length := by
        rw [Session.records, split, recordsOf_append, List.length_append]
        exact Nat.le_add_right _ _
      omega

/-! ## Series of sessions -/

/-- The numbered records of a series of sessions: every session starts at `1`. -/
def logOf (sessions : List Session) : List (UInt64 × WalRecord) :=
  sessions.flatMap fun session => numbered 1 session.records

/-- The number of records that a series of sessions appends. -/
def recordCount (sessions : List Session) : Nat :=
  (sessions.map fun session => session.records.length).sum

theorem recordCount_append (sessions more : List Session) :
    recordCount (sessions ++ more) = recordCount sessions + recordCount more := by
  rw [recordCount, List.map_append, List.sum_append]
  rfl

theorem logOf_concat (sessions : List Session) (session : Session) :
    logOf (sessions ++ [session]) = logOf sessions ++ numbered 1 session.records := by
  rw [logOf, List.flatMap_append, List.flatMap_singleton]
  rfl

/-- What a series of sessions leaves behind. It can only fail by running out of
segment indices. -/
theorem runSessions_stored (crc32c : Bytes → UInt32) (readDir : ReadDir)
    (sessions : List Session) :
    Ensures (runSessions crc32c readDir sessions)
      (fun history => ∃ logs, history.Stored crc32c logs ∧ logs.flatten = logOf sessions)
      (2 ^ 64 ≤ sessions.length + recordCount sessions) := by
  let invariant (done : List Session) (history : History) : Prop :=
    ∃ logs, history.Stored crc32c logs ∧ logs.flatten = logOf done ∧
      logs.length ≤ done.length + recordCount done
  have initial : invariant [] ⟨[], []⟩ :=
    ⟨[], ⟨.nil, Nat.zero_le _, rfl⟩, rfl, Nat.le_refl 0⟩
  apply (Ensures.foldlM invariant _ initial).mono
  · intro history held
    rcases held with ⟨logs, stored, flat, -⟩
    exact ⟨logs, stored, flat⟩
  · exact id
  · intro done session rest history split held
    rcases held with ⟨logs, stored, flat, length⟩
    have single : recordCount [session] = session.records.length := List.sum_singleton
    apply (Session.run_stored readDir stored session).mono
    · intro next added
      rcases added with ⟨logs', nextStored, nextFlat, nextLength⟩
      refine ⟨logs', nextStored, ?_, ?_⟩
      · rw [nextFlat, flat, logOf_concat]
      · rw [recordCount_append, single, List.length_append, List.length_singleton]
        omega
    · intro full
      have total : sessions.length + recordCount sessions =
          done.length + 1 + rest.length +
            (recordCount done + session.records.length + recordCount rest) := by
        rw [split, ← List.singleton_append, recordCount_append, recordCount_append, single]
        simp only [List.length_append, List.length_singleton]
        omega
      omega

/-! ## When the numbers increase -/

/-- The numbers of a log increase. -/
def Increasing (log : List (UInt64 × WalRecord)) : Prop :=
  log.Pairwise fun earlier later => earlier.1 < later.1

theorem increasing_numbered {start : UInt64} {records : List WalRecord}
    (fits : start.toNat + records.length ≤ 2 ^ 64) : Increasing (numbered start records) := by
  induction records generalizing start with
  | nil => exact .nil
  | cons record records ih =>
      rw [List.length_cons] at fits
      cases records with
      | nil => exact List.pairwise_singleton _ _
      | cons second records =>
          have next : (start + 1).toNat = start.toNat + 1 := by
            rw [List.length_cons] at fits
            exact toNat_add_one (by omega)
          have restFits : (start + 1).toNat + (second :: records).length ≤ 2 ^ 64 := by
            omega
          refine List.pairwise_cons.mpr ⟨?_, ih restFits⟩
          intro later member
          have above := (toNat_of_mem_numbered restFits member).1
          rw [next] at above
          exact UInt64.lt_iff_toNat_lt.mpr above

/-- Behind a number that has wrapped to zero there is no increase. -/
theorem not_increasing_of_wrapped {front back : List WalRecord}
    (wraps : 1 + UInt64.ofNat front.length = 0) (before : front ≠ []) (behind : back ≠ []) :
    ¬Increasing (numbered 1 (front ++ back)) := by
  intro increasing
  rw [numbered_append, wraps] at increasing
  cases front with
  | nil => exact before rfl
  | cons first front =>
      cases back with
      | nil => exact behind rfl
      | cons wrapped back =>
          have less := (List.pairwise_append.mp increasing).2.2 _ List.mem_cons_self _
            List.mem_cons_self
          exact absurd less (UInt64.not_lt_zero)

/-- The numbers of one session increase until they wrap. -/
theorem increasing_numbered_iff {records : List WalRecord} :
    Increasing (numbered 1 records) ↔ records.length < 2 ^ 64 := by
  constructor
  · intro increasing
    by_contra long
    have size : (records.take (2 ^ 64 - 1)).length = 2 ^ 64 - 1 :=
      List.length_take_of_le (by omega)
    have wrapped : ¬Increasing (numbered 1 (records.take (2 ^ 64 - 1) ++
        records.drop (2 ^ 64 - 1))) := by
      apply not_increasing_of_wrapped
      · rw [size]
        decide
      · apply List.ne_nil_of_length_pos
        omega
      · apply List.ne_nil_of_length_pos
        rw [List.length_drop]
        omega
    rw [List.take_append_drop] at wrapped
    exact wrapped increasing
  · intro fits
    apply increasing_numbered
    rw [UInt64.toNat_one]
    omega

/-- The sessions that append any record. -/
def appending (sessions : List Session) : List Session :=
  sessions.filter fun session => session.records ≠ []

theorem appending_cons (session : Session) (sessions : List Session) :
    appending (session :: sessions) =
      if session.records = [] then appending sessions else session :: appending sessions := by
  by_cases idle : session.records = [] <;> simp [appending, idle]

/-- Sessions that append nothing leave no trace in the log. -/
theorem logOf_appending (sessions : List Session) :
    logOf (appending sessions) = logOf sessions := by
  induction sessions with
  | nil => rfl
  | cons session sessions ih =>
      have split : logOf (session :: sessions) =
          numbered 1 session.records ++ logOf sessions := List.flatMap_cons
      rw [appending_cons, split]
      by_cases idle : session.records = []
      · rw [if_pos idle, idle, ih]
        rfl
      · rw [if_neg idle, ← ih]
        exact List.flatMap_cons

theorem recordCount_appending (sessions : List Session) :
    recordCount (appending sessions) = recordCount sessions := by
  induction sessions with
  | nil => rfl
  | cons session sessions ih =>
      have split : recordCount (session :: sessions) =
          session.records.length + recordCount sessions := List.sum_cons
      rw [appending_cons, split]
      by_cases idle : session.records = []
      · rw [if_pos idle, idle, ih, List.length_nil, Nat.zero_add]
      · rw [if_neg idle, ← ih]
        exact List.sum_cons

/-- Two sessions that append both start at `1`. -/
theorem not_increasing_of_two {first second : Session} (firstBusy : first.records ≠ [])
    (secondBusy : second.records ≠ []) (rest : List Session) :
    ¬Increasing (logOf (first :: second :: rest)) := by
  intro increasing
  rw [logOf, List.flatMap_cons, List.flatMap_cons] at increasing
  cases firstRecords : first.records with
  | nil => exact firstBusy firstRecords
  | cons firstRecord _ =>
      cases secondRecords : second.records with
      | nil => exact secondBusy secondRecords
      | cons secondRecord _ =>
          rw [firstRecords, secondRecords] at increasing
          have less := (List.pairwise_append.mp increasing).2.2 _ List.mem_cons_self _
            List.mem_cons_self
          exact absurd less (UInt64.lt_irrefl 1)

/-- The numbers of a series of sessions increase as long as at most one of them has
appended, and its numbers have not wrapped. -/
theorem increasing_logOf_iff (sessions : List Session) :
    Increasing (logOf sessions) ↔
      (appending sessions).length ≤ 1 ∧ recordCount sessions < 2 ^ 64 := by
  have busy : ∀ session ∈ appending sessions, session.records ≠ [] := by
    intro session member
    exact of_decide_eq_true (List.mem_filter.mp member).2
  rw [← logOf_appending, ← recordCount_appending]
  match appending sessions, busy with
  | [], _ => exact ⟨fun _ => ⟨Nat.zero_le 1, by decide⟩, fun _ => .nil⟩
  | [session], _ =>
      have log : logOf [session] = numbered 1 session.records := List.flatMap_singleton ..
      have count : recordCount [session] = session.records.length := List.sum_singleton
      rw [log, count, increasing_numbered_iff, List.length_singleton]
      exact (and_iff_right (Nat.le_refl 1)).symm
  | first :: second :: rest, busy =>
      have twice : ¬Increasing (logOf (first :: second :: rest)) :=
        not_increasing_of_two (busy first List.mem_cons_self)
          (busy second (List.mem_cons_of_mem _ List.mem_cons_self)) rest
      constructor
      · intro increasing
        exact absurd increasing twice
      · intro few
        exact absurd few.1 (by simp)

/-! ## Recovery markers -/

/-- In an increasing list, what is above an entry is what stands behind it. -/
theorem filter_above {entries before after : List (Sequence × WalRecord)}
    {marker : Sequence × WalRecord}
    (increasing : entries.Pairwise fun earlier later => earlier.1 < later.1)
    (split : entries = before ++ marker :: after) :
    (entries.filter fun entry => marker.1 < entry.1) = after := by
  rw [split] at increasing ⊢
  rcases List.pairwise_append.mp increasing with ⟨-, tail, across⟩
  have below : (before.filter fun entry => marker.1 < entry.1) = [] := by
    apply List.filter_eq_nil_iff.mpr
    intro entry member
    simpa using le_of_lt (across entry member marker List.mem_cons_self)
  have above : (after.filter fun entry => marker.1 < entry.1) = after := by
    apply List.filter_eq_self.mpr
    intro entry member
    exact decide_eq_true ((List.pairwise_cons.mp tail).1 entry member)
  rw [List.filter_append, List.filter_cons, below, above]
  simp

theorem increasing_map_entryOf (log : List (UInt64 × WalRecord)) :
    ((log.map entryOf).Pairwise fun earlier later => earlier.1 < later.1) ↔
      Increasing log := by
  rw [List.pairwise_map]
  exact Iff.rfl

/-- Stored records are all delivered in the order of their appends, so all depends on
their numbers. -/
theorem History.Stored.recoverable_iff (readDir : ReadDir)
    (stored : history.Stored crc32c logs) :
    history.Recoverable crc32c readDir ↔ Increasing logs.flatten := by
  have delivered := stored.segments.forEachRecordDir stored.room readDir
  rw [← stored.appended] at delivered
  have numbers := increasing_map_entryOf logs.flatten
  rw [← stored.appended] at numbers
  constructor
  · intro recoverable
    rcases recoverable with ⟨entries, -, same, increasing, -⟩
    rw [same] at increasing
    exact numbers.mp increasing
  · intro increasing
    exact ⟨history.appended, delivered, rfl, numbers.mpr increasing,
      fun _ _ _ split => filter_above (numbers.mpr increasing) split⟩

/-- A series of sessions keeps `wal_seq` usable as a recovery marker exactly if at most
one of them appends any record and appends fewer than `2 ^ 64`. A session can only
fail once all segment indices are in use. -/
theorem runSessions_recoverable_iff (crc32c : Bytes → UInt32) (readDir : ReadDir)
    (sessions : List Session) :
    match runSessions crc32c readDir sessions with
    | .ok history => history.Recoverable crc32c readDir ↔
        (appending sessions).length ≤ 1 ∧ recordCount sessions < 2 ^ 64
    | .error _ => 2 ^ 64 ≤ sessions.length + recordCount sessions := by
  have outcome := runSessions_stored crc32c readDir sessions
  cases ran : runSessions crc32c readDir sessions with
  | ok history =>
      rw [ran] at outcome
      rcases outcome with ⟨logs, stored, flat⟩
      simp only [stored.recoverable_iff readDir, flat]
      exact increasing_logOf_iff sessions
  | error error =>
      rw [ran] at outcome
      exact outcome

/-- Two sessions with one record each both number it `1`. -/
theorem runSessions_restarted :
    let readDir : ReadDir := ⟨id, fun _ => .refl _⟩
    let sessions : List Session :=
      [⟨64, [.append (.cancel (.new 1))]⟩, ⟨64, [.append (.cancel (.new 2))]⟩]
    ∃ history, runSessions Crc32c.checksum readDir sessions = .ok history ∧
      forEachRecordDir Crc32c.checksum readDir history.files =
        ([(.fromRaw 1, .cancel (.new 1)), (.fromRaw 1, .cancel (.new 2))], .ok ()) ∧
      ¬history.Recoverable Crc32c.checksum readDir := by
  intro readDir sessions
  have outcome := runSessions_stored Crc32c.checksum readDir sessions
  cases ran : runSessions Crc32c.checksum readDir sessions with
  | ok history =>
      rw [ran] at outcome
      rcases outcome with ⟨logs, stored, flat⟩
      refine ⟨history, rfl, ?_, ?_⟩
      · rw [stored.segments.forEachRecordDir stored.room readDir, flat]
        rfl
      · rw [stored.recoverable_iff readDir, flat]
        exact not_increasing_of_two (by decide) (by decide) []
  | error error =>
      rw [ran] at outcome
      have full : 2 ^ 64 ≤ sessions.length + recordCount sessions := outcome
      exact absurd full (by decide)

end Wal

end Bourse
