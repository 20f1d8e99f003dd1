import Bourse.Wal.Acts

/-!
# Sessions interrupted at any act

What holds of a directory after every single act of a session: in front of the file that is
being written there are only complete and synced segments of this session, and the
segments it found.  The acts of a call, all performed, leave the files of the writer.
-/

namespace Bourse

namespace Wal

/-- The name of the segment with so many segments in front of it. -/
def pathAt (count : Nat) : FileName := segmentPath (UInt64.ofNat count)

theorem updateFile_last {files : Directory} {path : FileName} (fresh : path ∉ files.map Prod.fst)
    (file : SegmentFile) (change : SegmentFile → SegmentFile) :
    updateFile (files ++ [(path, file)]) path change = files ++ [(path, change file)] := by
  have others : updateFile files path change = files := by
    induction files with
    | nil => rfl
    | cons other files ih =>
        rw [List.map_cons, List.mem_cons, not_or] at fresh
        rw [updateFile, List.map_cons, if_neg (Ne.symm fresh.1)]
        exact congrArg (other :: ·) (ih fresh.2)
  have appended : updateFile (files ++ [(path, file)]) path change =
      updateFile files path change ++ [(path, change file)] := by
    simp [updateFile]
  rw [appended, others]

/-- The world during a session that began in `base`: `closed` are the complete segments it
has left, with the logs `logs`, and `last` is the file it writes to. -/
structure Underway (crc32c : Bytes → UInt32) (base world : World) (closed : Directory)
    (logs : List (List (UInt64 × WalRecord))) (last : SegmentFile)
    (log : List (UInt64 × WalRecord)) (kept : Nat) : Prop where
  named : Named 0 base.files
  room : base.files.length + logs.length < 2 ^ 64
  segments : Segments crc32c base.files.length logs closed
  full : ∀ file ∈ closed, file.2.synced = file.2.bytes.length
  files : world.files = base.files ++ closed ++
    [(pathAt (base.files.length + logs.length), last)]
  holds : last.Holds crc32c log kept
  started : world.started = base.started ++ (logs.flatten ++ log).map entryOf
  committed : world.committed = base.committed ++ (logs.flatten ++ log.take kept).map entryOf
  pending : world.pending = (log.drop kept).map entryOf
  numbers : logs.flatten ++ log = numbered 1 ((logs.flatten ++ log).map Prod.snd)

/-- A point at which a session may be interrupted: before it has created a file, or while it
writes. -/
def Interruptible (crc32c : Bytes → UInt32) (base world : World) : Prop :=
  world = { base with pending := [] } ∨
    ∃ closed logs last log kept, Underway crc32c base world closed logs last log kept

variable {crc32c : Bytes → UInt32} {base world : World} {closed : Directory}
  {logs : List (List (UInt64 × WalRecord))} {last : SegmentFile}
  {log : List (UInt64 × WalRecord)} {kept : Nat}

theorem Underway.interruptible (underway : Underway crc32c base world closed logs last log kept) :
    Interruptible crc32c base world :=
  .inr ⟨closed, logs, last, log, kept, underway⟩

/-! ## One act -/

/-- The files of a session are named consecutively. -/
theorem Underway.closed_named (underway : Underway crc32c base world closed logs last log kept) :
    Named 0 (base.files ++ closed) := by
  apply underway.named.append
  rw [Nat.zero_add]
  exact underway.segments.named

/-- The name of the file being written is used once. -/
theorem Underway.fresh (underway : Underway crc32c base world closed logs last log kept) :
    pathAt (base.files.length + logs.length) ∉
      (base.files ++ closed).map Prod.fst := by
  have length : (base.files ++ closed).length = base.files.length + logs.length := by
    rw [List.length_append, underway.segments.length_eq]
  have free := underway.closed_named.path_fresh (by rw [length]; exact underway.room)
  rw [length] at free
  exact free

/-- Writing goes on behind what was written, as long as that is what the log prescribes. -/
theorem Underway.write (underway : Underway crc32c base world closed logs last log kept)
    (bytes : Bytes) (next : last.bytes ++ bytes <+: segmentHeader ++ frames crc32c log) :
    Underway crc32c base
      (world.act (.write (pathAt (base.files.length + logs.length)) bytes))
      closed logs { last with bytes := last.bytes ++ bytes } log kept :=
  { underway with
    files := by
      rw [World.act, underway.files]
      exact updateFile_last underway.fresh last fun file =>
        { file with bytes := file.bytes ++ bytes }
    holds := by
      rcases underway.holds with ⟨-, synced, within, durable⟩
      refine ⟨next, ?_, within, durable⟩
      rw [List.length_append]
      exact synced.trans (Nat.le_add_right _ _) }

theorem Underway.sync (underway : Underway crc32c base world closed logs last log kept) :
    Underway crc32c base
      (world.act (.sync (pathAt (base.files.length + logs.length))))
      closed logs { last with synced := last.bytes.length } log kept :=
  { underway with
    files := by
      rw [World.act, underway.files]
      exact updateFile_last underway.fresh last fun file =>
        { file with synced := file.bytes.length }
    holds := by
      rcases underway.holds with ⟨bytes, synced, within, durable⟩
      exact ⟨bytes, Nat.le_refl _, within, fun some => (durable some).trans synced⟩ }

/-- An append announces the next number. -/
theorem Underway.appending (underway : Underway crc32c base world closed logs last log kept)
    {seq : UInt64} (next : seq = 1 + UInt64.ofNat (logs.flatten ++ log).length)
    (record : WalRecord) :
    Underway crc32c base (world.act (.appending (.fromRaw seq, record))) closed logs last
      (log ++ [(seq, record)]) kept :=
  { underway with
    holds := by
      rcases underway.holds with ⟨bytes, synced, within, durable⟩
      refine ⟨?_, synced, ?_, ?_⟩
      · rw [frames_append, ← List.append_assoc]
        exact bytes.trans (List.prefix_append _ _)
      · rw [List.length_append]
        exact within.trans (Nat.le_add_right _ _)
      · rw [List.take_append_of_le_length within]
        exact durable
    started := by
      simp [World.act, underway.started, entryOf]
    committed := by
      rw [List.take_append_of_le_length underway.holds.within]
      exact underway.committed
    pending := by
      rw [List.drop_append_of_le_length underway.holds.within]
      simp [World.act, underway.pending, entryOf]
    numbers := by
      rw [← List.append_assoc, List.map_append, numbered_append, ← underway.numbers,
        List.length_map, ← next]
      rfl }

/-- A complete commit covers everything that was synced. -/
theorem Underway.commit (underway : Underway crc32c base world closed logs last log kept)
    (whole : last.bytes = segmentHeader ++ frames crc32c log)
    (synced : last.synced = last.bytes.length) :
    Underway crc32c base (world.act .committed) closed logs last log log.length :=
  { underway with
    holds := by
      rcases underway.holds with ⟨bytes, covered, -, -⟩
      refine ⟨bytes, covered, Nat.le_refl _, ?_⟩
      intro _
      rw [List.take_length, synced, whole]
    committed := by
      rw [World.act, underway.committed, underway.pending, List.take_length,
        List.append_assoc, ← List.map_append, List.append_assoc, List.take_append_drop]
    pending := by
      rw [List.drop_length]
      rfl }

/-- A new file behind a complete one. -/
theorem Underway.create (underway : Underway crc32c base world closed logs last log log.length)
    (whole : last.bytes = segmentHeader ++ frames crc32c log)
    (synced : last.synced = last.bytes.length)
    (room : base.files.length + (logs.length + 1) < 2 ^ 64) :
    Underway crc32c base
      (world.act (.create (pathAt (base.files.length + (logs.length + 1)))))
      (closed ++ [(pathAt (base.files.length + logs.length), last)])
      (logs ++ [log]) ⟨[], 0⟩ [] 0 where
  named := underway.named
  room := by
    rw [List.length_append, List.length_singleton]
    exact room
  segments := underway.segments.concat whole
  full := by
    intro file member
    rcases List.mem_append.mp member with earlier | new
    · exact underway.full file earlier
    · rw [List.mem_singleton.mp new]
      exact synced
  files := by
    rw [World.act, underway.files, List.length_append, List.length_singleton]
    simp
  holds := ⟨List.nil_prefix, Nat.le_refl 0, Nat.le_refl 0, fun some => absurd rfl some⟩
  started := by
    rw [List.flatten_append, List.flatten_singleton, List.append_nil]
    exact underway.started
  committed := by
    have committed := underway.committed
    rw [List.take_length] at committed
    rw [List.flatten_append, List.flatten_singleton, List.take_nil, List.append_nil]
    exact committed
  pending := by
    have pending := underway.pending
    rw [List.drop_length] at pending
    exact pending
  numbers := by
    rw [List.flatten_append, List.flatten_singleton, List.append_nil]
    exact underway.numbers

/-- The first file of a session. -/
theorem underway_create (crc32c : Bytes → UInt32) (named : Named 0 base.files)
    (room : base.files.length < 2 ^ 64) :
    Underway crc32c base
      (World.act { base with pending := [] } (.create (pathAt base.files.length)))
      [] [] ⟨[], 0⟩ [] 0 where
  named := named
  room := room
  segments := .nil
  full := by
    intro file none
    cases none
  files := by
    rw [List.append_nil]
    rfl
  holds := ⟨List.nil_prefix, Nat.le_refl 0, Nat.le_refl 0, fun some => absurd rfl some⟩
  started := (List.append_nil _).symm
  committed := (List.append_nil _).symm
  pending := rfl
  numbers := rfl

/-! ## Sequences of acts -/

/-- The rest of `create_segment` behind the creation. -/
theorem Underway.header (underway : Underway crc32c base world closed logs ⟨[], 0⟩ [] 0) :
    let path := pathAt (base.files.length + logs.length)
    let acts : List Act := [.write path (Bytes.ofU32 magic),
      .write path [segmentVersion, 0, 0, 0], .sync path]
    Throughout World.act (Interruptible crc32c base) world acts ∧
      Underway crc32c base (acts.foldl World.act world) closed logs newSegment [] 0 := by
  intro path acts
  have half := underway.write (Bytes.ofU32 magic) (by
    rw [List.nil_append, segmentHeader, List.append_assoc]
    exact List.prefix_append _ _)
  have whole := half.write [segmentVersion, 0, 0, 0] (List.prefix_append _ _)
  have synced := whole.sync
  exact ⟨⟨underway.interruptible, half.interruptible, whole.interruptible,
    synced.interruptible⟩, synced⟩

/-- A whole commit. -/
theorem Underway.committing (underway : Underway crc32c base world closed logs last log kept)
    (whole : last.bytes = segmentHeader ++ frames crc32c log) :
    let acts := commitActs (pathAt (base.files.length + logs.length))
    Throughout World.act (Interruptible crc32c base) world acts ∧
      Underway crc32c base (acts.foldl World.act world) closed logs
        { last with synced := last.bytes.length } log log.length := by
  intro acts
  have synced := underway.sync
  have committed := synced.commit whole rfl
  exact ⟨⟨underway.interruptible, synced.interruptible, committed.interruptible⟩, committed⟩

/-- The writes of an append. -/
theorem Underway.framing (underway : Underway crc32c base world closed logs last log kept)
    (whole : last.bytes = segmentHeader ++ frames crc32c log) {seq : UInt64}
    (next : seq = 1 + UInt64.ofNat (logs.flatten ++ log).length) (record : WalRecord) :
    let acts := frameActs crc32c (pathAt (base.files.length + logs.length)) seq record
    Throughout World.act (Interruptible crc32c base) world acts ∧
      Underway crc32c base (acts.foldl World.act world) closed logs
        { last with bytes := last.bytes ++ frame crc32c seq record }
        (log ++ [(seq, record)]) kept := by
  intro acts
  have target : segmentHeader ++ frames crc32c (log ++ [(seq, record)]) =
      last.bytes ++ frame crc32c seq record := by
    rw [frames_append, ← List.append_assoc, ← whole]
    simp [frames]
  have announced := underway.appending next record
  let size := Bytes.ofU32 (UInt32.ofNat (payload seq record).length)
  let sum := Bytes.ofU32 (crc32c (payload seq record))
  have sized := announced.write size (by
    rw [target]
    exact ⟨sum ++ payload seq record, by simp [frame, size, sum]⟩)
  have checked := sized.write sum (by
    rw [target]
    exact ⟨payload seq record, by simp [frame, size, sum]⟩)
  have written := checked.write (payload seq record) (by
    rw [target]
    exact ⟨[], by simp [frame, size, sum]⟩)
  refine ⟨⟨underway.interruptible, announced.interruptible, sized.interruptible,
    checked.interruptible, written.interruptible⟩, ?_⟩
  have same : last.bytes ++ size ++ sum ++ payload seq record =
      last.bytes ++ frame crc32c seq record := by
    simp [frame, size, sum]
  rw [← same]
  exact written

/-! ## Between two calls -/

/-- The world between two calls on a writer: the files are those of the writer, and its
current segment is whole. -/
structure AtRest (crc32c : Bytes → UInt32) (base world : World) (writer : WalWriter)
    (rotation : Rotation) (closed : Directory) (logs : List (List (UInt64 × WalRecord)))
    (log : List (UInt64 × WalRecord)) (kept : Nat) : Prop where
  underway : Underway crc32c base world closed logs writer.file log kept
  rotating : writer.rotation = some rotation
  others : rotation.others = base.files ++ closed
  path : rotation.path = pathAt (base.files.length + logs.length)
  nextIndex : base.files.length + (logs.length + 1) < 2 ^ 64 →
    rotation.nextIndex = UInt64.ofNat (base.files.length + (logs.length + 1))
  whole : writer.file.bytes = segmentHeader ++ frames crc32c log
  nextSeq : writer.nextSeq = 1 + UInt64.ofNat (logs.flatten ++ log).length

variable {writer : WalWriter} {rotation : Rotation}

/-- The next segment can be created unless all indices are in use. -/
theorem AtRest.taken_iff
    (rest : AtRest crc32c base world writer rotation closed logs log kept) :
    rotation.taken = true ↔ 2 ^ 64 ≤ base.files.length + (logs.length + 1) := by
  have length := rest.underway.segments.length_eq
  have named : Named 0 (base.files ++ closed ++ [(rotation.path, writer.file)]) := by
    apply rest.underway.closed_named.append
    rw [Nat.zero_add, List.length_append, length]
    exact named_cons.mpr ⟨rest.path, .nil⟩
  have names : rotation.others.map Prod.fst ++ [rotation.path] =
      (base.files ++ closed ++ [(rotation.path, writer.file)]).map Prod.fst := by
    simp [rest.others]
  have size : (base.files ++ closed ++ [(rotation.path, writer.file)]).length =
      base.files.length + (logs.length + 1) := by
    rw [List.length_append, List.length_append, length, List.length_singleton, Nat.add_assoc]
  rw [Rotation.taken, List.contains_iff_mem, names, ← size]
  constructor
  · intro taken
    by_contra free
    rw [Nat.not_le] at free
    rw [rest.nextIndex (by rw [← size]; exact free), ← size] at taken
    exact named.path_fresh free taken
  · intro full
    exact named.path_taken full _

/-- A call of `commit`. -/
theorem AtRest.commit (rest : AtRest crc32c base world writer rotation closed logs log kept) :
    let acts := commitActs rotation.path
    Throughout World.act (Interruptible crc32c base) world acts ∧
      AtRest crc32c base (acts.foldl World.act world) writer.commit rotation closed logs log
        log.length := by
  have committed := rest.underway.committing rest.whole
  rw [← rest.path] at committed
  exact ⟨committed.1, committed.2, rest.rotating, rest.others, rest.path, rest.nextIndex,
    rest.whole, rest.nextSeq⟩

/-- The writes of an append to the current segment. -/
theorem AtRest.written (rest : AtRest crc32c base world writer rotation closed logs log kept)
    (record : WalRecord) :
    let acts := frameActs crc32c rotation.path writer.nextSeq record
    Throughout World.act (Interruptible crc32c base) world acts ∧
      AtRest crc32c base (acts.foldl World.act world)
        (writer.written crc32c writer.nextSeq record) rotation closed logs
        (log ++ [(writer.nextSeq, record)]) kept := by
  have framed := rest.underway.framing rest.whole rest.nextSeq record
  rw [← rest.path] at framed
  refine ⟨framed.1, framed.2, rest.rotating, rest.others, rest.path, rest.nextIndex, ?_, ?_⟩
  · simp [WalWriter.written, rest.whole, frames]
  · rw [← List.append_assoc, List.length_append, List.length_singleton, UInt64.ofNat_add,
      ← UInt64.add_assoc, ← rest.nextSeq]
    rfl

/-! ## Rotation -/

/-- The directory of a writer that has created the next segment behind `file`. -/
def Rotation.rolled (rotation : Rotation) (file : SegmentFile) : Rotation :=
  { rotation with
    others := rotation.others ++ [(rotation.path, file)]
    path := segmentPath rotation.nextIndex
    nextIndex := rotation.nextIndex + 1 }

/-- The writer once it has created the next segment. -/
def WalWriter.rolled (writer : WalWriter) (rotation : Rotation) : WalWriter :=
  { writer with
    file := newSegment
    bytesWritten := 8
    rotation := some (rotation.rolled writer.commit.file) }

theorem WalWriter.rotate_eq (rotating : writer.rotation = some rotation) :
    writer.rotate =
      if rotation.taken then .error (.io .alreadyExists) else .ok (writer.rolled rotation) := by
  have committed : writer.commit.rotation = some rotation := rotating
  simp only [WalWriter.rotate, committed, createSegment, Rotation.taken, List.map_append,
    List.map_cons, List.map_nil, List.contains_iff_mem]
  split <;> rfl

/-- A rotation that finds a free name. -/
theorem AtRest.rolled (rest : AtRest crc32c base world writer rotation closed logs log kept)
    (free : ¬rotation.taken) :
    let acts := commitActs rotation.path ++ createSegmentActs (segmentPath rotation.nextIndex)
    Throughout World.act (Interruptible crc32c base) world acts ∧
      AtRest crc32c base (acts.foldl World.act world) (writer.rolled rotation)
        (rotation.rolled writer.commit.file) (closed ++ [(rotation.path, writer.commit.file)])
        (logs ++ [log]) [] 0 := by
  have room : base.files.length + (logs.length + 1) < 2 ^ 64 := by
    rw [rest.taken_iff] at free
    omega
  have path : segmentPath rotation.nextIndex =
      pathAt (base.files.length + (logs.length + 1)) := by
    rw [rest.nextIndex room]
    rfl
  have lengths : (logs ++ [log]).length = logs.length + 1 := by
    rw [List.length_append, List.length_singleton]
  have committed := rest.commit
  have created := committed.2.underway.create rest.whole rfl room
  have headed := created.header
  rw [lengths, ← path, ← rest.path] at headed
  intro acts
  have split : acts.foldl World.act world = (createSegmentActs (segmentPath
      rotation.nextIndex)).foldl World.act ((commitActs rotation.path).foldl World.act world) :=
    List.foldl_append
  rw [split]
  refine ⟨committed.1.append ⟨committed.2.underway.interruptible, headed.1⟩, headed.2, rfl,
    ?_, ?_, ?_, ?_, ?_⟩
  · rw [Rotation.rolled, rest.others, List.append_assoc]
  · rw [lengths]
    exact path
  · intro _
    rw [lengths, Rotation.rolled, rest.nextIndex room]
    exact (UInt64.ofNat_add _ 1).symm
  · exact (List.append_nil segmentHeader).symm
  · rw [List.flatten_append, List.flatten_singleton, List.append_nil]
    exact rest.nextSeq

/-- A rotation that finds no free name fails behind its commit. -/
theorem AtRest.rotateFailed
    (rest : AtRest crc32c base world writer rotation closed logs log kept)
    (taken : rotation.taken) :
    let acts := commitActs rotation.path
    Throughout World.act (Interruptible crc32c base) world acts ∧
      AtRest crc32c base (acts.foldl World.act world) writer.rotateFailed
        { rotation with nextIndex := rotation.nextIndex + 1 } closed logs log log.length := by
  have committed := rest.commit
  have full := rest.taken_iff.mp taken
  refine ⟨committed.1, committed.2.underway, ?_, rest.others, rest.path, ?_, rest.whole,
    rest.nextSeq⟩
  · rw [WalWriter.rotateFailed, rest.rotating]
    rfl
  · intro room
    exact absurd room (Nat.not_lt.mpr full)

/-! ## Whole sessions -/

/-- The world between two calls on a writer that has left at most `count` segments. -/
def Ready (crc32c : Bytes → UInt32) (base : World) (count : Nat) (world : World)
    (writer : WalWriter) : Prop :=
  ∃ rotation closed logs log kept, logs.length ≤ count ∧
    AtRest crc32c base world writer rotation closed logs log kept

theorem Ready.interruptible {count : Nat} (ready : Ready crc32c base count world writer) :
    Interruptible crc32c base world := by
  rcases ready with ⟨_, _, _, _, _, _, rest⟩
  exact rest.underway.interruptible

/-- The files are those of the writer. -/
theorem Ready.files {count : Nat} (ready : Ready crc32c base count world writer) :
    world.files = writer.files := by
  rcases ready with ⟨rotation, closed, logs, log, kept, -, rest⟩
  rw [rest.underway.files, ← rest.path, ← rest.others]
  simp only [WalWriter.files, rest.rotating]

/-- The record that an act announces. -/
def Act.record? : Act → Option WalRecord
  | .appending entry => some entry.2
  | _ => none

/-- The records whose append the acts begin. -/
def announced (acts : List Act) : List WalRecord := acts.filterMap Act.record?

theorem announced_append (acts more : List Act) :
    announced (acts ++ more) = announced acts ++ announced more :=
  List.filterMap_append

/-- What is said of the acts of a call, and of a list of calls: wherever they are
interrupted the files are in order, at their end the writer is ready again, they announce
what is appended, and that is all of `records` unless all indices are in use. -/
structure Performs (crc32c : Bytes → UInt32) (base : World) (count : Nat) (world : World)
    (acts : List Act) (records appended : List WalRecord) (next : WalWriter) : Prop where
  throughout : Throughout World.act (Interruptible crc32c base) world acts
  ready : Ready crc32c base (count + records.length) (acts.foldl World.act world) next
  announced : announced acts = appended
  all : base.files.length + (count + records.length) < 2 ^ 64 → appended = records

variable {count : Nat}

/-- What an append can do: fail to rotate, write to a new segment, or write to the current
one. -/
theorem append_cases (crc32c : Bytes → UInt32) (rotating : writer.rotation = some rotation)
    (record : WalRecord) :
    let acts := (Op.append record).acts crc32c writer
    let next := (Op.append record).next crc32c writer
    let appended := (Op.append record).appended crc32c writer
    rotation.taken ∧ acts = commitActs rotation.path ∧ next = writer.rotateFailed ∧
        appended = [] ∨
      ¬rotation.taken ∧
        acts = commitActs rotation.path ++ createSegmentActs (segmentPath rotation.nextIndex) ++
          frameActs crc32c (segmentPath rotation.nextIndex) writer.nextSeq record ∧
        next = (writer.rolled rotation).written crc32c writer.nextSeq record ∧
        appended = [record] ∨
      acts = frameActs crc32c rotation.path writer.nextSeq record ∧
        next = writer.written crc32c writer.nextSeq record ∧ appended = [record] := by
  simp only [Op.acts, rotating, WalWriter.appendActs, Op.next, Op.appended, append_eq]
  by_cases must : writer.mustRotate (8 + UInt64.ofNat (payload writer.nextSeq record).length)
  · simp only [if_pos must, WalWriter.rotate_eq rotating]
    by_cases taken : rotation.taken
    · simp only [if_pos taken, List.append_nil]
      exact .inl ⟨taken, trivial, rfl, rfl⟩
    · simp only [if_neg taken, ← List.append_assoc]
      exact .inr (.inl ⟨taken, trivial, rfl, rfl⟩)
  · simp only [if_neg must]
    exact .inr (.inr ⟨trivial, rfl, rfl⟩)

/-- The acts of one call. -/
theorem Ready.step (ready : Ready crc32c base count world writer) (op : Op) :
    Performs crc32c base count world (op.acts crc32c writer) (recordsOf [op])
      (op.appended crc32c writer) (op.next crc32c writer) := by
  rcases ready with ⟨rotation, closed, logs, log, kept, few, rest⟩
  cases op with
  | commit =>
      have committed := rest.commit
      have acts : Op.commit.acts crc32c writer = commitActs rotation.path := by
        rw [Op.acts, rest.rotating]
      rw [acts]
      exact ⟨committed.1, ⟨_, _, _, _, _, few, committed.2⟩, rfl, fun _ => rfl⟩
  | append record =>
      have one : (recordsOf [Op.append record]).length = 1 := rfl
      rcases append_cases crc32c rest.rotating record with
        ⟨taken, acts, next, appended⟩ | ⟨free, acts, next, appended⟩ | ⟨acts, next, appended⟩
      · -- `rotate` fails behind its commit, and so will every later one.
        have failed := rest.rotateFailed taken
        have full := rest.taken_iff.mp taken
        rw [acts, next, appended]
        exact ⟨failed.1, ⟨_, _, _, _, _, few.trans (Nat.le_add_right _ _), failed.2⟩, rfl,
          fun room => by omega⟩
      · have rolled := rest.rolled free
        have written := rolled.2.written record
        have grown : (logs ++ [log]).length ≤ count + 1 := by
          rw [List.length_append]
          exact Nat.add_le_add_right few 1
        rw [acts, next, appended]
        refine ⟨rolled.1.append written.1, ?_, rfl, fun _ => rfl⟩
        rw [List.foldl_append]
        exact ⟨_, _, _, _, _, grown, written.2⟩
      · have written := rest.written record
        rw [acts, next, appended]
        exact ⟨written.1, ⟨_, _, _, _, _, few.trans (Nat.le_add_right _ _), written.2⟩, rfl,
          fun _ => rfl⟩

/-- The acts of a list of calls. -/
theorem Ready.run (ready : Ready crc32c base count world writer) (ops : List Op) :
    Performs crc32c base count world (opActs crc32c writer ops) (recordsOf ops)
      (opsAppended crc32c writer ops) (ops.foldl (Op.next crc32c) writer) := by
  induction ops generalizing world writer count with
  | nil => exact ⟨ready.interruptible, ready, rfl, fun _ => rfl⟩
  | cons op ops ih =>
      have first := ready.step op
      have later := ih first.ready
      have records : recordsOf (op :: ops) = recordsOf [op] ++ recordsOf ops :=
        recordsOf_append [op] ops
      have acts : opActs crc32c writer (op :: ops) =
          op.acts crc32c writer ++ opActs crc32c (op.next crc32c writer) ops := rfl
      have appended : opsAppended crc32c writer (op :: ops) =
          op.appended crc32c writer ++ opsAppended crc32c (op.next crc32c writer) ops := rfl
      rw [records, acts, appended]
      refine ⟨first.throughout.append later.throughout, ?_, ?_, ?_⟩
      · rw [List.length_append, ← Nat.add_assoc, List.foldl_append]
        exact later.ready
      · rw [announced_append, first.announced, later.announced]
      · intro room
        rw [List.length_append] at room
        rw [first.all (by omega), later.all (by omega)]

/-- Opening a directory whose files have consecutive names. -/
theorem openDir_ready (crc32c : Bytes → UInt32) (readDir : ReadDir) (named : Named 0 base.files)
    (room : base.files.length ≤ 2 ^ 64) (maxSegmentBytes : UInt64) :
    Ensures (openDir readDir base.files maxSegmentBytes)
      (fun writer => ∃ rotation, writer.rotation = some rotation ∧
        let acts := createSegmentActs rotation.path
        let start := { base with pending := [] }
        Throughout World.act (Interruptible crc32c base) start acts ∧
          Ready crc32c base 0 (acts.foldl World.act start) writer)
      (2 ^ 64 ≤ base.files.length) := by
  have index := named.nextSegmentIndex room (readDir.perm base.files)
  simp only [openDir, index]
  apply named.createSegment.bind
  intro created free
  have opened := underway_create crc32c named free.2
  have headed := opened.header
  rw [free.1]
  refine ⟨_, rfl, ⟨.inl rfl, headed.1⟩, _, [], [], [], 0, Nat.le_refl 0, headed.2, rfl,
    ?_, rfl, ?_, ?_, rfl⟩
  · exact (List.append_nil _).symm
  · intro _
    exact (UInt64.ofNat_add _ 1).symm
  · exact (List.append_nil segmentHeader).symm

/-- The acts of a session. If all indices are in use there are none. -/
theorem sessionActs_performs (crc32c : Bytes → UInt32) (readDir : ReadDir)
    (named : Named 0 base.files) (room : base.files.length ≤ 2 ^ 64) (session : Session) :
    let acts := sessionActs crc32c readDir base.files session
    let appended := session.appended crc32c readDir base.files
    acts = [] ∧ appended = [] ∧ 2 ^ 64 ≤ base.files.length ∨
      ∃ next, Performs crc32c base 0 { base with pending := [] } acts session.records appended
        next := by
  have opened := openDir_ready crc32c readDir named room session.maxSegmentBytes
  simp only [sessionActs, Session.appended]
  cases result : openDir readDir base.files session.maxSegmentBytes with
  | error error =>
      rw [result] at opened
      exact .inl ⟨rfl, rfl, opened⟩
  | ok writer =>
      rw [result] at opened
      rcases opened with ⟨rotation, rotating, created, ready⟩
      have ran := ready.run session.ops
      refine .inr ⟨session.ops.foldl (Op.next crc32c) writer, ?_⟩
      simp only [rotating]
      refine ⟨created.append ran.throughout, ?_, ?_, ?_⟩
      · rw [List.foldl_append]
        exact ran.ready
      · exact ran.announced
      · exact ran.all

/-- A session that is not interrupted leaves the files of its writer. -/
theorem sessionActs_files (crc32c : Bytes → UInt32) (readDir : ReadDir)
    (named : Named 0 base.files) (room : base.files.length ≤ 2 ^ 64) {session : Session}
    (opened : openDir readDir base.files session.maxSegmentBytes = .ok writer) :
    ((sessionActs crc32c readDir base.files session).foldl World.act
      { base with pending := [] }).files =
        (session.ops.foldl (Op.next crc32c) writer).files := by
  have outcome := openDir_ready crc32c readDir named room session.maxSegmentBytes
  rw [opened] at outcome
  rcases outcome with ⟨rotation, rotating, -, ready⟩
  simp only [sessionActs, opened, rotating, List.foldl_append]
  exact (ready.run session.ops).ready.files

end Wal

end Bourse
