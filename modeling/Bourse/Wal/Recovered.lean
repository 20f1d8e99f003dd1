import Mathlib.Data.List.Forall2
import Mathlib.Data.List.Induction
import Bourse.Wal.Interrupted

/-!
# What is recovered after crashes

After a crash of one session on an empty directory, `for_each_record_dir` delivers a prefix
of the appended records that contains every committed one.  Over several sessions it
delivers every committed record as long as no crash leaves a segment without its header;
such a segment is never written again, and stops every later reading.
-/

namespace Bourse

namespace Wal

variable {crc32c : Bytes → UInt32} {base world : World} {closed : Directory}
  {logs : List (List (UInt64 × WalRecord))} {last : SegmentFile}
  {log : List (UInt64 × WalRecord)} {kept : Nat}

/-! ## A crash -/

/-- What is synced as a whole survives as a whole. -/
theorem SegmentFile.cut_full {file : SegmentFile} (full : file.synced = file.bytes.length)
    (reached : Nat) : file.cut reached = file := by
  have whole : file.bytes.take (max file.synced reached) = file.bytes := by
    apply List.take_of_length_le
    rw [full]
    exact Nat.le_max_left _ _
  rw [SegmentFile.cut, whole]

theorem World.crash_length (kept : FileName → Nat) (world : World) :
    (world.crash kept).files.length = world.files.length :=
  List.length_map _

theorem Named.crash {world : World} (named : Named 0 world.files) (kept : FileName → Nat) :
    Named 0 (world.crash kept).files := by
  rw [Named, World.crash_length, ← named]
  simp [World.crash]

/-- A crash during a session is a crash of the directory it found, with the file being
written cut somewhere. -/
theorem Underway.crash (underway : Underway crc32c base world closed logs last log kept)
    (reached : FileName → Nat) :
    Underway crc32c (base.crash reached) (world.crash reached) closed logs
      (last.cut (reached (pathAt (base.files.length + logs.length)))) log kept where
  named := underway.named.crash reached
  room := by
    rw [World.crash_length]
    exact underway.room
  segments := by
    rw [World.crash_length]
    exact underway.segments
  full := underway.full
  files := by
    have untouched : closed.map (fun file => (file.1, file.2.cut (reached file.1))) =
        closed.map id := by
      apply List.map_congr_left
      intro file member
      rw [SegmentFile.cut_full (underway.full file member)]
      rfl
    rw [World.crash_length, World.crash, underway.files]
    simp only [World.crash, List.map_append, untouched, List.map_id, List.map_cons, List.map_nil]
  holds := underway.holds.cut _
  started := underway.started
  committed := underway.committed
  pending := underway.pending
  numbers := underway.numbers

/-- An interrupted session that crashes. -/
theorem Interruptible.crash (interruptible : Interruptible crc32c base world)
    (reached : FileName → Nat) :
    Interruptible crc32c (base.crash reached) (world.crash reached) := by
  rcases interruptible with rfl | ⟨closed, logs, last, log, kept, underway⟩
  · exact .inl rfl
  · exact (underway.crash reached).interruptible

/-- The directory as an attempt finds it, with what a crash of the attempt takes from it. -/
def Attempt.found (world : World) (attempt : Attempt) : World :=
  match attempt.crash with
  | none => world
  | some crash => world.crash crash.kept

/-- Wherever an attempt ends, its session was interrupted. -/
theorem Attempt.run_interruptible (crc32c : Bytes → UInt32) (readDir : ReadDir)
    (named : Named 0 world.files) (room : world.files.length ≤ 2 ^ 64) (attempt : Attempt) :
    Interruptible crc32c (attempt.found world) (attempt.run crc32c readDir world) := by
  have throughout : Throughout World.act (Interruptible crc32c world) { world with pending := [] }
      (sessionActs crc32c readDir world.files attempt.session) := by
    rcases sessionActs_performs crc32c readDir named room attempt.session with
      ⟨none, -, -⟩ | ⟨next, performs⟩
    · rw [none]
      exact .inl rfl
    · exact performs.throughout
  rcases attempt with ⟨session, _ | crash⟩
  · have ended := throughout.interrupted
      (sessionActs crc32c readDir world.files session).length
    rw [List.take_length] at ended
    exact ended
  · exact (throughout.interrupted crash.acts).crash crash.kept

/-! ## Commits -/

/-- What is committed stays committed. -/
theorem foldl_act_committed (acts : List Act) (world : World) :
    world.committed <+: (acts.foldl World.act world).committed := by
  induction acts generalizing world with
  | nil => exact ⟨[], List.append_nil _⟩
  | cons act acts ih =>
      have first : world.committed <+: (world.act act).committed := by
        cases act with
        | committed => exact List.prefix_append _ _
        | create path | write path bytes | sync path | appending entry =>
            exact ⟨[], List.append_nil _⟩
      exact first.trans (ih (world.act act))

/-- Every append that the acts announce is committed or waits for the next commit. -/
theorem foldl_act_pending (acts : List Act) (world : World) :
    ((acts.foldl World.act world).committed ++ (acts.foldl World.act world).pending).map
      Prod.snd = (world.committed ++ world.pending).map Prod.snd ++ announced acts := by
  induction acts generalizing world with
  | nil => exact (List.append_nil _).symm
  | cons act acts ih =>
      rw [List.foldl_cons, ih]
      cases act with
      | appending entry =>
          have head : announced (.appending entry :: acts) = entry.2 :: announced acts := rfl
          rw [World.act, head, ← List.append_assoc, List.map_append, List.append_assoc]
          rfl
      | committed =>
          rw [World.act, List.append_nil]
          rfl
      | create path | write path bytes | sync path => rfl

theorem opActs_append (writer : WalWriter) (ops more : List Op) :
    opActs crc32c writer (ops ++ more) =
      opActs crc32c writer ops ++ opActs crc32c (ops.foldl (Op.next crc32c) writer) more := by
  induction ops generalizing writer with
  | nil => rfl
  | cons op ops ih =>
      rw [List.cons_append, opActs, opActs, ih, List.append_assoc]
      rfl

/-- More calls add acts behind those of the first. -/
theorem sessionActs_append (readDir : ReadDir) (files : Directory) (maxSegmentBytes : UInt64)
    (ops more : List Op) :
    sessionActs crc32c readDir files ⟨maxSegmentBytes, ops⟩ <+:
      sessionActs crc32c readDir files ⟨maxSegmentBytes, ops ++ more⟩ := by
  simp only [sessionActs]
  cases openDir readDir files maxSegmentBytes with
  | error error => exact List.prefix_append [] []
  | ok writer =>
      cases rotating : writer.rotation with
      | none =>
          simp only [rotating]
          exact List.prefix_append [] []
      | some rotation =>
          simp only [rotating, opActs_append, ← List.append_assoc]
          exact List.prefix_append _ _

/-- A call of `commit` behind others is a sync and the mark, if the directory can be
opened. -/
theorem sessionActs_commit (readDir : ReadDir) (named : Named 0 base.files)
    (room : base.files.length ≤ 2 ^ 64) (maxSegmentBytes : UInt64) (before : List Op) :
    let session : Session := ⟨maxSegmentBytes, before⟩
    let acts := sessionActs crc32c readDir base.files session
    announced acts = session.appended crc32c readDir base.files ∧
      (acts = [] ∨
        ∃ path, sessionActs crc32c readDir base.files ⟨maxSegmentBytes, before ++ [.commit]⟩ =
          acts ++ commitActs path) := by
  have opened := openDir_ready crc32c readDir named room maxSegmentBytes
  simp only [sessionActs, Session.appended]
  cases result : openDir readDir base.files maxSegmentBytes with
  | error error => exact ⟨rfl, .inl rfl⟩
  | ok writer =>
      rw [result] at opened
      rcases opened with ⟨rotation, rotating, -, ready⟩
      have ran := ready.run before
      rcases ran.ready with ⟨last, _, _, _, _, -, rest⟩
      simp only [rotating]
      refine ⟨ran.announced, .inr ⟨last.path, ?_⟩⟩
      simp only [opActs_append, opActs, Op.acts, rest.rotating, List.append_nil,
        List.append_assoc]

/-- The first calls of the session that have come back before the crash, if there is one. -/
def Attempt.Returned (crc32c : Bytes → UInt32) (readDir : ReadDir) (world : World)
    (attempt : Attempt) (ops : List Op) : Prop :=
  ops <+: attempt.session.ops ∧
    ∀ crash ∈ attempt.crash, (sessionActs crc32c readDir world.files
      ⟨attempt.session.maxSegmentBytes, ops⟩).length ≤ crash.acts

/-- The acts of the calls that have come back were performed first. -/
theorem Attempt.Returned.committed {readDir : ReadDir} {attempt : Attempt} {ops : List Op}
    (returned : attempt.Returned crc32c readDir world ops) :
    ((sessionActs crc32c readDir world.files ⟨attempt.session.maxSegmentBytes, ops⟩).foldl
      World.act { world with pending := [] }).committed <+:
        (attempt.run crc32c readDir world).committed := by
  rcases attempt with ⟨⟨maxSegmentBytes, calls⟩, crash⟩
  rcases returned with ⟨⟨more, rfl⟩, before⟩
  rcases sessionActs_append readDir world.files maxSegmentBytes ops more with ⟨later, acts⟩
  cases crash with
  | none =>
      simp only [Attempt.run]
      rw [← acts, List.foldl_append]
      exact foldl_act_committed later _
  | some crash =>
      simp only [Attempt.run, World.crash]
      rw [← acts, List.take_append, List.take_of_length_le (before crash rfl),
        List.foldl_append]
      exact foldl_act_committed _ _

/-- Every `commit` that has come back covers all records that the session has appended
before it. -/
theorem Attempt.run_commits (readDir : ReadDir) (named : Named 0 world.files)
    (room : world.files.length ≤ 2 ^ 64) {attempt : Attempt} {before : List Op}
    (returned : attempt.Returned crc32c readDir world (before ++ [.commit])) :
    let session : Session := ⟨attempt.session.maxSegmentBytes, before⟩
    world.committed.map Prod.snd ++ session.appended crc32c readDir world.files <+:
      (attempt.run crc32c readDir world).committed.map Prod.snd := by
  intro session
  have kept := returned.committed.map Prod.snd
  rcases sessionActs_commit readDir named room attempt.session.maxSegmentBytes before with
    ⟨announces, none | ⟨path, acts⟩⟩
  · rw [none] at announces
    rw [← announces, show announced [] = [] from rfl, List.append_nil]
    exact ((foldl_act_committed _ { world with pending := [] }).map Prod.snd).trans kept
  · -- The mark empties what is pending, so that all that was announced is committed.
    rw [acts, List.foldl_append] at kept
    have covered := foldl_act_pending (sessionActs crc32c readDir world.files session)
      { world with pending := [] }
    rw [List.append_nil, announces] at covered
    rw [← covered]
    exact kept

/-! ## One session -/

theorem forEachSegment_append {front : Directory} {delivered : List (Sequence × WalRecord)}
    (clean : forEachSegment crc32c front = (delivered, .ok ())) (back : Directory) :
    forEachSegment crc32c (front ++ back) =
      (delivered ++ (forEachSegment crc32c back).1, (forEachSegment crc32c back).2) := by
  induction front generalizing delivered with
  | nil =>
      cases clean
      rfl
  | cons file front ih =>
      rw [forEachSegment] at clean
      rw [List.cons_append, forEachSegment]
      rcases read : forEachRecord crc32c file.2.bytes with ⟨records, error | ⟨⟩⟩
      · rw [read] at clean
        cases clean
      · rw [read] at clean
        have split := Prod.mk.inj clean
        simp only at split ⊢
        rw [ih (Prod.ext rfl split.2), ← split.1, List.append_assoc]

theorem forEachSegment_singleton (path : FileName) (file : SegmentFile) :
    forEachSegment crc32c [(path, file)] = forEachRecord crc32c file.bytes := by
  rw [forEachSegment]
  rcases forEachRecord crc32c file.bytes with ⟨records, error | ⟨⟩⟩
  · rfl
  · exact Prod.ext (List.append_nil records) rfl

/-- Whatever is left of a segment, it delivers a prefix of its log with all that was
synced. -/
theorem SegmentFile.Holds.delivered {file : SegmentFile} (holds : file.Holds crc32c log kept) :
    ∃ count, kept ≤ count ∧ count ≤ log.length ∧
      (Wal.forEachRecord crc32c file.bytes).1 = (log.take count).map entryOf := by
  rcases Nat.lt_or_ge file.bytes.length 8 with headless | headed
  · rcases holds.refused headless with ⟨read, none⟩
    refine ⟨0, Nat.le_of_eq none, Nat.zero_le _, ?_⟩
    rw [read]
    rfl
  · rcases holds.forEachRecord headed with ⟨read, covers⟩
    exact ⟨_, covers, complete_le crc32c _ _, congrArg Prod.fst read⟩

/-- The files of a session and those it found have consecutive names. -/
theorem Underway.files_named (underway : Underway crc32c base world closed logs last log kept) :
    Named 0 world.files := by
  rw [underway.files]
  apply underway.closed_named.append
  rw [Nat.zero_add, List.length_append, underway.segments.length_eq]
  exact named_cons.mpr ⟨rfl, .nil⟩

theorem Underway.files_length (underway : Underway crc32c base world closed logs last log kept) :
    world.files.length ≤ 2 ^ 64 := by
  have room := underway.room
  rw [underway.files, List.length_append, List.length_append, underway.segments.length_eq,
    List.length_singleton]
  omega

/-- A session that found nothing leaves a prefix of its log, with all that was committed. -/
theorem Interruptible.recovered (interruptible : Interruptible crc32c World.empty world)
    (reader : ReadDir) :
    ∃ begun whole, whole ≤ begun.length ∧ world.started = (numbered 1 begun).map entryOf ∧
      (forEachRecordDir crc32c reader world.files).1 =
        (numbered 1 (begun.take whole)).map entryOf ∧
      world.committed <+: (forEachRecordDir crc32c reader world.files).1 := by
  rcases interruptible with rfl | ⟨closed, logs, last, log, kept, underway⟩
  · have nothing : forEachRecordDir crc32c reader World.empty.files = ([], .ok ()) :=
      Segments.nil.forEachRecordDir (Nat.zero_le _) reader
    refine ⟨[], 0, Nat.le_refl 0, rfl, ?_, List.nil_prefix⟩
    exact congrArg Prod.fst nothing
  · rcases underway.holds.delivered with ⟨count, covers, within, read⟩
    have delivered : (forEachRecordDir crc32c reader world.files).1 =
        (logs.flatten ++ log.take count).map entryOf := by
      rw [underway.files_named.forEachRecordDir crc32c underway.files_length, underway.files,
        show World.empty.files = [] from rfl, List.nil_append,
        forEachSegment_append underway.segments.forEachSegment, forEachSegment_singleton, read,
        List.map_append]
    refine ⟨(logs.flatten ++ log).map Prod.snd, logs.flatten.length + count, ?_, ?_, ?_, ?_⟩
    · rw [List.length_map, List.length_append]
      exact Nat.add_le_add_left within _
    · rw [← underway.numbers]
      exact underway.started
    · rw [← take_numbered, ← underway.numbers, List.take_length_add_append]
      exact delivered
    · rw [delivered, underway.committed]
      apply List.IsPrefix.map
      rw [List.prefix_append_right_inj]
      exact List.take_prefix_take_left covers

/-- The acts start the appends that they announce. -/
theorem foldl_act_started (acts : List Act) (world : World) :
    (acts.foldl World.act world).started.map Prod.snd =
      world.started.map Prod.snd ++ announced acts := by
  induction acts generalizing world with
  | nil => exact (List.append_nil _).symm
  | cons act acts ih =>
      rw [List.foldl_cons, ih]
      cases act with
      | appending entry =>
          have head : announced (.appending entry :: acts) = entry.2 :: announced acts := rfl
          rw [World.act, head, List.map_append, List.append_assoc]
          rfl
      | create path | write path bytes | sync path | committed => rfl

/-- An attempt starts the appends that its session announces, in order. -/
theorem Attempt.run_started (crc32c : Bytes → UInt32) (readDir : ReadDir) (world : World)
    (attempt : Attempt) :
    ∃ begun, begun <+: announced (sessionActs crc32c readDir world.files attempt.session) ∧
      (attempt.run crc32c readDir world).started.map Prod.snd =
        world.started.map Prod.snd ++ begun := by
  rcases attempt with ⟨session, _ | crash⟩
  · exact ⟨_, List.prefix_refl _, foldl_act_started _ _⟩
  · exact ⟨_, (List.take_prefix _ _).filterMap _, foldl_act_started _ _⟩

/-- One session on an empty directory, whatever its segment size, its appends and commits, and
wherever it crashes, if it does. What `for_each_record_dir` hands to its callback, whether it
succeeds or not, are the first records that were appended, numbered from `1`, and among them
is every record that a complete commit covers; by `Attempt.run_commits` these include what was
appended before a call of `commit` that came back. An append can only fail when all segment
indices are in use, behind `2 ^ 64` appends. -/
theorem forEachRecordDir_crashed (crc32c : Bytes → UInt32) (readDir reader : ReadDir)
    (session : Session) (crash : Option Crash) :
    let world := Attempt.run crc32c readDir World.empty ⟨session, crash⟩
    let appended := session.appended crc32c readDir World.empty.files
    let delivered := (forEachRecordDir crc32c reader world.files).1
    (session.records.length < 2 ^ 64 → appended = session.records) ∧
      ∃ begun whole, begun <+: appended ∧ whole ≤ begun.length ∧
        world.started = (numbered 1 begun).map entryOf ∧
        delivered = (numbered 1 (begun.take whole)).map entryOf ∧
        world.committed <+: delivered := by
  intro world appended delivered
  have named : Named 0 World.empty.files := .nil
  have room : World.empty.files.length ≤ 2 ^ 64 := Nat.zero_le _
  have announces : announced (sessionActs crc32c readDir World.empty.files session) = appended ∧
      (session.records.length < 2 ^ 64 → appended = session.records) := by
    rcases sessionActs_performs crc32c readDir named room session with
      ⟨-, -, full⟩ | ⟨next, performs⟩
    · exact absurd full (by decide)
    · refine ⟨performs.announced, fun few => performs.all ?_⟩
      rw [Nat.zero_add, show World.empty.files.length = 0 from rfl, Nat.zero_add]
      exact few
  have found : (⟨session, crash⟩ : Attempt).found World.empty = World.empty := by
    cases crash <;> rfl
  have interruptible := Attempt.run_interruptible crc32c readDir named room ⟨session, crash⟩
  rw [found] at interruptible
  rcases interruptible.recovered reader with ⟨begun, whole, within, started, read, committed⟩
  rcases Attempt.run_started crc32c readDir World.empty ⟨session, crash⟩ with
    ⟨first, early, records⟩
  have same : begun = first := by
    have recorded : ((numbered 1 begun).map entryOf).map Prod.snd = begun := by
      rw [List.map_map]
      exact map_snd_numbered 1 begun
    rw [← recorded, ← started]
    exact records
  refine ⟨announces.2, begun, whole, ?_, within, started, read, committed⟩
  rw [same, ← announces.1]
  exact early

/-- A commit behind the third append, which has rotated, and a crash inside the fourth frame:
the three records are committed and delivered. -/
theorem forEachRecordDir_crashed_rotating :
    let readDir : ReadDir := ⟨id, fun _ => .refl _⟩
    let appends : List Op := [.append (.cancel (.new 7)), .append (.cancel (.new 8)),
      .append (.cancel (.new 9))]
    let session : Session := ⟨64, appends ++ [.commit, .append (.cancel (.new 10))]⟩
    let world := Attempt.run Crc32c.checksum readDir World.empty
      ⟨session, some ⟨27, fun _ => 40⟩⟩
    session.appended Crc32c.checksum readDir World.empty.files = session.records ∧
      world.files.map (fun file => file.2.bytes.length) = [60, 40] ∧
      recordsOf appends <+: world.committed.map Prod.snd ∧
      world.committed <+: (forEachRecordDir Crc32c.checksum readDir world.files).1 := by
  intro readDir appends session world
  rcases forEachRecordDir_crashed Crc32c.checksum readDir readDir session
    (some ⟨27, fun _ => 40⟩) with ⟨all, _, _, _, _, _, _, committed⟩
  refine ⟨all (by decide), by decide, ?_, committed⟩
  have returned : Attempt.Returned Crc32c.checksum readDir World.empty
      ⟨session, some ⟨27, fun _ => 40⟩⟩ (appends ++ [.commit]) := by
    refine ⟨⟨[.append (.cancel (.new 10))], rfl⟩, ?_⟩
    intro crash some
    cases some
    decide
  have appended : (⟨64, appends⟩ : Session).appended Crc32c.checksum readDir
      World.empty.files = recordsOf appends := by
    decide
  have covered := Attempt.run_commits readDir .nil (Nat.zero_le _) returned
  rw [← appended]
  exact covered

/-! ## Several sessions -/

/-- The logs of the files of a directory, each with the number of its committed records. -/
abbrev Parts := List (List (UInt64 × WalRecord) × Nat)

/-- The committed records of a directory. -/
def Parts.committed (parts : Parts) : List (UInt64 × WalRecord) :=
  parts.flatMap fun part => part.1.take part.2

/-- The records of a directory. -/
def Parts.started (parts : Parts) : List (UInt64 × WalRecord) :=
  parts.flatMap Prod.fst

/-- Logs that are committed as a whole. -/
def Parts.whole (logs : List (List (UInt64 × WalRecord))) : Parts :=
  logs.map fun log => (log, log.length)

/-- The files of a directory hold the given logs. -/
def HoldAll (crc32c : Bytes → UInt32) : Directory → Parts → Prop :=
  List.Forall₂ fun file part => file.2.Holds crc32c part.1 part.2

/-- The files of a world hold what was started and committed. -/
structure World.Stored (crc32c : Bytes → UInt32) (world : World) (parts : Parts) : Prop where
  named : Named 0 world.files
  room : world.files.length ≤ 2 ^ 64
  holds : HoldAll crc32c world.files parts
  started : world.started = parts.started.map entryOf
  committed : world.committed = parts.committed.map entryOf

/-- Every file of the directory has its header. -/
def Headed (files : Directory) : Prop :=
  ∀ file ∈ files, 8 ≤ file.2.bytes.length

variable {parts : Parts}

theorem Parts.started_append (parts more : Parts) :
    Parts.started (parts ++ more) = parts.started ++ more.started :=
  List.flatMap_append

theorem Parts.committed_append (parts more : Parts) :
    Parts.committed (parts ++ more) = parts.committed ++ more.committed :=
  List.flatMap_append

theorem Parts.started_whole (logs : List (List (UInt64 × WalRecord))) :
    (Parts.whole logs).started = logs.flatten := by
  rw [Parts.started, Parts.whole, List.flatMap_map]
  exact List.flatMap_id

theorem Parts.committed_whole (logs : List (List (UInt64 × WalRecord))) :
    (Parts.whole logs).committed = logs.flatten := by
  rw [Parts.committed, Parts.whole, List.flatMap_map]
  simp only [List.take_length]
  exact List.flatMap_id

/-- A crash loses no committed record. -/
theorem World.Stored.crash (stored : world.Stored crc32c parts) (reached : FileName → Nat) :
    (world.crash reached).Stored crc32c parts where
  named := stored.named.crash reached
  room := by
    rw [World.crash_length]
    exact stored.room
  holds := by
    apply List.forall₂_map_left_iff.mpr
    exact List.Forall₂.imp (fun _ _ held => held.cut _) stored.holds
  started := stored.started
  committed := stored.committed

/-- The segments that a session has closed are committed as a whole. -/
theorem Segments.holdAll {start : Nat} (segments : Segments crc32c start logs closed)
    (full : ∀ file ∈ closed, file.2.synced = file.2.bytes.length) :
    HoldAll crc32c closed (Parts.whole logs) := by
  induction segments with
  | nil => exact .nil
  | cons bytes rest ih =>
      refine .cons ⟨?_, ?_, ?_, ?_⟩
        (ih fun file member => full file (List.mem_cons_of_mem _ member))
      · exact bytes ▸ List.prefix_refl _
      · exact Nat.le_of_eq (full _ List.mem_cons_self)
      · exact Nat.le_refl _
      · intro _
        rw [full _ List.mem_cons_self, List.take_length, bytes]

/-- A session adds its files behind those it found. -/
theorem Underway.stored (underway : Underway crc32c base world closed logs last log kept)
    (found : base.Stored crc32c parts) :
    world.Stored crc32c (parts ++ (Parts.whole logs ++ [(log, kept)])) := by
  refine ⟨underway.files_named, underway.files_length, ?_, ?_, ?_⟩
  · rw [underway.files, List.append_assoc]
    apply List.rel_append found.holds
    exact List.rel_append (underway.segments.holdAll underway.full) (.cons underway.holds .nil)
  · rw [underway.started, found.started]
    rw [Parts.started_append, Parts.started_append, Parts.started_whole]
    simp [Parts.started]
  · rw [underway.committed, found.committed]
    rw [Parts.committed_append, Parts.committed_append, Parts.committed_whole]
    simp [Parts.committed]

/-- An attempt adds to what a directory holds and loses nothing committed. -/
theorem Attempt.run_stored (readDir : ReadDir) (stored : world.Stored crc32c parts)
    (attempt : Attempt) :
    ∃ grown, (attempt.run crc32c readDir world).Stored crc32c grown := by
  have found : (attempt.found world).Stored crc32c parts := by
    rcases attempt with ⟨session, _ | crash⟩
    · exact stored
    · exact stored.crash crash.kept
  rcases attempt.run_interruptible crc32c readDir stored.named stored.room with
    untouched | ⟨closed, logs, last, log, kept, underway⟩
  · rw [untouched]
    exact ⟨parts, found.named, found.room, found.holds, found.started, found.committed⟩
  · exact ⟨_, underway.stored found⟩

/-- Segments with their headers are read to the end, and deliver what is committed. -/
theorem HoldAll.forEachSegment {files : Directory} (holds : HoldAll crc32c files parts)
    (headed : Headed files) :
    ∃ delivered, forEachSegment crc32c files = (delivered, .ok ()) ∧
      (parts.committed.map entryOf).Sublist delivered ∧
      delivered.Sublist (parts.started.map entryOf) := by
  induction holds with
  | nil => exact ⟨[], rfl, .refl _, .refl _⟩
  | @cons file part files parts held rest ih =>
      rcases ih fun file member => headed file (List.mem_cons_of_mem _ member) with
        ⟨later, read, committed, started⟩
      rcases held.forEachRecord (headed file List.mem_cons_self) with ⟨first, covers⟩
      let whole := part.1.take (complete crc32c part.1 (file.2.bytes.length - 8))
      refine ⟨whole.map entryOf ++ later, ?_, ?_, ?_⟩
      · rw [Wal.forEachSegment, first, read]
      · rw [Parts.committed, List.flatMap_cons, List.map_append]
        exact ((List.take_sublist_take_left covers).map _).append committed
      · rw [Parts.started, List.flatMap_cons, List.map_append]
        exact ((List.take_sublist _ _).map _).append started

/-- A segment without its header stops the reading. -/
theorem HoldAll.headed {files : Directory} (holds : HoldAll crc32c files parts)
    (clean : (Wal.forEachSegment crc32c files).2 = .ok ()) : Headed files := by
  induction holds with
  | nil =>
      intro file none
      cases none
  | @cons file part files parts held rest ih =>
      rw [Wal.forEachSegment] at clean
      have first : 8 ≤ file.2.bytes.length := by
        by_contra short
        rw [(held.refused (Nat.lt_of_not_le short)).1] at clean
        cases clean
      rw [(held.forEachRecord first).1] at clean
      intro other member
      rcases List.mem_cons.mp member with same | later
      · rw [same]
        exact first
      · exact ih clean other later

/-- `for_each_record_dir` succeeds and delivers every committed record, in the order of
sessions and appends. -/
def World.Recovered (crc32c : Bytes → UInt32) (reader : ReadDir) (world : World) : Prop :=
  ∃ delivered, forEachRecordDir crc32c reader world.files = (delivered, .ok ()) ∧
    world.committed.Sublist delivered ∧ delivered.Sublist world.started

theorem World.Stored.recovered_iff (stored : world.Stored crc32c parts) (reader : ReadDir) :
    world.Recovered crc32c reader ↔ Headed world.files := by
  rw [World.Recovered, stored.named.forEachRecordDir crc32c stored.room, stored.committed,
    stored.started]
  constructor
  · intro recovered
    rcases recovered with ⟨delivered, read, -, -⟩
    apply stored.holds.headed
    rw [read]
  · exact stored.holds.forEachSegment

/-! ## Histories -/

/-- If the attempt ends in a crash, every segment file is left with its header. -/
def Attempt.LeavesHeaders (crc32c : Bytes → UInt32) (readDir : ReadDir) (world : World)
    (attempt : Attempt) : Prop :=
  attempt.crash.isSome → Headed (attempt.run crc32c readDir world).files

theorem headed_append {files more : Directory} :
    Headed (files ++ more) ↔ Headed files ∧ Headed more :=
  List.forall_mem_append

/-- The files that a session found stay as they are. -/
theorem Interruptible.headed (interruptible : Interruptible crc32c base world)
    (headed : Headed world.files) : Headed base.files := by
  rcases interruptible with rfl | ⟨closed, logs, last, log, kept, underway⟩
  · exact headed
  · rw [underway.files, List.append_assoc] at headed
    exact (headed_append.mp headed).1

theorem headed_of_crash {reached : FileName → Nat} (headed : Headed (world.crash reached).files) :
    Headed world.files := by
  intro file member
  have kept := headed _ (List.mem_map_of_mem member)
  exact kept.trans (List.length_take_le' _ _)

theorem header_le (log : List (UInt64 × WalRecord)) :
    8 ≤ (segmentHeader ++ frames crc32c log).length := by
  rw [List.length_append]
  exact Nat.le_add_right 8 _

theorem Segments.headed {start : Nat} (segments : Segments crc32c start logs closed) :
    Headed closed := by
  induction segments with
  | nil =>
      intro file none
      cases none
  | cons bytes rest ih =>
      refine List.forall_mem_cons.mpr ⟨?_, ih⟩
      rw [bytes]
      exact header_le _

/-- A session that does not crash leaves every segment it creates with its header. -/
theorem Ready.headed {count : Nat} {writer : WalWriter}
    (ready : Ready crc32c base count world writer) (headed : Headed base.files) :
    Headed world.files := by
  rcases ready with ⟨rotation, closed, logs, log, kept, -, rest⟩
  rw [rest.underway.files]
  refine headed_append.mpr ⟨headed_append.mpr ⟨headed, rest.underway.segments.headed⟩, ?_⟩
  intro file current
  rw [List.mem_singleton.mp current, rest.whole]
  exact header_le log

/-- A directory loses its last chance of being read with the first header that a crash
leaves incomplete. -/
theorem Attempt.run_headed_iff (readDir : ReadDir) (stored : world.Stored crc32c parts)
    (attempt : Attempt) :
    Headed (attempt.run crc32c readDir world).files ↔
      Headed world.files ∧ attempt.LeavesHeaders crc32c readDir world := by
  have interruptible := attempt.run_interruptible crc32c readDir stored.named stored.room
  constructor
  · intro headed
    refine ⟨?_, fun _ => headed⟩
    have found := interruptible.headed headed
    rcases attempt with ⟨session, _ | crash⟩
    · exact found
    · exact headed_of_crash found
  · intro kept
    rcases attempt with ⟨session, _ | crash⟩
    · rcases sessionActs_performs crc32c readDir stored.named stored.room session with
        ⟨none, -, -⟩ | ⟨next, performs⟩
      · simp only [Attempt.run, none]
        exact kept.1
      · exact performs.ready.headed kept.1
    · exact kept.2 rfl

theorem runAttempts_concat (crc32c : Bytes → UInt32) (readDir : ReadDir)
    (attempts : List Attempt) (last : Attempt) :
    runAttempts crc32c readDir (attempts ++ [last]) =
      last.run crc32c readDir (runAttempts crc32c readDir attempts) := by
  rw [runAttempts, List.foldl_append]
  rfl

theorem runAttempts_stored (crc32c : Bytes → UInt32) (readDir : ReadDir)
    (attempts : List Attempt) :
    ∃ parts, (runAttempts crc32c readDir attempts).Stored crc32c parts := by
  induction attempts using List.reverseRecOn with
  | nil => exact ⟨[], .nil, Nat.zero_le _, .nil, rfl, rfl⟩
  | append_singleton attempts last ih =>
      rcases ih with ⟨parts, stored⟩
      rw [runAttempts_concat]
      exact last.run_stored readDir stored

/-- All headers are there if no attempt has left one incomplete. -/
theorem runAttempts_headed_iff (crc32c : Bytes → UInt32) (readDir : ReadDir)
    (attempts : List Attempt) :
    Headed (runAttempts crc32c readDir attempts).files ↔
      ∀ before attempt after, attempts = before ++ attempt :: after →
        attempt.LeavesHeaders crc32c readDir (runAttempts crc32c readDir before) := by
  induction attempts using List.reverseRecOn with
  | nil =>
      constructor
      · intro _ before attempt after split
        simp at split
      · intro _ file none
        cases none
  | append_singleton attempts last ih =>
      rcases runAttempts_stored crc32c readDir attempts with ⟨parts, stored⟩
      rw [runAttempts_concat, last.run_headed_iff readDir stored, ih]
      constructor
      · intro kept before attempt after split
        rcases List.eq_nil_or_concat after with rfl | ⟨after, other, rfl⟩
        · rcases List.append_inj' split rfl with ⟨rfl, same⟩
          cases same
          exact kept.2
        · rw [List.concat_eq_append, ← List.cons_append, ← List.append_assoc] at split
          exact kept.1 before attempt after (List.append_inj' split rfl).1
      · intro kept
        refine ⟨?_, kept attempts last [] rfl⟩
        intro before attempt after split
        apply kept before attempt (after ++ [last])
        rw [split, List.append_assoc, List.cons_append]

/-- A history of sessions, each of which appends and commits and may end in a crash at any
act. Its directory is read to the end, with every committed record delivered in the order of
sessions and appends, if and only if no crash left a segment file with an incomplete
header. -/
theorem runAttempts_recovered_iff (crc32c : Bytes → UInt32) (readDir reader : ReadDir)
    (attempts : List Attempt) :
    (runAttempts crc32c readDir attempts).Recovered crc32c reader ↔
      ∀ before attempt after, attempts = before ++ attempt :: after →
        attempt.LeavesHeaders crc32c readDir (runAttempts crc32c readDir before) := by
  rcases runAttempts_stored crc32c readDir attempts with ⟨parts, stored⟩
  rw [stored.recovered_iff reader]
  exact runAttempts_headed_iff crc32c readDir attempts

/-- A crash between the creation of the first segment and its first write, and a second
session that appends a record and commits it: the record is not delivered. -/
theorem runAttempts_headless :
    let readDir : ReadDir := ⟨id, fun _ => .refl _⟩
    let attempts : List Attempt := [⟨⟨64, []⟩, some ⟨1, fun _ => 0⟩⟩,
      ⟨⟨64, [.append (.cancel (.new 7)), .commit]⟩, none⟩]
    let world := runAttempts Crc32c.checksum readDir attempts
    world.committed = [(.fromRaw 1, .cancel (.new 7))] ∧
      forEachRecordDir Crc32c.checksum readDir world.files = ([], .error (.io .unexpectedEof)) ∧
      ¬world.Recovered Crc32c.checksum readDir := by
  intro readDir attempts world
  rcases runAttempts_stored Crc32c.checksum readDir attempts with ⟨parts, stored⟩
  have read : forEachRecordDir Crc32c.checksum readDir world.files =
      ([], .error (.io .unexpectedEof)) := by
    rw [stored.named.forEachRecordDir Crc32c.checksum stored.room]
    decide
  refine ⟨by decide, read, ?_⟩
  intro recovered
  rcases recovered with ⟨delivered, clean, -, -⟩
  rw [read] at clean
  cases clean

end Wal

end Bourse
