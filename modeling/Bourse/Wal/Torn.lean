import Bourse.Wal.Sessions

/-!
# Torn segments

A crash leaves a prefix of what was written to a file that covers what was synced.  A
segment that still has its header delivers its complete records, among them everything
that was committed; the rest of it reads as the end of the log.
-/

namespace Bourse

namespace Wal

/-- What a crash leaves of a file of which `kept` bytes had reached the disk. What was
synced is never lost. -/
def SegmentFile.cut (file : SegmentFile) (kept : Nat) : SegmentFile :=
  { file with bytes := file.bytes.take (max file.synced kept) }

/-- A segment file to which `log` is being written, with the first `kept` records synced. -/
structure SegmentFile.Holds (crc32c : Bytes → UInt32) (file : SegmentFile)
    (log : List (UInt64 × WalRecord)) (kept : Nat) : Prop where
  bytes : file.bytes <+: segmentHeader ++ frames crc32c log
  synced : file.synced ≤ file.bytes.length
  within : kept ≤ log.length
  durable : kept ≠ 0 → (segmentHeader ++ frames crc32c (log.take kept)).length ≤ file.synced

variable {crc32c : Bytes → UInt32} {file : SegmentFile} {log : List (UInt64 × WalRecord)}
  {kept : Nat}

/-- A crash loses no synced record. -/
theorem SegmentFile.Holds.cut (holds : file.Holds crc32c log kept) (reached : Nat) :
    (file.cut reached).Holds crc32c log kept where
  bytes := (List.take_prefix _ _).trans holds.bytes
  synced := by
    have synced := holds.synced
    simp only [SegmentFile.cut, List.length_take]
    omega
  within := holds.within
  durable := holds.durable

/-- A segment with its header delivers a prefix of its log that contains what was synced. -/
theorem SegmentFile.Holds.forEachRecord (holds : file.Holds crc32c log kept)
    (headed : 8 ≤ file.bytes.length) :
    forEachRecord crc32c file.bytes =
      ((log.take (complete crc32c log (file.bytes.length - 8))).map entryOf, .ok ()) ∧
    kept ≤ complete crc32c log (file.bytes.length - 8) := by
  constructor
  · have whole : file.bytes = (segmentHeader ++ frames crc32c log).take
        (8 + (file.bytes.length - 8)) := by
      rw [Nat.add_sub_cancel' headed]
      exact List.prefix_iff_eq_take.mp holds.bytes
    have read := forEachRecord_take crc32c log (file.bytes.length - 8)
    rw [← whole] at read
    exact read
  · rw [le_complete_iff crc32c holds.within]
    cases kept with
    | zero => simp [frames]
    | succ kept =>
        have durable := holds.durable (Nat.succ_ne_zero kept)
        have synced := holds.synced
        have header : segmentHeader.length = 8 := rfl
        rw [List.length_append, header] at durable
        omega

/-- A segment without a whole header is refused, and nothing in it was synced. -/
theorem SegmentFile.Holds.refused (holds : file.Holds crc32c log kept)
    (headless : file.bytes.length < 8) :
    Wal.forEachRecord crc32c file.bytes = ([], .error (.io .unexpectedEof)) ∧ kept = 0 := by
  constructor
  · rw [Wal.forEachRecord, openReader, Bytes.readExact_short headless]
  · by_contra some
    have durable := holds.durable some
    have synced := holds.synced
    have header : segmentHeader.length = 8 := rfl
    rw [List.length_append, header] at durable
    omega

/-! ## A single segment -/

/-- A writer of one segment that has made the calls `done`. -/
structure Active.Single (crc32c : Bytes → UInt32) (done : List Op) (active : Active) : Prop where
  single : active.writer.rotation = none
  nextSeq : active.writer.nextSeq = 1 + UInt64.ofNat (recordsOf done).length
  appended : active.appended = (numbered 1 (recordsOf done)).map entryOf
  bytes : active.writer.file.bytes =
    segmentHeader ++ frames crc32c (numbered 1 (recordsOf done))
  headed : 8 ≤ active.writer.file.synced
  synced : active.writer.file.synced ≤ active.writer.file.bytes.length
  committed : ∀ before, before ++ [.commit] <+: done →
    (segmentHeader ++ frames crc32c (numbered 1 (recordsOf before))).length ≤
      active.writer.file.synced

/-- One call on a writer of one segment. -/
theorem Active.Single.step {done : List Op} {active : Active}
    (writes : active.Single crc32c done) (op : Op) :
    Ensures (op.run crc32c active) (Active.Single crc32c (done ++ [op])) False := by
  rcases writes with ⟨single, nextSeq, appended, bytes, headed, synced, committed⟩
  cases op with
  | append record =>
      have records : recordsOf (done ++ [.append record]) = recordsOf done ++ [record] :=
        recordsOf_append done _
      rw [Op.run, append_single crc32c single]
      refine ⟨single, ?_, ?_, ?_, headed, ?_, ?_⟩
      · rw [records, List.length_append, List.length_singleton, UInt64.ofNat_add,
          ← UInt64.add_assoc, ← nextSeq]
        rfl
      · rw [records, numbered_append, ← nextSeq, List.map_append, ← appended]
        rfl
      · rw [records, numbered_append, ← nextSeq, frames_append, ← List.append_assoc, ← bytes]
        simp [WalWriter.written, numbered, frames]
      · simp only [WalWriter.written, List.length_append]
        exact synced.trans (Nat.le_add_right _ _)
      · intro before made
        rcases List.prefix_concat_iff.mp made with last | earlier
        · cases List.append_inj_right' last rfl
        · exact committed before earlier
  | commit =>
      have records : recordsOf (done ++ [.commit]) = recordsOf done := by
        rw [recordsOf_append]
        exact List.append_nil _
      refine ⟨single, ?_, ?_, ?_, headed.trans synced, Nat.le_refl _, ?_⟩
      · rw [records]
        exact nextSeq
      · rw [records]
        exact appended
      · rw [records]
        exact bytes
      · intro before made
        rcases List.prefix_concat_iff.mp made with last | earlier
        · rw [List.append_inj_left' last rfl]
          simp only [WalWriter.commit, bytes]
          exact Nat.le_refl _
        · exact (committed before earlier).trans synced

theorem create_single (crc32c : Bytes → UInt32) :
    Active.Single crc32c [] ⟨WalWriter.create, []⟩ where
  single := rfl
  nextSeq := rfl
  appended := rfl
  bytes := (List.append_nil segmentHeader).symm
  headed := Nat.le_refl 8
  synced := Nat.le_refl 8
  committed before made := by
    have empty := List.prefix_nil.mp made
    simp at empty

/-- Whatever was appended and committed, and whatever prefix of the file a crash leaves that
covers what the last commit did: reading it succeeds and delivers the records whose frames
lie wholly inside the prefix, numbered from `1` as `append` returned them, and these contain
every record that a commit covered. -/
theorem forEachRecord_crashed (crc32c : Bytes → UInt32) (ops : List Op) :
    ∃ active, ops.foldlM (Op.run crc32c) ⟨WalWriter.create, []⟩ = .ok active ∧
      active.appended = (numbered 1 (recordsOf ops)).map entryOf ∧
      ∀ size, active.writer.file.synced ≤ size →
        ∃ whole, forEachRecord crc32c (active.writer.file.bytes.take size) =
            (active.appended.take whole, .ok ()) ∧
          whole ≤ (recordsOf ops).length ∧
          (∀ count, count ≤ (recordsOf ops).length → (count ≤ whole ↔
            (segmentHeader ++ frames crc32c ((numbered 1 (recordsOf ops)).take count)).length ≤
              size)) ∧
          ∀ before, before ++ [.commit] <+: ops → (recordsOf before).length ≤ whole := by
  have ran : Ensures (ops.foldlM (Op.run crc32c) ⟨WalWriter.create, []⟩)
      (Active.Single crc32c ops) False :=
    Ensures.foldlM _ (fun _ op _ _ _ writes => writes.step op) (create_single crc32c)
  cases result : ops.foldlM (Op.run crc32c) ⟨WalWriter.create, []⟩ with
  | error error =>
      rw [result] at ran
      exact ran.elim
  | ok active =>
      rw [result] at ran
      refine ⟨active, rfl, ran.appended, ?_⟩
      intro size covers
      have headed : 8 ≤ size := ran.headed.trans covers
      have inside : ∀ count, count ≤ (recordsOf ops).length →
          (count ≤ complete crc32c (numbered 1 (recordsOf ops)) (size - 8) ↔
            (segmentHeader ++ frames crc32c ((numbered 1 (recordsOf ops)).take count)).length ≤
              size) := by
        intro count within
        have header : segmentHeader.length = 8 := rfl
        rw [le_complete_iff crc32c (by rw [length_numbered]; exact within), List.length_append,
          header]
        omega
      refine ⟨complete crc32c (numbered 1 (recordsOf ops)) (size - 8), ?_, ?_, inside, ?_⟩
      · rw [ran.bytes, ran.appended, ← List.map_take, ← forEachRecord_take,
          Nat.add_sub_cancel' headed]
      · rw [← length_numbered 1 (recordsOf ops)]
        exact complete_le crc32c _ _
      · intro before made
        rcases made with ⟨after, rfl⟩
        have records : recordsOf (before ++ [.commit] ++ after) =
            recordsOf before ++ recordsOf after := by
          rw [List.append_assoc, recordsOf_append, recordsOf_append]
          rfl
        have counted : (recordsOf before).length ≤
            (recordsOf (before ++ [.commit] ++ after)).length := by
          rw [records, List.length_append]
          exact Nat.le_add_right _ _
        rw [inside _ counted, take_numbered, records, List.take_left]
        exact (ran.committed before (List.prefix_append _ _)).trans covers

/-- Two records, the first one committed, and a crash inside the second frame. -/
theorem forEachRecord_crashed_second :
    let ops : List Op := [.append (.cancel ⟨7⟩), .commit, .append (.cancel ⟨8⟩)]
    ∃ active, ops.foldlM (Op.run Crc32c.checksum) ⟨WalWriter.create, []⟩ = .ok active ∧
      active.writer.file.synced = 34 ∧ active.writer.file.bytes.length = 60 ∧
      ∃ whole, 1 ≤ whole ∧ ¬2 ≤ whole ∧
        forEachRecord Crc32c.checksum (active.writer.file.bytes.take 40) =
          (active.appended.take whole, .ok ()) := by
  intro ops
  rcases forEachRecord_crashed Crc32c.checksum ops with ⟨active, ran, -, crashed⟩
  have synced : (ops.foldlM (Op.run Crc32c.checksum) ⟨WalWriter.create, []⟩).map
      (fun active => (active.writer.file.synced, active.writer.file.bytes.length)) =
      .ok (34, 60) := by decide
  rw [ran] at synced
  have sizes : (active.writer.file.synced, active.writer.file.bytes.length) = (34, 60) :=
    Except.ok.inj synced
  have size : active.writer.file.synced = 34 := congrArg Prod.fst sizes
  refine ⟨active, ran, size, congrArg Prod.snd sizes, ?_⟩
  rcases crashed 40 (by rw [size]; decide) with ⟨whole, read, -, inside, committed⟩
  refine ⟨whole, ?_, ?_, read⟩
  · exact committed [.append (.cancel ⟨7⟩)] ⟨_, rfl⟩
  · rw [inside 2 (by decide)]
    decide

end Wal

end Bourse
