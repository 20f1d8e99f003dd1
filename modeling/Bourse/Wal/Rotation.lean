import Mathlib.Data.List.Induction
import Bourse.Wal.Sessions

/-!
# Sizes of rotating segments

The size check of `append` comes before the write and is not made for an empty segment.  The
largest frame has 52 bytes, so that even alone behind its header it fits into the 64 bytes
that a segment may have at least.  A session that meets no error therefore keeps every
segment within its limit, leaves none empty but the current one, and numbers its records
without a gap.
-/

namespace Bourse

namespace Wal

/-- Calls on an open writer, none of which returns an error. Offsets in a file are `i64`, so
the writes of such calls leave no file with `2 ^ 63` bytes or more. -/
inductive ErrorFree (crc32c : Bytes → UInt32) (start : Active) : List Op → Active → Prop where
  | start : ErrorFree crc32c start [] start
  | call {ops : List Op} {active next : Active} {op : Op}
      (before : ErrorFree crc32c start ops active) (ran : op.run crc32c active = .ok next)
      (bounded : next.writer.file.bytes.length < 2 ^ 63) :
      ErrorFree crc32c start (ops ++ [op]) next

/-- The writer fills a segment with `log`. Behind the `files` it found, it has closed segments
with `logs`; none is empty, and none is longer than the limit. -/
structure Active.Filling (crc32c : Bytes → UInt32) (files : Directory) (first : Nat)
    (limit : UInt64) (closed : Directory) (logs : List (List (UInt64 × WalRecord)))
    (log : List (UInt64 × WalRecord)) (active : Active) : Prop where
  rotation : active.writer.rotation = some ⟨files ++ closed,
    segmentPath (UInt64.ofNat (first + logs.length)),
    UInt64.ofNat (first + logs.length + 1), limit⟩
  segments : Segments crc32c first logs closed
  bytes : active.writer.file.bytes = segmentHeader ++ frames crc32c log
  counted : active.writer.bytesWritten.toNat = active.writer.file.bytes.length
  filled : ∀ held ∈ logs, held ≠ []
  sized : ∀ held ∈ logs ++ [log], (segmentHeader ++ frames crc32c held).length ≤ limit.toNat

variable {crc32c : Bytes → UInt32} {files closed : Directory} {first : Nat} {limit : UInt64}
  {logs : List (List (UInt64 × WalRecord))} {log : List (UInt64 × WalRecord)}
  {active : Active}

/-! ## One append -/

/-- No frame is longer than 52 bytes. -/
theorem length_frame_le (crc32c : Bytes → UInt32) (seq : UInt64) (record : WalRecord) :
    (frame crc32c seq record).length ≤ 52 := by
  have short := length_encodeRecord record
  rw [length_frame, length_payload]
  omega

/-- The size that `append` counts is the length of the frame. -/
theorem toNat_recordBytes (crc32c : Bytes → UInt32) (seq : UInt64) (record : WalRecord) :
    (8 + UInt64.ofNat (payload seq record).length).toNat = (frame crc32c seq record).length := by
  have short := length_frame_le crc32c seq record
  rw [length_frame] at short ⊢
  have eight : (8 : UInt64).toNat = 8 := rfl
  rw [UInt64.toNat_add, UInt64.toNat_ofNat', eight,
    Nat.mod_eq_of_lt (show (payload seq record).length < 2 ^ 64 by omega)]
  exact Nat.mod_eq_of_lt (by omega)

theorem createSegment_eq_ok {taken : List FileName} {path : FileName}
    {created : SegmentFile × UInt64} (creation : createSegment taken path = .ok created) :
    created = (newSegment, 8) := by
  unfold createSegment at creation
  split at creation
  · cases creation
  · cases creation
    rfl

/-- The current segment holds a record once it is longer than its header. -/
theorem Active.Filling.log_ne_nil (filling : active.Filling crc32c files first limit closed logs
    log) (beyond : 8 < active.writer.file.bytes.length) : log ≠ [] := by
  intro empty
  rw [filling.bytes, empty] at beyond
  exact Nat.lt_irrefl 8 beyond

/-- Rotation closes the current segment, which must not be empty. -/
theorem Active.Filling.rotate (filling : active.Filling crc32c files first limit closed logs log)
    (roomy : 64 ≤ limit.toNat) (some : log ≠ []) {rolled : WalWriter}
    (rotated : active.writer.rotate = .ok rolled) :
    rolled.nextSeq = active.writer.nextSeq ∧ rolled.file.bytes.length = 8 ∧
      ∃ closed', (⟨rolled, active.appended⟩ : Active).Filling crc32c files first limit closed'
        (logs ++ [log]) [] := by
  have committed : active.writer.commit.rotation = active.writer.rotation := rfl
  simp only [WalWriter.rotate, committed, filling.rotation] at rotated
  rcases bind_eq_ok.mp rotated with ⟨created, creation, done⟩
  cases createSegment_eq_ok creation
  cases done
  have more : first + (logs ++ [log]).length = first + logs.length + 1 := by
    rw [List.length_append, List.length_singleton, ← Nat.add_assoc]
  refine ⟨rfl, rfl, closed ++ [(segmentPath (UInt64.ofNat (first + logs.length)),
    active.writer.commit.file)], ?_, filling.segments.concat filling.bytes, ?_, rfl, ?_, ?_⟩
  · rw [more, UInt64.ofNat_add (first + logs.length + 1) 1, ← List.append_assoc]
    rfl
  · exact (List.append_nil segmentHeader).symm
  · intro held member
    rcases List.mem_append.mp member with earlier | last
    · exact filling.filled held earlier
    · rw [List.mem_singleton.mp last]
      exact some
  · intro held member
    rcases List.mem_append.mp member with earlier | last
    · exact filling.sized held earlier
    · rw [List.mem_singleton.mp last]
      have header : (segmentHeader ++ frames crc32c []).length = 8 := rfl
      rw [header]
      omega

/-- Writing a frame that fits. -/
theorem Active.Filling.written (filling : active.Filling crc32c files first limit closed logs
    log) (record : WalRecord) (fits : active.writer.file.bytes.length +
      (frame crc32c active.writer.nextSeq record).length ≤ limit.toNat)
    (appended : List (Sequence × WalRecord)) :
    (⟨active.writer.written crc32c active.writer.nextSeq record, appended⟩ : Active).Filling
      crc32c files first limit closed logs (log ++ [(active.writer.nextSeq, record)]) := by
  have small := limit.toNat_lt
  have bytes : segmentHeader ++ frames crc32c (log ++ [(active.writer.nextSeq, record)]) =
      active.writer.file.bytes ++ frame crc32c active.writer.nextSeq record := by
    rw [filling.bytes, frames_append, List.append_assoc]
    simp [frames]
  refine ⟨filling.rotation, filling.segments, bytes.symm, ?_, filling.filled, ?_⟩
  · simp only [WalWriter.written]
    rw [UInt64.toNat_add, toNat_recordBytes crc32c, filling.counted, List.length_append]
    exact Nat.mod_eq_of_lt (by omega)
  · intro held member
    rcases List.mem_append.mp member with earlier | last
    · exact filling.sized held (List.mem_append_left _ earlier)
    · rw [List.mem_singleton.mp last, bytes, List.length_append]
      exact fits

/-- When the size check lets a frame into the current segment, it fits. -/
theorem Active.Filling.fits_of_stays (filling : active.Filling crc32c files first limit closed
    logs log) (roomy : 64 ≤ limit.toNat) {record : WalRecord}
    (bounded : active.writer.file.bytes.length < 2 ^ 63)
    (stays : active.writer.mustRotate
      (8 + UInt64.ofNat (payload active.writer.nextSeq record).length) = false) :
    active.writer.file.bytes.length + (frame crc32c active.writer.nextSeq record).length ≤
      limit.toNat := by
  have short := length_frame_le crc32c active.writer.nextSeq record
  have sum : (active.writer.bytesWritten +
      (8 + UInt64.ofNat (payload active.writer.nextSeq record).length)).toNat =
        active.writer.file.bytes.length +
          (frame crc32c active.writer.nextSeq record).length := by
    rw [UInt64.toNat_add, toNat_recordBytes crc32c, filling.counted]
    exact Nat.mod_eq_of_lt (by omega)
  simp only [WalWriter.mustRotate, filling.rotation, Bool.and_eq_false_iff,
    decide_eq_false_iff_not, gt_iff_lt, UInt64.lt_iff_toNat_lt, sum, filling.counted] at stays
  rcases stays with header | fits
  · have eight : (8 : UInt64).toNat = 8 := rfl
    rw [eight] at header
    omega
  · omega

/-- When the size check rolls over, the current segment holds a record. -/
theorem Active.Filling.log_ne_nil_of_rolls (filling : active.Filling crc32c files first limit
    closed logs log) {recordBytes : UInt64}
    (rolls : active.writer.mustRotate recordBytes = true) : log ≠ [] := by
  simp only [WalWriter.mustRotate, filling.rotation, Bool.and_eq_true, decide_eq_true_eq,
    gt_iff_lt, UInt64.lt_iff_toNat_lt, filling.counted] at rolls
  exact filling.log_ne_nil rolls.1

/-- One append that succeeds. -/
theorem Active.Filling.append (filling : active.Filling crc32c files first limit closed logs log)
    (roomy : 64 ≤ limit.toNat) (bounded : active.writer.file.bytes.length < 2 ^ 63)
    {record : WalRecord} {next : Active}
    (ran : Op.run crc32c active (.append record) = .ok next) :
    next.writer.nextSeq = active.writer.nextSeq + 1 ∧
    next.appended = active.appended ++ [(.fromRaw active.writer.nextSeq, record)] ∧
    ∃ closed' logs' log', next.Filling crc32c files first limit closed' logs' log' ∧
      logs'.flatten ++ log' = logs.flatten ++ log ++ [(active.writer.nextSeq, record)] := by
  have short := length_frame_le crc32c active.writer.nextSeq record
  rw [Op.run, append_eq] at ran
  simp only [bind_assoc, pure_bind] at ran
  rcases bind_eq_ok.mp ran with ⟨rolled, ready, done⟩
  cases done
  split at ready
  next rolls =>
    have some := filling.log_ne_nil_of_rolls rolls
    rcases filling.rotate roomy some ready with ⟨nextSeq, size, closed', started⟩
    rw [← nextSeq] at short ⊢
    refine ⟨rfl, rfl, closed', logs ++ [log], _, started.written record ?_ _, ?_⟩
    · rw [size]
      exact Nat.le_trans (Nat.add_le_add_left short 8) (Nat.le_trans (by decide) roomy)
    · simp
  next stays =>
    cases ready
    rw [Bool.not_eq_true] at stays
    refine ⟨rfl, rfl, closed, logs, _,
      filling.written record (filling.fits_of_stays roomy bounded stays) _, ?_⟩
    rw [List.append_assoc]

/-! ## Whole sessions -/

theorem toNat_max (left right : UInt64) :
    (max left right).toNat = max left.toNat right.toNat := by
  have unfolded : max left right = if left ≤ right then right else left := rfl
  rw [unfolded]
  split
  next less => exact (Nat.max_eq_right (UInt64.le_iff_toNat_le.mp less)).symm
  next more =>
    rw [UInt64.le_iff_toNat_le] at more
    exact (Nat.max_eq_left (by omega)).symm

/-- The limit of a session leaves room for any frame. -/
theorem le_toNat_limit (maxSegmentBytes : UInt64) :
    64 ≤ (max maxSegmentBytes 64).toNat := by
  rw [toNat_max]
  exact Nat.le_max_right _ _

/-- A session that has made the calls `done`. -/
structure Active.Rotated (crc32c : Bytes → UInt32) (files : Directory) (first : Nat)
    (limit : UInt64) (done : List Op) (active : Active) : Prop where
  nextSeq : active.writer.nextSeq = 1 + UInt64.ofNat (recordsOf done).length
  appended : active.appended = (numbered 1 (recordsOf done)).map entryOf
  filling : ∃ closed logs log, active.Filling crc32c files first limit closed logs log ∧
    logs.flatten ++ log = numbered 1 (recordsOf done)

/-- Opening a directory starts an empty segment. -/
theorem openDir_rotated (crc32c : Bytes → UInt32) {readDir : ReadDir} {files : Directory}
    {maxSegmentBytes : UInt64} {writer : WalWriter}
    (opened : openDir readDir files maxSegmentBytes = .ok writer) :
    (⟨writer, []⟩ : Active).Rotated crc32c files (nextSegmentIndex (readDir.list files)).toNat
        (max maxSegmentBytes 64) [] ∧ writer.file.bytes.length = 8 := by
  rcases bind_eq_ok.mp opened with ⟨created, creation, done⟩
  cases createSegment_eq_ok creation
  cases done
  refine ⟨⟨rfl, rfl, [], [], [], ⟨?_, .nil, ?_, rfl, ?_, ?_⟩, rfl⟩, rfl⟩
  · rw [List.length_nil, Nat.add_zero, UInt64.ofNat_add, UInt64.ofNat_toNat, List.append_nil]
    rfl
  · exact (List.append_nil segmentHeader).symm
  · intro held member
    cases member
  · intro held member
    rw [List.nil_append, List.mem_singleton] at member
    have header : (segmentHeader ++ frames crc32c []).length = 8 := rfl
    rw [member, header]
    exact Nat.le_trans (by decide) (le_toNat_limit maxSegmentBytes)

/-- One call that succeeds. -/
theorem Active.Rotated.step {done : List Op} (rotated : active.Rotated crc32c files first limit
    done) (roomy : 64 ≤ limit.toNat) (bounded : active.writer.file.bytes.length < 2 ^ 63)
    {op : Op} {next : Active} (ran : op.run crc32c active = .ok next) :
    next.Rotated crc32c files first limit (done ++ [op]) := by
  rcases rotated.filling with ⟨closed, logs, log, filling, flat⟩
  cases op with
  | append record =>
      have records : recordsOf (done ++ [.append record]) = recordsOf done ++ [record] :=
        recordsOf_append done _
      rcases filling.append roomy bounded ran with
        ⟨nextSeq, appended, closed', logs', log', filling', flat'⟩
      have number := rotated.nextSeq
      refine ⟨?_, ?_, closed', logs', log', filling', ?_⟩
      · rw [nextSeq, number, records, List.length_append, List.length_singleton,
          UInt64.ofNat_add, UInt64.add_assoc]
        rfl
      · rw [appended, rotated.appended, records, numbered_append, List.map_append, number]
        rfl
      · rw [flat', flat, records, numbered_append, number]
        rfl
  | commit =>
      have records : recordsOf (done ++ [.commit]) = recordsOf done := by
        rw [recordsOf_append]
        exact List.append_nil _
      cases ran
      refine ⟨?_, ?_, closed, logs, log, ?_, ?_⟩
      · rw [records]
        exact rotated.nextSeq
      · rw [records]
        exact rotated.appended
      · exact ⟨filling.rotation, filling.segments, filling.bytes, filling.counted,
          filling.filled, filling.sized⟩
      · rw [records]
        exact flat

theorem ErrorFree.rotated {start : Active} {ops : List Op}
    (calls : ErrorFree crc32c start ops active) (roomy : 64 ≤ limit.toNat)
    (opened : start.Rotated crc32c files first limit [])
    (bounded : start.writer.file.bytes.length < 2 ^ 63) :
    active.Rotated crc32c files first limit ops ∧
      active.writer.file.bytes.length < 2 ^ 63 := by
  induction calls with
  | start => exact ⟨opened, bounded⟩
  | call before ran nextBounded ih => exact ⟨ih.1.step roomy ih.2 ran, nextBounded⟩

/-- A session of a rotating writer that meets no error, whatever it finds in its directory.
Behind the files it found stand the segments it has closed, named by consecutive indices, and
then the current one. Every segment holds a header and whole frames, the closed ones at least
one; none is longer than the limit. The writer knows the length of the current segment. The
records in the segments are those of the appends, numbered from `1` without a gap. -/
theorem session_segments (crc32c : Bytes → UInt32) {readDir : ReadDir} {files : Directory}
    {maxSegmentBytes : UInt64} {writer : WalWriter} {ops : List Op} {final : Active}
    (opened : openDir readDir files maxSegmentBytes = .ok writer)
    (calls : ErrorFree crc32c ⟨writer, []⟩ ops final) :
    ∃ rotation closed logs log, final.writer.rotation = some rotation ∧
      rotation.others = files ++ closed ∧
      Segments crc32c (nextSegmentIndex (readDir.list files)).toNat logs closed ∧
      rotation.path = segmentPath (UInt64.ofNat
        ((nextSegmentIndex (readDir.list files)).toNat + logs.length)) ∧
      final.writer.file.bytes = segmentHeader ++ frames crc32c log ∧
      final.writer.bytesWritten.toNat = final.writer.file.bytes.length ∧
      (∀ held ∈ logs, held ≠ []) ∧
      (∀ held ∈ logs ++ [log], (segmentHeader ++ frames crc32c held).length ≤
        max maxSegmentBytes.toNat 64) ∧
      logs.flatten ++ log = numbered 1 (recordsOf ops) ∧
      final.appended = (numbered 1 (recordsOf ops)).map entryOf := by
  rcases openDir_rotated crc32c opened with ⟨started, size⟩
  have bounded : writer.file.bytes.length < 2 ^ 63 := by
    rw [size]
    decide
  have rotated := (calls.rotated (le_toNat_limit maxSegmentBytes) started bounded).1
  rcases rotated.filling with ⟨closed, logs, log, filling, flat⟩
  have sized := filling.sized
  rw [toNat_max] at sized
  exact ⟨_, closed, logs, log, filling.rotation, rfl, filling.segments, rfl, filling.bytes,
    filling.counted, filling.filled, sized, flat, rotated.appended⟩

/-! ## Short sessions -/

theorem length_rotate_le {writer rolled : WalWriter} (rotated : writer.rotate = .ok rolled) :
    rolled.file.bytes.length ≤ max writer.file.bytes.length 8 := by
  unfold WalWriter.rotate at rotated
  simp only at rotated
  split at rotated
  · cases rotated
    exact Nat.le_max_left _ _
  · rcases bind_eq_ok.mp rotated with ⟨created, creation, done⟩
    cases done
    rw [createSegment_eq_ok creation]
    exact Nat.le_max_right _ _

theorem length_run_le {op : Op} {next : Active} (ran : op.run crc32c active = .ok next) :
    next.writer.file.bytes.length ≤ max active.writer.file.bytes.length 8 + 52 := by
  cases op with
  | append record =>
      have short := length_frame_le crc32c active.writer.nextSeq record
      rw [Op.run, append_eq] at ran
      simp only [bind_assoc, pure_bind] at ran
      rcases bind_eq_ok.mp ran with ⟨rolled, ready, done⟩
      cases done
      have before : rolled.file.bytes.length ≤ max active.writer.file.bytes.length 8 := by
        split at ready
        · exact length_rotate_le ready
        · cases ready
          exact Nat.le_max_left _ _
      simp only [WalWriter.written, List.length_append]
      omega
  | commit =>
      cases ran
      have same : active.writer.commit.file.bytes = active.writer.file.bytes := rfl
      rw [same]
      omega

/-- A session whose calls all succeed is free of errors, unless it is so long that a file could
reach the largest offset. -/
theorem errorFree_of_foldlM {start final : Active} {ops : List Op}
    (small : start.writer.file.bytes.length ≤ 8) (few : 8 + 52 * ops.length < 2 ^ 63)
    (ran : ops.foldlM (Op.run crc32c) start = .ok final) :
    ErrorFree crc32c start ops final ∧
      final.writer.file.bytes.length ≤ 8 + 52 * ops.length := by
  induction ops using List.reverseRecOn generalizing final with
  | nil =>
      cases ran
      exact ⟨.start, small⟩
  | append_singleton ops op ih =>
      rw [List.length_append, List.length_singleton] at few ⊢
      rw [List.foldlM_append] at ran
      rcases bind_eq_ok.mp ran with ⟨active, before, made⟩
      rcases bind_eq_ok.mp made with ⟨next, last, done⟩
      cases done
      rcases ih (by omega) before with ⟨calls, bound⟩
      have grown := length_run_le last
      have size : final.writer.file.bytes.length ≤ 8 + 52 * (ops.length + 1) := by omega
      exact ⟨.call calls last (by omega), size⟩

/-- Two cancels fill a segment of 60 bytes; the third one starts another segment. -/
theorem session_segments_rolling :
    let readDir : ReadDir := ⟨id, fun _ => .refl _⟩
    let ops : List Op := [.append (.cancel ⟨7⟩), .append (.cancel ⟨8⟩), .append (.cancel ⟨9⟩)]
    ∃ writer final, openDir readDir [] 0 = .ok writer ∧
      ErrorFree Crc32c.checksum ⟨writer, []⟩ ops final ∧
      final.writer.file.bytes.length = 34 ∧
      ∃ rotation closed logs log, final.writer.rotation = some rotation ∧
        rotation.others = closed ∧ Segments Crc32c.checksum 0 logs closed ∧
        rotation.path = segmentPath (UInt64.ofNat (0 + logs.length)) ∧
        final.writer.file.bytes = segmentHeader ++ frames Crc32c.checksum log ∧
        logs.flatten ++ log = numbered 1 (recordsOf ops) := by
  intro readDir ops
  have sizes : (openDir readDir [] 0 >>= fun writer =>
      ops.foldlM (Op.run Crc32c.checksum) ⟨writer, []⟩).map
        (fun final => final.writer.file.bytes.length) = .ok 34 := by decide +kernel
  have opened : openDir readDir [] 0 = .ok _ := rfl
  rw [opened, ok_bind] at sizes
  cases ran : ops.foldlM (Op.run Crc32c.checksum) ⟨_, []⟩ with
  | error error =>
      rw [ran] at sizes
      cases sizes
  | ok final =>
      rw [ran] at sizes
      have calls := (errorFree_of_foldlM (by decide) (by decide) ran).1
      rcases session_segments Crc32c.checksum opened calls with
        ⟨rotation, closed, logs, log, rotates, others, segments, path, bytes, -, -, -, flat, -⟩
      exact ⟨_, final, opened, calls, Except.ok.inj sizes, rotation, closed, logs, log, rotates,
        others, segments, path, bytes, flat⟩

end Wal

end Bourse
