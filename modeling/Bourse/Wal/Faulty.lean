import Mathlib.Data.List.Induction
import Bourse.Wal.Acts

/-!
# Appends that fail

The three writes of an `append` fail one by one.  A write that fails takes none of its own
bytes, but the writes before it stay in the file, and nothing takes them back: the counters
are updated only at the end.  As the last thing in the file such a piece of a frame reads as
a torn tail; in front of further bytes it is a header with a wrong payload behind it.
-/

namespace Bourse

namespace Wal

/-- The outcome of the three writes of an append: the errors of those that fail. -/
structure Faults where
  len : Option IoError
  crc : Option IoError
  payload : Option IoError
  deriving DecidableEq, Repr

/-- No write fails. -/
def Faults.none : Faults := ⟨.none, .none, .none⟩

namespace WalWriter

/-- A write that succeeds. -/
def accept (writer : WalWriter) (bytes : Bytes) : WalWriter :=
  { writer with file := { writer.file with bytes := writer.file.bytes ++ bytes } }

variable (crc32c : Bytes → UInt32)

/-- `append` with writes that may fail: what it returns, and the writer after it. -/
def appendFaulty (writer : WalWriter) (record : WalRecord) (faults : Faults) :
    Except WalError Sequence × WalWriter :=
  let seq := writer.nextSeq
  let body := payload seq record
  if body.length ≥ 2 ^ 32 then (.error .recordTooLarge, writer)
  else
    let recordBytes := 8 + UInt64.ofNat body.length
    match if writer.mustRotate recordBytes then writer.rotate else .ok writer with
    | .error error => (.error error, writer.rotateFailed)
    | .ok writer =>
        match faults.len with
        | some error => (.error (.io error), writer)
        | none =>
            let writer := writer.accept (Bytes.ofU32 (UInt32.ofNat body.length))
            match faults.crc with
            | some error => (.error (.io error), writer)
            | none =>
                let writer := writer.accept (Bytes.ofU32 (crc32c body))
                match faults.payload with
                | some error => (.error (.io error), writer)
                | none =>
                    let writer := writer.accept body
                    (.ok (.fromRaw seq), { writer with
                      bytesWritten := writer.bytesWritten + recordBytes
                      nextSeq := writer.nextSeq + 1 })

end WalWriter

/-- A call on a writer whose appends may fail. -/
inductive FaultyOp where
  | append (record : WalRecord) (faults : Faults)
  | commit
  deriving DecidableEq, Repr

/-- Something goes into the file. -/
def FaultyOp.Writes : FaultyOp → Prop
  | .append _ faults => faults.len = none
  | .commit => False

/-- A frame is left unfinished. -/
def FaultyOp.Tears : FaultyOp → Prop
  | .append _ faults => faults.len = none ∧ (faults.crc ≠ none ∨ faults.payload ≠ none)
  | .commit => False

variable (crc32c : Bytes → UInt32)

/-- One call. Appends that return `Ok` are noted with the number they returned. -/
def FaultyOp.run (active : Active) : FaultyOp → Active
  | .append record faults =>
      match active.writer.appendFaulty crc32c record faults with
      | (.ok seq, writer) => ⟨writer, active.appended ++ [(seq, record)]⟩
      | (.error _, writer) => { active with writer }
  | .commit => { active with writer := active.writer.commit }

/-! ## Single appends -/

theorem nextSeq_rotate {writer rolled : WalWriter} (rotated : writer.rotate = .ok rolled) :
    rolled.nextSeq = writer.nextSeq := by
  unfold WalWriter.rotate at rotated
  simp only at rotated
  split at rotated
  · cases rotated
    rfl
  · rcases bind_eq_ok.mp rotated with ⟨created, -, done⟩
    cases done
    rfl

/-- An append that fails does not use up its number. -/
theorem nextSeq_appendFaulty {writer : WalWriter} {record : WalRecord} {faults : Faults}
    {error : WalError} (failed : (writer.appendFaulty crc32c record faults).1 = .error error) :
    (writer.appendFaulty crc32c record faults).2.nextSeq = writer.nextSeq := by
  unfold WalWriter.appendFaulty at failed ⊢
  simp only [payload_not_too_large, if_false] at failed ⊢
  cases ready : (if writer.mustRotate (8 + UInt64.ofNat (payload writer.nextSeq record).length)
      then writer.rotate else .ok writer) with
  | error refused => rfl
  | ok rolled =>
      have kept : rolled.nextSeq = writer.nextSeq := by
        split at ready
        · exact nextSeq_rotate ready
        · cases ready
          rfl
      rw [ready] at failed
      cases len : faults.len with
      | some error => exact kept
      | none =>
          cases crc : faults.crc with
          | some error => exact kept
          | none =>
              cases body : faults.payload with
              | some error => exact kept
              | none =>
                  simp only [len, crc, body] at failed
                  cases failed

/-- Without faults this is the append on a disk that works. -/
theorem appendFaulty_none (writer : WalWriter) (record : WalRecord) :
    writer.appendFaulty crc32c record .none =
      match writer.append crc32c record with
      | .ok (seq, written) => (.ok seq, written)
      | .error error => (.error error, writer.rotateFailed) := by
  rw [append_eq]
  unfold WalWriter.appendFaulty
  simp only [payload_not_too_large, if_false, Faults.none, pure, Except.pure]
  cases (if writer.mustRotate (8 + UInt64.ofNat (payload writer.nextSeq record).length)
      then writer.rotate else .ok writer) with
  | error error => rfl
  | ok rolled => simp [WalWriter.accept, WalWriter.written, frame]

/-- The bytes that an append leaves in the file when it is interrupted. -/
theorem appendFaulty_single {writer : WalWriter} (single : writer.rotation = none)
    (record : WalRecord) (faults : Faults) :
    (∃ error, faults.len ≠ none ∧
      writer.appendFaulty crc32c record faults = (.error error, writer)) ∨
    (∃ error, ∃ count < (frame crc32c writer.nextSeq record).length,
      faults.len = none ∧ (faults.crc ≠ none ∨ faults.payload ≠ none) ∧
      writer.appendFaulty crc32c record faults = (.error error,
        writer.accept ((frame crc32c writer.nextSeq record).take count))) ∨
    (faults.len = none ∧ writer.appendFaulty crc32c record faults =
      (.ok (.fromRaw writer.nextSeq), writer.written crc32c writer.nextSeq record)) := by
  have stays : writer.mustRotate
      (8 + UInt64.ofNat (payload writer.nextSeq record).length) = false := by
    simp only [WalWriter.mustRotate, single]
  rcases faults with ⟨len, crc, body⟩
  cases len with
  | some error =>
      refine Or.inl ⟨.io error, Option.some_ne_none _, ?_⟩
      simp only [WalWriter.appendFaulty, payload_not_too_large, if_false, stays]
      rfl
  | none =>
  cases crc with
  | some error =>
      refine Or.inr (Or.inl ⟨.io error, 4, ?_, rfl, Or.inl (Option.some_ne_none _), ?_⟩)
      · rw [length_frame]
        omega
      · have piece : (frame crc32c writer.nextSeq record).take 4 =
            Bytes.ofU32 (UInt32.ofNat (payload writer.nextSeq record).length) :=
          List.take_left' (Bytes.length_ofU32 _)
        simp only [WalWriter.appendFaulty, payload_not_too_large, if_false, stays, piece]
        rfl
  | none =>
  cases body with
  | some error =>
      refine Or.inr (Or.inl ⟨.io error, 8, ?_, rfl, Or.inr (Option.some_ne_none _), ?_⟩)
      · rw [length_frame, length_payload]
        omega
      · have piece : (frame crc32c writer.nextSeq record).take 8 =
            Bytes.ofU32 (UInt32.ofNat (payload writer.nextSeq record).length) ++
              Bytes.ofU32 (crc32c (payload writer.nextSeq record)) := by
          rw [frame, ← List.append_assoc]
          exact List.take_left' (by simp)
        simp only [WalWriter.appendFaulty, payload_not_too_large, if_false, stays, piece,
          WalWriter.accept, ← List.append_assoc]
        rfl
  | none =>
      refine Or.inr (Or.inr ⟨rfl, ?_⟩)
      have clean := appendFaulty_none crc32c writer record
      rw [append_single crc32c single] at clean
      exact clean

/-! ## Runs -/

/-- A writer of one segment after the calls `done`: whole frames, and behind them what is no
frame, if any call has left it there. -/
structure Active.Survives (done : List FaultyOp) (active : Active) : Prop where
  single : active.writer.rotation = none
  held : ∃ records tail,
    active.writer.nextSeq = 1 + UInt64.ofNat records.length ∧
    active.appended = (numbered 1 records).map entryOf ∧
    active.writer.file.bytes = segmentHeader ++ (frames crc32c (numbered 1 records) ++ tail) ∧
    readRecord crc32c tail = .ok none ∧
    (tail ≠ [] → ∃ op ∈ done, op.Tears)

variable {crc32c} {done : List FaultyOp} {active : Active}

/-- Only the file is told by the reader. -/
theorem Active.Survives.forEachRecord (survives : active.Survives crc32c done) :
    forEachRecord crc32c active.writer.file.bytes = (active.appended, .ok ()) := by
  rcases survives.held with ⟨records, tail, -, appended, bytes, stop, -⟩
  rw [bytes, Wal.forEachRecord, openReader_segmentHeader, appended]
  simp [scan_frames crc32c _ stop]

/-- One call that does not write behind an unfinished frame. -/
theorem Active.Survives.step (survives : active.Survives crc32c done) {op : FaultyOp}
    (behind : ∀ earlier ∈ done, earlier.Tears → ¬op.Writes) :
    (op.run crc32c active).Survives crc32c (done ++ [op]) := by
  rcases survives with ⟨single, records, tail, nextSeq, appended, bytes, stop, torn⟩
  have still : tail ≠ [] → ∃ earlier ∈ done ++ [op], earlier.Tears := by
    intro some
    rcases torn some with ⟨earlier, member, tears⟩
    exact ⟨earlier, List.mem_append_left _ member, tears⟩
  cases op with
  | commit => exact ⟨single, records, tail, nextSeq, appended, bytes, stop, still⟩
  | append record faults =>
      have whole : faults.len = none → tail = [] := by
        intro writes
        by_contra some
        rcases torn some with ⟨earlier, member, tears⟩
        exact behind earlier member tears writes
      rw [FaultyOp.run]
      rcases appendFaulty_single crc32c single record faults with
        ⟨error, -, result⟩ | ⟨error, count, short, writes, fault, result⟩ | ⟨writes, result⟩
      · rw [result]
        exact ⟨single, records, tail, nextSeq, appended, bytes, stop, still⟩
      · rw [result]
        refine ⟨single, records, (frame crc32c active.writer.nextSeq record).take count,
          nextSeq, appended, ?_, readRecord_cut crc32c short, ?_⟩
        · simp [WalWriter.accept, bytes, whole writes]
        · intro _
          exact ⟨_, List.mem_append_right _ List.mem_cons_self, writes, fault⟩
      · rw [result]
        refine ⟨single, records ++ [record], [], ?_, ?_, ?_, readRecord_nil crc32c, ?_⟩
        · rw [List.length_append, List.length_singleton, UInt64.ofNat_add,
            ← UInt64.add_assoc, ← nextSeq]
          rfl
        · rw [numbered_append, ← nextSeq, List.map_append, ← appended]
          rfl
        · rw [numbered_append, ← nextSeq, frames_append]
          simp [WalWriter.written, bytes, whole writes, numbered, frames]
        · intro some
          exact absurd rfl some

/-- A run in which nothing is written behind an unfinished frame. -/
theorem run_survives {ops : List FaultyOp}
    (intact : ops.Pairwise fun earlier later => earlier.Tears → ¬later.Writes) :
    (ops.foldl (FaultyOp.run crc32c) ⟨WalWriter.create, []⟩).Survives crc32c ops := by
  induction ops using List.reverseRecOn with
  | nil =>
      refine ⟨rfl, [], [], rfl, rfl, ?_, readRecord_nil crc32c, fun some => absurd rfl some⟩
      exact (List.append_nil segmentHeader).symm
  | append_singleton ops op ih =>
      rw [List.pairwise_append] at intact
      rw [List.foldl_append]
      apply (ih intact.1).step
      intro earlier member
      exact intact.2.2 earlier member op List.mem_cons_self

/-- Appends may fail in any of their writes. A failed append leaves the number to the next
one; and as long as no append writes behind one that failed in its second or third write,
reading the committed file delivers exactly the appends that returned `Ok`, in order and
with the numbers they returned. -/
theorem forEachRecord_faulty (crc32c : Bytes → UInt32) {ops : List FaultyOp}
    (intact : ops.Pairwise fun earlier later => earlier.Tears → ¬later.Writes) :
    let final := ops.foldl (FaultyOp.run crc32c) ⟨WalWriter.create, []⟩
    forEachRecord crc32c final.writer.commit.file.bytes = (final.appended, .ok ()) ∧
    ∀ before record faults after, ops = before ++ .append record faults :: after →
      let writer := (before.foldl (FaultyOp.run crc32c) ⟨WalWriter.create, []⟩).writer
      ∀ error, (writer.appendFaulty crc32c record faults).1 = .error error →
        (writer.appendFaulty crc32c record faults).2.nextSeq = writer.nextSeq := by
  intro final
  refine ⟨(run_survives intact).forEachRecord, ?_⟩
  intro before record faults after _ writer error failed
  exact nextSeq_appendFaulty crc32c failed

/-- A failed first write, a record, and a failed last write. -/
theorem forEachRecord_faulty_ends :
    let ops : List FaultyOp := [.append (.cancel ⟨7⟩) ⟨some .unexpectedEof, none, none⟩,
      .append (.cancel ⟨8⟩) .none, .commit,
      .append (.cancel ⟨9⟩) ⟨none, none, some .unexpectedEof⟩]
    let final := ops.foldl (FaultyOp.run Crc32c.checksum) ⟨WalWriter.create, []⟩
    final.appended = [(.fromRaw 1, .cancel ⟨8⟩)] ∧
      forEachRecord Crc32c.checksum final.writer.commit.file.bytes =
        (final.appended, .ok ()) := by
  intro ops final
  refine ⟨by decide, (forEachRecord_faulty Crc32c.checksum ?_).1⟩
  simp [ops, FaultyOp.Tears, FaultyOp.Writes, Faults.none]

/-- An append that fails in its last write, and one that returns `Ok` behind it: the second
one is not delivered. -/
theorem forEachRecord_faulty_behind :
    let ops : List FaultyOp := [.append (.cancel ⟨7⟩) ⟨none, none, some .unexpectedEof⟩,
      .append (.cancel ⟨8⟩) .none, .commit]
    let final := ops.foldl (FaultyOp.run Crc32c.checksum) ⟨WalWriter.create, []⟩
    final.appended = [(.fromRaw 1, .cancel ⟨8⟩)] ∧
      forEachRecord Crc32c.checksum final.writer.commit.file.bytes =
        ([], .error .crcMismatch) := by
  decide +kernel

end Wal

end Bourse
