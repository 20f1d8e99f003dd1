import Bourse.Data.Decimal
import Bourse.Wal.Codec

/-!
# Writing the log

`WalWriter` of `bourse-core/src/wal.rs` on a disk that does not fail.  A file is what
has been written to it together with how much of it the last `sync_all` covered.  In
rotating mode the writer also knows the other files of its directory, because
creating a segment fails when its name is taken.
-/

namespace Bourse

namespace Wal

/-- The name of a file in a directory. -/
abbrev FileName := List Char

/-- A file: its bytes, and how many of them are durable. -/
structure SegmentFile where
  bytes : Bytes
  synced : Nat
  deriving DecidableEq

def segmentPrefix : FileName := ['s', 'e', 'g', '-']
def segmentSuffix : FileName := ['.', 'w', 'a', 'l']

/-- `segment_path`, without the directory. -/
def segmentPath (index : UInt64) : FileName :=
  segmentPrefix ++ (Decimal.pad 8 index ++ segmentSuffix)

/-- What a rotating writer keeps about its directory: the files it is not writing,
the file it is writing, and where the next segment goes. -/
structure Rotation where
  others : List (FileName × SegmentFile)
  path : FileName
  nextIndex : UInt64
  maxSegmentBytes : UInt64

/-- The writer. -/
structure WalWriter where
  file : SegmentFile
  nextSeq : UInt64
  bytesWritten : UInt64
  rotation : Option Rotation

/-- A new segment file holds a durable header. -/
def newSegment : SegmentFile := ⟨segmentHeader, segmentHeader.length⟩

/-- Create a segment; its name must be free. -/
def createSegment (taken : List FileName) (path : FileName) :
    Except WalError (SegmentFile × UInt64) :=
  if path ∈ taken then .error (.io .alreadyExists) else .ok (newSegment, 8)

namespace WalWriter

/-- `WalWriter::create` at a path that is free. -/
def create : WalWriter := ⟨newSegment, 1, 8, none⟩

/-- Flush and fsync. -/
def commit (writer : WalWriter) : WalWriter :=
  { writer with file := { writer.file with synced := writer.file.bytes.length } }

/-- Commit the current segment and open the next one. -/
def rotate (writer : WalWriter) : Except WalError WalWriter :=
  let writer := writer.commit
  match writer.rotation with
  | none => .ok writer
  | some rotation => do
      let others := rotation.others ++ [(rotation.path, writer.file)]
      let path := segmentPath rotation.nextIndex
      let (file, headerBytes) ← createSegment (others.map Prod.fst) path
      return { writer with
        file
        bytesWritten := headerBytes
        rotation := some { rotation with
          others, path, nextIndex := rotation.nextIndex + 1 } }

/-- Whether `append` rolls over before it writes a record of the given size. -/
def mustRotate (writer : WalWriter) (recordBytes : UInt64) : Bool :=
  match writer.rotation with
  | none => false
  | some rotation =>
      decide (writer.bytesWritten > 8) &&
        decide (writer.bytesWritten + recordBytes > rotation.maxSegmentBytes)

variable (crc32c : Bytes → UInt32)

/-- Append a record and return the `wal_seq` assigned to it. -/
def append (writer : WalWriter) (record : WalRecord) :
    Except WalError (Sequence × WalWriter) := do
  let seq := writer.nextSeq
  let size := (payload seq record).length
  if size ≥ 2 ^ 32 then throw .recordTooLarge
  let recordBytes := 8 + UInt64.ofNat size
  let writer ← if writer.mustRotate recordBytes then writer.rotate else pure writer
  let bytes := writer.file.bytes ++ frame crc32c seq record
  return (.fromRaw seq, { writer with
    file := { writer.file with bytes }
    bytesWritten := writer.bytesWritten + recordBytes
    nextSeq := writer.nextSeq + 1 })

end WalWriter

/-- Consecutive numbers for a list of records. -/
def numbered (start : UInt64) : List WalRecord → List (UInt64 × WalRecord)
  | [] => []
  | record :: records => (start, record) :: numbered (start + 1) records

variable (crc32c : Bytes → UInt32)

theorem payload_not_too_large (seq : UInt64) (record : WalRecord) :
    ¬(payload seq record).length ≥ 2 ^ 32 := by
  have short := length_encodeRecord record
  rw [length_payload]
  omega

/-- The writer once a record has been written to its current file. -/
def WalWriter.written (writer : WalWriter) (seq : UInt64) (record : WalRecord) : WalWriter :=
  { writer with
    file := { writer.file with bytes := writer.file.bytes ++ frame crc32c seq record }
    bytesWritten := writer.bytesWritten + (8 + UInt64.ofNat (payload seq record).length)
    nextSeq := writer.nextSeq + 1 }

/-- What an append does: it rolls over if it must, then writes one frame. -/
theorem append_eq (writer : WalWriter) (record : WalRecord) :
    writer.append crc32c record =
      ((if writer.mustRotate (8 + UInt64.ofNat (payload writer.nextSeq record).length)
          then writer.rotate else pure writer) >>= fun rolled =>
        pure (.fromRaw writer.nextSeq, rolled.written crc32c writer.nextSeq record)) := by
  simp only [WalWriter.append, payload_not_too_large, if_false]
  split <;> rfl

/-- Without rotation an append always succeeds. -/
theorem append_single {writer : WalWriter} (single : writer.rotation = none)
    (record : WalRecord) :
    writer.append crc32c record = .ok (.fromRaw writer.nextSeq,
      writer.written crc32c writer.nextSeq record) := by
  rw [append_eq]
  simp only [WalWriter.mustRotate, single]
  rfl

/-! ## Numbering -/

theorem numbered_append (start : UInt64) (records more : List WalRecord) :
    numbered start (records ++ more) =
      numbered start records ++ numbered (start + UInt64.ofNat records.length) more := by
  induction records generalizing start with
  | nil => simp [numbered]
  | cons record records ih =>
      rw [List.cons_append, numbered, numbered, ih, List.length_cons,
        ofNat_succ, UInt64.add_assoc]
      rfl

theorem length_numbered (start : UInt64) (records : List WalRecord) :
    (numbered start records).length = records.length := by
  induction records generalizing start with
  | nil => rfl
  | cons record records ih => rw [numbered, List.length_cons, ih, List.length_cons]

theorem map_snd_numbered (start : UInt64) (records : List WalRecord) :
    (numbered start records).map Prod.snd = records := by
  induction records generalizing start with
  | nil => rfl
  | cons record records ih => rw [numbered, List.map_cons, ih]

theorem take_numbered (start : UInt64) (records : List WalRecord) (count : Nat) :
    (numbered start records).take count = numbered start (records.take count) := by
  rcases Nat.le_total count records.length with within | beyond
  · have split := numbered_append start (records.take count) (records.drop count)
    rw [List.take_append_drop] at split
    rw [split]
    exact List.take_left' (by rw [length_numbered, List.length_take_of_le within])
  · rw [List.take_of_length_le beyond, List.take_of_length_le]
    rw [length_numbered]
    exact beyond

/-- Numbers that do not wrap lie in the interval they are drawn from. -/
theorem toNat_of_mem_numbered {start : UInt64} {records : List WalRecord}
    {entry : UInt64 × WalRecord} (fits : start.toNat + records.length ≤ 2 ^ 64)
    (member : entry ∈ numbered start records) :
    start.toNat ≤ entry.1.toNat ∧ entry.1.toNat < start.toNat + records.length := by
  induction records generalizing start with
  | nil => cases member
  | cons record records ih =>
      rw [List.length_cons] at fits ⊢
      rcases List.mem_cons.mp member with head | later
      · cases head
        exact ⟨Nat.le_refl _, Nat.lt_add_of_pos_right (Nat.succ_pos _)⟩
      · cases records with
        | nil => cases later
        | cons second records =>
            rw [List.length_cons] at fits ih ⊢
            have next := toNat_add_one (show start.toNat + 1 < 2 ^ 64 by omega)
            have bounds := ih (by omega) later
            omega

end Wal

end Bourse
