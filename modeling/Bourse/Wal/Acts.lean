import Bourse.Data.Throughout
import Bourse.Wal.Torn

/-!
# Sessions that may crash

A session on a directory, cut at everything it does to its files.  `create_segment` is a
creation, two writes and an `fsync`; an append writes the length, the checksum and the
payload; a commit is an `fsync`.  A crash may come after any of these acts, and then
leaves of every file a prefix that covers what was synced.
-/

namespace Bourse

namespace Wal

/-- One act of a session: something done to a file, or a point of the run. `appending` is
the point at which an append has its number and starts to write, `committed` the point at
which a commit is complete. -/
inductive Act where
  | create (path : FileName)
  | write (path : FileName) (bytes : Bytes)
  | sync (path : FileName)
  | appending (entry : Sequence × WalRecord)
  | committed
  deriving DecidableEq

/-- The directory, the records whose append has started to write, those of them that a
complete commit covers, and those that the next commit of the session will cover. -/
structure World where
  files : Directory
  started : List (Sequence × WalRecord)
  committed : List (Sequence × WalRecord)
  pending : List (Sequence × WalRecord)

/-- Change the file at a path. -/
def updateFile (files : Directory) (path : FileName) (change : SegmentFile → SegmentFile) :
    Directory :=
  files.map fun file => if file.1 = path then (file.1, change file.2) else file

namespace World

/-- An empty directory. -/
def empty : World := ⟨[], [], [], []⟩

/-- The world after one act. -/
def act (world : World) : Act → World
  | .create path => { world with files := world.files ++ [(path, ⟨[], 0⟩)] }
  | .write path bytes =>
      let change (file : SegmentFile) := { file with bytes := file.bytes ++ bytes }
      { world with files := updateFile world.files path change }
  | .sync path =>
      let change (file : SegmentFile) := { file with synced := file.bytes.length }
      { world with files := updateFile world.files path change }
  | .appending entry =>
      { world with
        started := world.started ++ [entry]
        pending := world.pending ++ [entry] }
  | .committed =>
      { world with
        committed := world.committed ++ world.pending
        pending := [] }

/-- A crash after which the disk has kept so many bytes of each file. -/
def crash (kept : FileName → Nat) (world : World) : World :=
  { world with files := world.files.map fun file => (file.1, file.2.cut (kept file.1)) }

end World

/-! ## What a session does -/

/-- `create_segment` at a free name. -/
def createSegmentActs (path : FileName) : List Act :=
  [.create path, .write path (Bytes.ofU32 magic), .write path [segmentVersion, 0, 0, 0],
    .sync path]

/-- `commit`. -/
def commitActs (path : FileName) : List Act := [.sync path, .committed]

section Session

variable (crc32c : Bytes → UInt32)

/-- The writes of an append. -/
def frameActs (path : FileName) (seq : UInt64) (record : WalRecord) : List Act :=
  [.appending (.fromRaw seq, record),
    .write path (Bytes.ofU32 (UInt32.ofNat (payload seq record).length)),
    .write path (Bytes.ofU32 (crc32c (payload seq record))),
    .write path (payload seq record)]

/-- The name of the next segment is taken, so that `rotate` fails behind its commit. -/
def Rotation.taken (rotation : Rotation) : Bool :=
  (rotation.others.map Prod.fst ++ [rotation.path]).contains (segmentPath rotation.nextIndex)

/-- `append`, with the rotation in front of it. -/
def WalWriter.appendActs (writer : WalWriter) (rotation : Rotation) (record : WalRecord) :
    List Act :=
  if writer.mustRotate (8 + UInt64.ofNat (payload writer.nextSeq record).length) then
    let path := segmentPath rotation.nextIndex
    commitActs rotation.path ++ if rotation.taken then []
      else createSegmentActs path ++ frameActs crc32c path writer.nextSeq record
  else frameActs crc32c rotation.path writer.nextSeq record

/-- The acts of a call on a writer in a directory. -/
def Op.acts (writer : WalWriter) (op : Op) : List Act :=
  match writer.rotation with
  | none => []
  | some rotation =>
      match op with
      | .append record => writer.appendActs crc32c rotation record
      | .commit => commitActs rotation.path

/-- The writer after a rotation that failed: `next_index` was already increased. -/
def WalWriter.rotateFailed (writer : WalWriter) : WalWriter :=
  { writer.commit with
    rotation := writer.rotation.map fun rotation =>
      { rotation with nextIndex := rotation.nextIndex + 1 } }

/-- The writer after a call. An append can only fail in `rotate`, and the caller may go on
after the error. -/
def Op.next (writer : WalWriter) : Op → WalWriter
  | .append record =>
      match writer.append crc32c record with
      | .ok (_, next) => next
      | .error _ => writer.rotateFailed
  | .commit => writer.commit

/-- The record that a call appends, if it does not fail. -/
def Op.appended (writer : WalWriter) : Op → List WalRecord
  | .append record =>
      match writer.append crc32c record with
      | .ok _ => [record]
      | .error _ => []
  | .commit => []

/-- The acts of a list of calls. -/
def opActs : WalWriter → List Op → List Act
  | _, [] => []
  | writer, op :: ops => op.acts crc32c writer ++ opActs (op.next crc32c writer) ops

/-- The records that a list of calls appends. -/
def opsAppended : WalWriter → List Op → List WalRecord
  | _, [] => []
  | writer, op :: ops =>
      op.appended crc32c writer ++ opsAppended (op.next crc32c writer) ops

/-- The acts of a session on a directory. Opening fails if no index is left. -/
def sessionActs (readDir : ReadDir) (files : Directory) (session : Session) : List Act :=
  match openDir readDir files session.maxSegmentBytes with
  | .error _ => []
  | .ok writer =>
      match writer.rotation with
      | none => []
      | some rotation => createSegmentActs rotation.path ++ opActs crc32c writer session.ops

/-- The records that a session on a directory appends: those whose `append` returns a
number. -/
def Session.appended (readDir : ReadDir) (files : Directory) (session : Session) :
    List WalRecord :=
  match openDir readDir files session.maxSegmentBytes with
  | .error _ => []
  | .ok writer => opsAppended crc32c writer session.ops

end Session

/-- A crash: how many acts came before it, and how many bytes the disk kept of each file. -/
structure Crash where
  acts : Nat
  kept : FileName → Nat

/-- A session that ends with its calls or in a crash. -/
structure Attempt where
  session : Session
  crash : Option Crash

section Run

variable (crc32c : Bytes → UInt32) (readDir : ReadDir)

/-- The world after an attempt. What it appended and did not commit is not committed by
the next one. -/
def Attempt.run (world : World) (attempt : Attempt) : World :=
  let start := { world with pending := [] }
  let acts := sessionActs crc32c readDir world.files attempt.session
  match attempt.crash with
  | none => acts.foldl World.act start
  | some crash => ((acts.take crash.acts).foldl World.act start).crash crash.kept

/-- A history of attempts on an initially empty directory. -/
def runAttempts (attempts : List Attempt) : World :=
  attempts.foldl (Attempt.run crc32c readDir) World.empty

end Run

end Wal

end Bourse
