import Bourse.Data.Bytes
import Bourse.Data.Fallible
import Bourse.Data.Loop
import Bourse.Matcher.Run

/-!
# Records and segments of the write-ahead log

The byte formats of `bourse-core/src/wal.rs`: records, their frames, the segment
header, and the reader.  `crc32c` comes from a library and is a parameter.  A file
is read as the bytes it holds; reads fail only at its end.
-/

namespace Bourse

/-- The kinds of I/O errors that a working disk can produce here. -/
inductive IoError where
  | unexpectedEof
  | alreadyExists
  deriving DecidableEq, Repr

/-- Errors from the write-ahead log. -/
inductive WalError where
  | io (error : IoError)
  | crcMismatch
  | badMagic
  | unknownSegmentVersion (version : UInt8)
  | unknownRecordVersion (version : UInt8)
  | unknownRecordType (tag : UInt8)
  | unknownKindTag (tag : UInt8)
  | unknownSide (side : UInt8)
  | recordTooLarge
  | truncated
  deriving DecidableEq, Repr

/-- A replay-applicable record. -/
inductive WalRecord where
  | newOrder (order : NewOrder)
  | cancel (id : OrderId)
  deriving DecidableEq, Repr

/-- What a record makes the matcher do. -/
def WalRecord.command : WalRecord → Command
  | .newOrder order => .new order
  | .cancel id => .cancel id

namespace Wal

/-- `"MXCW"` as little-endian bytes. -/
def magic : UInt32 := 0x5743584D
def segmentVersion : UInt8 := 2
def recordVersion : UInt8 := 1
def recTypeNewOrder : UInt8 := 1
def recTypeCancel : UInt8 := 2
def kindLimit : UInt8 := 1
def kindMarket : UInt8 := 2
def kindIoc : UInt8 := 3
def kindPostOnly : UInt8 := 4
def kindFok : UInt8 := 5
def sideBuy : UInt8 := 1
def sideSell : UInt8 := 2

/-! ## Records -/

def encodeSide : Side → UInt8
  | .buy => sideBuy
  | .sell => sideSell

def encodeKind : OrderKind → Bytes
  | .limit price => kindLimit :: Bytes.ofI64 price.raw
  | .market => [kindMarket]
  | .ioc price => kindIoc :: Bytes.ofI64 price.raw
  | .postOnly price => kindPostOnly :: Bytes.ofI64 price.raw
  | .fok price => kindFok :: Bytes.ofI64 price.raw

/-- The bytes `encode_record` appends. -/
def encodeRecord : WalRecord → Bytes
  | .newOrder order =>
      recordVersion :: recTypeNewOrder :: (Bytes.ofU64 order.id.get ++
        encodeSide order.side :: (Bytes.ofU64 order.qty.get ++
          (encodeKind order.kind ++ Bytes.ofI64 order.timestamp.nanos)))
  | .cancel id => recordVersion :: recTypeCancel :: Bytes.ofU64 id.get

/-- A cursor is the part of the payload that has not been read. A read beyond its
end is an `UnexpectedEof`. -/
def Cursor.read {α : Type} (taken : Option (α × Bytes)) : Except WalError (α × Bytes) :=
  match taken with
  | some read => .ok read
  | none => .error (.io .unexpectedEof)

def decodeSide (byte : UInt8) : Except WalError Side :=
  if byte = sideBuy then .ok .buy
  else if byte = sideSell then .ok .sell
  else .error (.unknownSide byte)

/-- The price of a priced order kind. -/
def decodePriced (kind : Price → OrderKind) (cursor : Bytes) :
    Except WalError (OrderKind × Bytes) := do
  let (price, cursor) ← Cursor.read cursor.readI64
  return (kind (.fromRaw price), cursor)

def decodeKind (tag : UInt8) (cursor : Bytes) : Except WalError (OrderKind × Bytes) :=
  if tag = kindLimit then decodePriced .limit cursor
  else if tag = kindMarket then .ok (.market, cursor)
  else if tag = kindIoc then decodePriced .ioc cursor
  else if tag = kindPostOnly then decodePriced .postOnly cursor
  else if tag = kindFok then decodePriced .fok cursor
  else .error (.unknownKindTag tag)

/-- `decode_record`. Bytes behind the record are not looked at. -/
def decodeRecord (payload : Bytes) : Except WalError WalRecord := do
  let (version, cursor) ← Cursor.read payload.readU8
  if version ≠ recordVersion then throw (.unknownRecordVersion version)
  let (tag, cursor) ← Cursor.read cursor.readU8
  if tag = recTypeNewOrder then
    let (id, cursor) ← Cursor.read cursor.readU64
    let (sideByte, cursor) ← Cursor.read cursor.readU8
    let side ← decodeSide sideByte
    let (qty, cursor) ← Cursor.read cursor.readU64
    let (kindTag, cursor) ← Cursor.read cursor.readU8
    let (kind, cursor) ← decodeKind kindTag cursor
    let (nanos, _) ← Cursor.read cursor.readI64
    return .newOrder ⟨.new id, side, .new qty, kind, .fromNanos nanos⟩
  else if tag = recTypeCancel then
    let (id, _) ← Cursor.read cursor.readU64
    return .cancel (.new id)
  else throw (.unknownRecordType tag)

@[simp] theorem Cursor.read_some {α : Type} (read : α × Bytes) :
    Cursor.read (some read) = .ok read := rfl

@[simp] theorem decodeSide_encodeSide (side : Side) :
    decodeSide (encodeSide side) = .ok side := by
  cases side <;> rfl

@[simp] theorem decodePriced_append (kind : Price → OrderKind) (price : Price)
    (rest : Bytes) :
    decodePriced kind (Bytes.ofI64 price.raw ++ rest) = .ok (kind price, rest) := by
  simp [decodePriced]

/-- What is read of an encoded kind. -/
theorem decodeKind_encodeKind (kind : OrderKind) (rest : Bytes) :
    ∃ tag body, encodeKind kind = tag :: body ∧
      decodeKind tag (body ++ rest) = .ok (kind, rest) := by
  cases kind with
  | limit price => exact ⟨_, _, rfl, decodePriced_append ..⟩
  | market => exact ⟨_, _, rfl, rfl⟩
  | ioc price => exact ⟨_, _, rfl, decodePriced_append ..⟩
  | postOnly price => exact ⟨_, _, rfl, decodePriced_append ..⟩
  | fok price => exact ⟨_, _, rfl, decodePriced_append ..⟩

/-- An encoded record is read back whatever follows it. -/
theorem decodeRecord_encodeRecord (record : WalRecord) (rest : Bytes) :
    decodeRecord (encodeRecord record ++ rest) = .ok record := by
  cases record with
  | newOrder order =>
      rcases decodeKind_encodeKind order.kind
        (Bytes.ofI64 order.timestamp.nanos ++ rest) with ⟨tag, body, encoded, decoded⟩
      simp [decodeRecord, encodeRecord, encoded, decoded]
  | cancel id =>
      have notNew : recTypeCancel ≠ recTypeNewOrder := by decide
      simp [decodeRecord, encodeRecord, notNew]

theorem length_encodeRecord (record : WalRecord) : (encodeRecord record).length ≤ 36 := by
  cases record with
  | newOrder order => cases kind : order.kind <;> simp [encodeRecord, encodeKind, kind]
  | cancel id => simp [encodeRecord]

/-! ## Frames and segments -/

section Segment

variable (crc32c : Bytes → UInt32)

/-- The payload of a frame. -/
def payload (seq : UInt64) (record : WalRecord) : Bytes :=
  Bytes.ofU64 seq ++ encodeRecord record

/-- A record on disk: length, checksum, payload. -/
def frame (seq : UInt64) (record : WalRecord) : Bytes :=
  Bytes.ofU32 (UInt32.ofNat (payload seq record).length) ++
    (Bytes.ofU32 (crc32c (payload seq record)) ++ payload seq record)

/-- The header of a segment. -/
def segmentHeader : Bytes := Bytes.ofU32 magic ++ [segmentVersion, 0, 0, 0]

/-- `WalReader::open`: what follows a valid header. -/
def openReader (file : Bytes) : Except WalError Bytes :=
  match file.readExact 8 with
  | none => .error (.io .unexpectedEof)
  | some (header, rest) =>
      if Bytes.toU32 (header.take 4) ≠ magic then .error .badMagic
      else if header[4]? ≠ some segmentVersion then
        .error (.unknownSegmentVersion (header[4]?.getD 0))
      else .ok rest

/-- `WalReader::read_record`: the next record and what follows it. A frame that is cut
off is the end of the log. -/
def readRecord (input : Bytes) :
    Except WalError (Option ((Sequence × WalRecord) × Bytes)) :=
  match input.readExact 8 with
  | none => .ok none
  | some (header, input) =>
      let len := Bytes.toU32 (header.take 4)
      let crc := Bytes.toU32 (header.drop 4)
      match input.readExact len.toNat with
      | none => .ok none
      | some (payload, rest) =>
          if crc32c payload ≠ crc then .error .crcMismatch
          else if payload.length < 8 then .error .truncated
          else do
            let seq := Sequence.fromRaw (Bytes.toU64 (payload.take 8))
            let record ← decodeRecord (payload.drop 8)
            return some ((seq, record), rest)

/-- The state of a scan: what is left of the file, what was handed to the callback,
and the error that ended the scan. -/
structure Scan where
  rest : Bytes
  delivered : List (Sequence × WalRecord)
  error : Option WalError

/-- One iteration of the `while let` loop over `read_record`. -/
def scanBody (scan : Scan) : Option Scan :=
  match scan.error with
  | some _ => none
  | none =>
      match readRecord crc32c scan.rest with
      | .ok none => none
      | .ok (some (record, rest)) => some ⟨rest, scan.delivered ++ [record], none⟩
      | .error error => some { scan with error := some error }

theorem readRecord_shorter {input rest : Bytes} {record : Sequence × WalRecord}
    (read : readRecord crc32c input = .ok (some (record, rest))) :
    rest.length < input.length := by
  unfold readRecord at read
  split at read
  · cases read
  next header tail headerRead =>
    rcases Bytes.readExact_eq_some headerRead with ⟨split, size⟩
    simp only at read
    split at read
    · cases read
    next body left bodyRead =>
      rcases Bytes.readExact_eq_some bodyRead with ⟨bodySplit, -⟩
      split at read
      · cases read
      · split at read
        · cases read
        · cases decoded : decodeRecord (body.drop 8) with
          | error error =>
              rw [decoded] at read
              cases read
          | ok value =>
              rw [decoded] at read
              cases read
              rw [split, List.length_append, size, bodySplit, List.length_append]
              omega

/-- The loop of `for_each_record`. -/
def scanLoop : Loop Scan where
  body := scanBody crc32c
  variant scan := scan.rest.length + if scan.error = none then 1 else 0
  decreases := by
    intro scan next step
    unfold scanBody at step
    split at step
    · cases step
    next running =>
      split at step
      · cases step
      next record rest read =>
        cases step
        have shorter := readRecord_shorter crc32c read
        simp only [running, if_true]
        omega
      next error read =>
        cases step
        simp [running]

/-- `for_each_record` on the bytes of a file: the records handed to the callback, and
the result. -/
def forEachRecord (file : Bytes) : List (Sequence × WalRecord) × Except WalError Unit :=
  match openReader file with
  | .error error => ([], .error error)
  | .ok rest =>
      let final := (scanLoop crc32c).run ⟨rest, [], none⟩
      (final.delivered,
        match final.error with
        | none => .ok ()
        | some error => .error error)

/-! ## Reading back what was written -/

theorem length_payload (seq : UInt64) (record : WalRecord) :
    (payload seq record).length = 8 + (encodeRecord record).length := by
  simp [payload]

theorem payload_fits (seq : UInt64) (record : WalRecord) :
    (UInt32.ofNat (payload seq record).length).toNat = (payload seq record).length := by
  have short := length_encodeRecord record
  rw [length_payload, UInt32.toNat_ofNat', Nat.mod_eq_of_lt]
  omega

theorem length_frame (seq : UInt64) (record : WalRecord) :
    (frame crc32c seq record).length = 8 + (payload seq record).length := by
  simp [frame]
  omega

/-- The length and checksum in front of a payload. -/
theorem frame_header (seq : UInt64) (record : WalRecord) :
    ∃ header, Bytes.toU32 (header.take 4) = UInt32.ofNat (payload seq record).length ∧
      Bytes.toU32 (header.drop 4) = crc32c (payload seq record) ∧ header.length = 8 ∧
      frame crc32c seq record = header ++ payload seq record := by
  refine ⟨Bytes.ofU32 (UInt32.ofNat (payload seq record).length) ++
    Bytes.ofU32 (crc32c (payload seq record)), ?_, ?_, by simp, by simp [frame]⟩
  · rw [List.take_left' (by simp), Bytes.toU32_ofU32]
  · rw [List.drop_left' (by simp), Bytes.toU32_ofU32]

/-- A frame is read back whatever follows it. -/
theorem readRecord_frame (seq : UInt64) (record : WalRecord) (rest : Bytes) :
    readRecord crc32c (frame crc32c seq record ++ rest) =
      .ok (some ((.fromRaw seq, record), rest)) := by
  rcases frame_header crc32c seq record with ⟨header, len, crc, size, split⟩
  have long : ¬(payload seq record).length < 8 := by
    rw [length_payload]
    omega
  have seqBytes : (payload seq record).take 8 = Bytes.ofU64 seq :=
    List.take_left' (Bytes.length_ofU64 seq)
  have recordBytes : (payload seq record).drop 8 = encodeRecord record ++ [] := by
    rw [List.append_nil]
    exact List.drop_left' (Bytes.length_ofU64 seq)
  rw [split, List.append_assoc]
  simp only [readRecord, Bytes.readExact_append size, len, crc,
    Bytes.readExact_append (payload_fits seq record).symm, ne_eq, not_true_eq_false,
    if_false, if_neg long, seqBytes, recordBytes, Bytes.toU64_ofU64,
    decodeRecord_encodeRecord, ok_bind]
  rfl

/-- A frame that is cut off reads as the end of the log. -/
theorem readRecord_cut {seq : UInt64} {record : WalRecord} {count : Nat}
    (short : count < (frame crc32c seq record).length) :
    readRecord crc32c ((frame crc32c seq record).take count) = .ok none := by
  rcases frame_header crc32c seq record with ⟨header, len, crc, size, split⟩
  rw [split, List.length_append, size] at short
  rw [split]
  rcases Nat.lt_or_ge count 8 with inHeader | inPayload
  · have cut : ((header ++ payload seq record).take count).length < 8 := by
      rw [List.length_take]
      omega
    rw [readRecord, Bytes.readExact_short cut]
  · have cut : (header ++ payload seq record).take count =
        header ++ (payload seq record).take (count - 8) := by
      rw [List.take_append, List.take_of_length_le (by omega), size]
    have body : ((payload seq record).take (count - 8)).length <
        (UInt32.ofNat (payload seq record).length).toNat := by
      rw [payload_fits, List.length_take]
      omega
    rw [cut]
    simp only [readRecord, Bytes.readExact_append size, len, Bytes.readExact_short body]

theorem readRecord_nil : readRecord crc32c [] = .ok none := rfl

/-! ## Whole segments -/

/-- The frames of a list of numbered records. -/
def frames (log : List (UInt64 × WalRecord)) : Bytes :=
  log.flatMap fun entry => frame crc32c entry.1 entry.2

/-- The number of complete frames in the first `count` bytes. -/
def complete : List (UInt64 × WalRecord) → Nat → Nat
  | [], _ => 0
  | entry :: log, count =>
      if (frame crc32c entry.1 entry.2).length ≤ count then
        complete log (count - (frame crc32c entry.1 entry.2).length) + 1
      else 0

/-- What the reader makes of a numbered record. -/
def entryOf (entry : UInt64 × WalRecord) : Sequence × WalRecord :=
  (.fromRaw entry.1, entry.2)

/-- The scan delivers the frames in front and goes on behind them. -/
theorem scan_frames_append (log : List (UInt64 × WalRecord)) (tail : Bytes)
    (delivered : List (Sequence × WalRecord)) :
    (scanLoop crc32c).run ⟨frames crc32c log ++ tail, delivered, none⟩ =
      (scanLoop crc32c).run ⟨tail, delivered ++ log.map entryOf, none⟩ := by
  induction log generalizing delivered with
  | nil => simp [frames]
  | cons entry log ih =>
      have split : frames crc32c (entry :: log) ++ tail =
          frame crc32c entry.1 entry.2 ++ (frames crc32c log ++ tail) := by
        simp [frames]
      have step : (scanLoop crc32c).body ⟨frames crc32c (entry :: log) ++ tail, delivered,
          none⟩ = some ⟨frames crc32c log ++ tail, delivered ++ [entryOf entry], none⟩ := by
        rw [split]
        simp only [scanLoop, scanBody, readRecord_frame]
        rfl
      rw [(scanLoop crc32c).run_of_continue step, ih]
      simp

/-- The scan delivers all frames and stops in front of what is no frame. -/
theorem scan_frames (log : List (UInt64 × WalRecord)) {tail : Bytes}
    (stop : readRecord crc32c tail = .ok none) (delivered : List (Sequence × WalRecord)) :
    (scanLoop crc32c).run ⟨frames crc32c log ++ tail, delivered, none⟩ =
      ⟨tail, delivered ++ log.map entryOf, none⟩ := by
  have done : (scanLoop crc32c).body ⟨tail, delivered ++ log.map entryOf, none⟩ = none := by
    simp [scanLoop, scanBody, stop]
  rw [scan_frames_append, (scanLoop crc32c).run_of_break done]

/-- Cutting the frames leaves the complete ones and a rest that reads as the end. -/
theorem take_frames (log : List (UInt64 × WalRecord)) (count : Nat) :
    ∃ tail, (frames crc32c log).take count =
        frames crc32c (log.take (complete crc32c log count)) ++ tail ∧
      readRecord crc32c tail = .ok none := by
  induction log generalizing count with
  | nil => exact ⟨[], by simp [frames], readRecord_nil crc32c⟩
  | cons entry log ih =>
      have split : frames crc32c (entry :: log) =
          frame crc32c entry.1 entry.2 ++ frames crc32c log := by
        simp [frames]
      rw [complete, split]
      by_cases whole : (frame crc32c entry.1 entry.2).length ≤ count
      · rcases ih (count - (frame crc32c entry.1 entry.2).length) with ⟨tail, cut, stop⟩
        refine ⟨tail, ?_, stop⟩
        rw [if_pos whole, List.take_append, List.take_of_length_le whole, cut]
        simp [frames]
      · rw [if_neg whole]
        refine ⟨(frame crc32c entry.1 entry.2).take count, ?_,
          readRecord_cut crc32c (by omega)⟩
        rw [List.take_append_of_le_length (by omega)]
        simp [frames]

theorem frames_append (log more : List (UInt64 × WalRecord)) :
    frames crc32c (log ++ more) = frames crc32c log ++ frames crc32c more :=
  List.flatMap_append

/-- The complete frames are those whose bytes are all among the first `count`. -/
theorem le_complete_iff {log : List (UInt64 × WalRecord)} {whole : Nat}
    (within : whole ≤ log.length) (count : Nat) :
    whole ≤ complete crc32c log count ↔
      (frames crc32c (log.take whole)).length ≤ count := by
  induction log generalizing whole count with
  | nil =>
      have none : whole = 0 := Nat.le_zero.mp within
      simp [none, frames]
  | cons entry log ih =>
      cases whole with
      | zero => simp [frames]
      | succ whole =>
          have split : frames crc32c ((entry :: log).take (whole + 1)) =
              frame crc32c entry.1 entry.2 ++ frames crc32c (log.take whole) := by
            simp [frames]
          rw [split, List.length_append, complete]
          by_cases fits : (frame crc32c entry.1 entry.2).length ≤ count
          · rw [if_pos fits, Nat.add_le_add_iff_right,
              ih (Nat.le_of_succ_le_succ within)]
            omega
          · rw [if_neg fits]
            omega

theorem complete_le (log : List (UInt64 × WalRecord)) (count : Nat) :
    complete crc32c log count ≤ log.length := by
  induction log generalizing count with
  | nil => exact Nat.le_refl 0
  | cons entry log ih =>
      rw [complete]
      split
      · exact Nat.succ_le_succ (ih _)
      · exact Nat.zero_le _

theorem openReader_segmentHeader (rest : Bytes) :
    openReader (segmentHeader ++ rest) = .ok rest := by
  have size : segmentHeader.length = 8 := rfl
  rw [openReader, Bytes.readExact_append size]
  rfl

/-- A segment cut at any byte behind its header delivers its complete records. -/
theorem forEachRecord_take (log : List (UInt64 × WalRecord)) (count : Nat) :
    forEachRecord crc32c ((segmentHeader ++ frames crc32c log).take (8 + count)) =
      ((log.take (complete crc32c log count)).map entryOf, .ok ()) := by
  have size : segmentHeader.length = 8 := rfl
  have cut : (segmentHeader ++ frames crc32c log).take (8 + count) =
      segmentHeader ++ (frames crc32c log).take count := by
    rw [List.take_append, size, List.take_of_length_le (by omega), Nat.add_sub_cancel_left]
  rcases take_frames crc32c log count with ⟨tail, split, stop⟩
  rw [cut, forEachRecord, openReader_segmentHeader, split]
  simp [scan_frames crc32c _ stop]

/-- A whole segment delivers all its records. -/
theorem forEachRecord_frames (log : List (UInt64 × WalRecord)) :
    forEachRecord crc32c (segmentHeader ++ frames crc32c log) =
      (log.map entryOf, .ok ()) := by
  have scanned := scan_frames crc32c log (readRecord_nil crc32c) []
  rw [List.append_nil] at scanned
  rw [forEachRecord, openReader_segmentHeader]
  simp [scanned]

/-- A segment cut behind its header delivers nothing. -/
theorem forEachRecord_header (log : List (UInt64 × WalRecord)) :
    forEachRecord crc32c ((segmentHeader ++ frames crc32c log).take 8) = ([], .ok ()) := by
  have none : complete crc32c log 0 = 0 := by
    cases log with
    | nil => rfl
    | cons entry log =>
        rw [complete, if_neg]
        rw [length_frame]
        omega
  have cut := forEachRecord_take crc32c log 0
  rw [none] at cut
  exact cut

end Segment

end Wal

end Bourse
