import Bourse.Data.Crc32c
import Bourse.Wal.Codec

/-!
# What the reader of the log accepts

`read_record` judges a payload by its checksum, its length and `decode_record`.  The decoder
succeeds exactly on an encoded record with anything behind it: unlike the wire protocol it
does not ask for the end of the payload.
-/

namespace Bourse

namespace Wal

variable {cursor rest : Bytes}

/-! ## The decoder -/

theorem Cursor.read_eq_ok {α : Type} {taken : Option (α × Bytes)} {read : α × Bytes}
    (ok : Cursor.read taken = .ok read) : taken = some read := by
  cases taken with
  | none => cases ok
  | some taken =>
      cases ok
      rfl

theorem Cursor.readU8_eq_ok {byte : UInt8}
    (ok : Cursor.read cursor.readU8 = .ok (byte, rest)) : cursor = byte :: rest :=
  Bytes.readU8_eq_some (Cursor.read_eq_ok ok)

theorem Cursor.readU64_eq_ok {value : UInt64}
    (ok : Cursor.read cursor.readU64 = .ok (value, rest)) :
    cursor = Bytes.ofU64 value ++ rest :=
  Bytes.readU64_eq_some (Cursor.read_eq_ok ok)

theorem Cursor.readI64_eq_ok {value : Int64}
    (ok : Cursor.read cursor.readI64 = .ok (value, rest)) :
    cursor = Bytes.ofI64 value ++ rest :=
  Bytes.readI64_eq_some (Cursor.read_eq_ok ok)

theorem decodeSide_eq_ok {byte : UInt8} {side : Side} (ok : decodeSide byte = .ok side) :
    byte = encodeSide side := by
  unfold decodeSide at ok
  split at ok
  next buy =>
    cases ok
    exact buy
  next =>
    split at ok
    next sell =>
      cases ok
      exact sell
    next => cases ok

theorem decodePriced_eq_ok {kind : Price → OrderKind} {value : OrderKind}
    (ok : decodePriced kind cursor = .ok (value, rest)) :
    ∃ price : Price, value = kind price ∧ cursor = Bytes.ofI64 price.raw ++ rest := by
  rcases bind_eq_ok.mp ok with ⟨⟨price, after⟩, priceRead, done⟩
  cases done
  exact ⟨.fromRaw price, rfl, Cursor.readI64_eq_ok priceRead⟩

theorem decodeKind_eq_ok {tag : UInt8} {kind : OrderKind}
    (ok : decodeKind tag cursor = .ok (kind, rest)) :
    tag :: cursor = encodeKind kind ++ rest := by
  unfold decodeKind at ok
  split at ok
  next limit =>
    rcases decodePriced_eq_ok ok with ⟨price, rfl, rfl⟩
    rw [limit]
    rfl
  split at ok
  next market =>
    cases ok
    rw [market]
    rfl
  split at ok
  next ioc =>
    rcases decodePriced_eq_ok ok with ⟨price, rfl, rfl⟩
    rw [ioc]
    rfl
  split at ok
  next postOnly =>
    rcases decodePriced_eq_ok ok with ⟨price, rfl, rfl⟩
    rw [postOnly]
    rfl
  split at ok
  next fok =>
    rcases decodePriced_eq_ok ok with ⟨price, rfl, rfl⟩
    rw [fok]
    rfl
  next => cases ok

/-- The decoder accepts an encoded record with anything behind it, and nothing else. -/
theorem decodeRecord_eq_ok {bytes : Bytes} {record : WalRecord} :
    decodeRecord bytes = .ok record ↔ ∃ extra, bytes = encodeRecord record ++ extra := by
  constructor
  · intro ok
    rcases bind_eq_ok.mp ok with ⟨⟨version, behindVersion⟩, versionRead, ok⟩
    change ite _ _ _ = _ at ok
    split at ok
    · cases ok
    next known =>
    rcases bind_eq_ok.mp ok with ⟨⟨tag, behindTag⟩, tagRead, ok⟩
    rw [Cursor.readU8_eq_ok versionRead, not_not.mp known, Cursor.readU8_eq_ok tagRead]
    change ite _ _ _ = _ at ok
    split at ok
    next newOrder =>
      rcases bind_eq_ok.mp ok with ⟨⟨id, behindId⟩, idRead, ok⟩
      rcases bind_eq_ok.mp ok with ⟨⟨sideByte, behindSide⟩, sideRead, ok⟩
      rcases bind_eq_ok.mp ok with ⟨side, sideDecoded, ok⟩
      rcases bind_eq_ok.mp ok with ⟨⟨qty, behindQty⟩, qtyRead, ok⟩
      rcases bind_eq_ok.mp ok with ⟨⟨kindTag, behindKindTag⟩, kindTagRead, ok⟩
      rcases bind_eq_ok.mp ok with ⟨⟨kind, behindKind⟩, kindDecoded, ok⟩
      rcases bind_eq_ok.mp ok with ⟨⟨nanos, extra⟩, nanosRead, ok⟩
      cases ok
      have kindBytes := decodeKind_eq_ok kindDecoded
      rw [Cursor.readI64_eq_ok nanosRead] at kindBytes
      rw [newOrder, Cursor.readU64_eq_ok idRead, Cursor.readU8_eq_ok sideRead,
        Cursor.readU64_eq_ok qtyRead, Cursor.readU8_eq_ok kindTagRead, kindBytes,
        decodeSide_eq_ok sideDecoded]
      exact ⟨extra, by simp [encodeRecord]⟩
    split at ok
    next cancel =>
      rcases bind_eq_ok.mp ok with ⟨⟨id, extra⟩, idRead, ok⟩
      cases ok
      rw [cancel, Cursor.readU64_eq_ok idRead]
      exact ⟨extra, rfl⟩
    next => cases ok
  · intro encoded
    rcases encoded with ⟨extra, rfl⟩
    exact decodeRecord_encodeRecord record extra

/-- Two encodings that start alike are of the same record. -/
theorem encodeRecord_append_inj {record other : WalRecord} {extra more : Bytes}
    (same : encodeRecord record ++ extra = encodeRecord other ++ more) : record = other := by
  have decoded := decodeRecord_encodeRecord record extra
  rw [same, decodeRecord_encodeRecord] at decoded
  exact (Except.ok.inj decoded).symm

/-! ## The reader -/

section Reader

variable (crc32c : Bytes → UInt32)

/-- What `read_record` makes of a payload that it has read. -/
def judgePayload (crc : UInt32) (payload rest : Bytes) :
    Except WalError (Option ((Sequence × WalRecord) × Bytes)) :=
  if crc32c payload ≠ crc then .error .crcMismatch
  else if payload.length < 8 then .error .truncated
  else do
    let seq := Sequence.fromRaw (Bytes.toU64 (payload.take 8))
    let record ← decodeRecord (payload.drop 8)
    return some ((seq, record), rest)

/-- Reading behind a header takes as many bytes as it says, if they are there. -/
theorem readRecord_header (len crc : UInt32) (input : Bytes) :
    readRecord crc32c (Bytes.ofU32 len ++ (Bytes.ofU32 crc ++ input)) =
      if len.toNat ≤ input.length then
        judgePayload crc32c crc (input.take len.toNat) (input.drop len.toNat)
      else .ok none := by
  have size : (Bytes.ofU32 len ++ Bytes.ofU32 crc).length = 8 := by simp
  have lenBytes : (Bytes.ofU32 len ++ Bytes.ofU32 crc).take 4 = Bytes.ofU32 len :=
    List.take_left' (Bytes.length_ofU32 len)
  have crcBytes : (Bytes.ofU32 len ++ Bytes.ofU32 crc).drop 4 = Bytes.ofU32 crc :=
    List.drop_left' (Bytes.length_ofU32 len)
  rw [← List.append_assoc, readRecord, Bytes.readExact_append size]
  simp only [lenBytes, crcBytes, Bytes.toU32_ofU32, Bytes.readExact]
  by_cases enough : len.toNat ≤ input.length
  · simp only [if_pos enough]
    rfl
  · simp only [if_neg enough]

/-- A payload passes exactly if its checksum is right and it is the payload of a record,
with anything behind it. -/
theorem judgePayload_eq_ok {crc : UInt32} {bytes rest left : Bytes} {seq : UInt64}
    {record : WalRecord} :
    judgePayload crc32c crc bytes rest = .ok (some ((.fromRaw seq, record), left)) ↔
      crc32c bytes = crc ∧ left = rest ∧ ∃ extra, bytes = payload seq record ++ extra := by
  rw [judgePayload]
  split
  next wrong =>
    constructor
    · intro impossible
      cases impossible
    · intro passes
      exact absurd passes.1 wrong
  next right =>
  split
  next short =>
    constructor
    · intro impossible
      cases impossible
    · intro passes
      rcases passes with ⟨-, -, extra, rfl⟩
      rw [List.length_append, length_payload] at short
      omega
  next long =>
  have size : (bytes.take 8).length = 8 := List.length_take_of_le (by omega)
  constructor
  · intro ok
    rcases bind_eq_ok.mp ok with ⟨value, decoded, done⟩
    cases done
    rcases decodeRecord_eq_ok.mp decoded with ⟨extra, split⟩
    refine ⟨not_not.mp right, rfl, extra, ?_⟩
    rw [payload, Bytes.ofU64_toU64 size, List.append_assoc, ← split, List.take_append_drop]
  · intro passes
    rcases passes with ⟨-, rfl, extra, rfl⟩
    have seqBytes : (payload seq record ++ extra).take 8 = Bytes.ofU64 seq := by
      rw [payload, List.append_assoc]
      exact List.take_left' (Bytes.length_ofU64 seq)
    have recordBytes : (payload seq record ++ extra).drop 8 = encodeRecord record ++ extra := by
      rw [payload, List.append_assoc]
      exact List.drop_left' (Bytes.length_ofU64 seq)
    simp only [seqBytes, recordBytes, Bytes.toU64_ofU64, decodeRecord_encodeRecord, ok_bind]
    rfl

theorem judgePayload_ne_none (crc : UInt32) (bytes rest : Bytes) :
    judgePayload crc32c crc bytes rest ≠ .ok none := by
  rw [judgePayload]
  intro ok
  split at ok
  · cases ok
  split at ok
  · cases ok
  rcases bind_eq_ok.mp ok with ⟨value, -, done⟩
  cases done

/-- Any payload behind its length and its checksum. -/
def framed (bytes : Bytes) : Bytes :=
  Bytes.ofU32 (UInt32.ofNat bytes.length) ++ (Bytes.ofU32 (crc32c bytes) ++ bytes)

theorem readRecord_framed {bytes : Bytes} (fits : bytes.length < 2 ^ 32) (rest : Bytes) :
    readRecord crc32c (framed crc32c bytes ++ rest) =
      judgePayload crc32c (crc32c bytes) bytes rest := by
  have len : (UInt32.ofNat bytes.length).toNat = bytes.length := by
    rw [UInt32.toNat_ofNat', Nat.mod_eq_of_lt fits]
  rw [framed, List.append_assoc, List.append_assoc, readRecord_header, len, if_pos,
    List.take_left, List.drop_left]
  rw [List.length_append]
  exact Nat.le_add_right _ _

/-- The payload is read as a record exactly if it is the payload of that record, and is
refused if it is the payload of none. -/
def ReadExactly (bytes rest : Bytes) : Prop :=
  (∀ seq record, readRecord crc32c (framed crc32c bytes ++ rest) =
      .ok (some ((.fromRaw seq, record), rest)) ↔ bytes = payload seq record) ∧
  ((∀ seq record, bytes ≠ payload seq record) →
    ∃ error, readRecord crc32c (framed crc32c bytes ++ rest) = .error error)

/-- A payload is a record's with further bytes behind it. -/
def Overlong (bytes : Bytes) : Prop :=
  ∃ seq record extra, extra ≠ [] ∧ bytes = payload seq record ++ extra

/-- Reading is exact for all payloads but those that go on behind a whole record. -/
theorem readExactly_iff_not_overlong {bytes : Bytes} (fits : bytes.length < 2 ^ 32)
    (rest : Bytes) : ReadExactly crc32c bytes rest ↔ ¬Overlong bytes := by
  rw [ReadExactly, readRecord_framed crc32c fits]
  constructor
  · intro exactly overlong
    rcases overlong with ⟨seq, record, extra, some, split⟩
    have whole := (exactly.1 seq record).mp
      ((judgePayload_eq_ok crc32c).mpr ⟨rfl, rfl, extra, split⟩)
    rw [split, List.append_right_eq_self] at whole
    exact some whole
  · intro notOverlong
    have ends : ∀ {seq record extra}, bytes = payload seq record ++ extra →
        bytes = payload seq record := by
      intro seq record extra split
      by_cases none : extra = []
      · rw [split, none, List.append_nil]
      · exact absurd ⟨seq, record, extra, none, split⟩ notOverlong
    constructor
    · intro seq record
      constructor
      · intro ok
        rcases (judgePayload_eq_ok crc32c).mp ok with ⟨-, -, extra, split⟩
        exact ends split
      · intro whole
        exact (judgePayload_eq_ok crc32c).mpr ⟨rfl, rfl, [], by rw [List.append_nil, whole]⟩
    · intro other
      cases judged : judgePayload crc32c (crc32c bytes) bytes rest with
      | error error => exact ⟨error, rfl⟩
      | ok read =>
          cases read with
          | none => exact absurd judged (judgePayload_ne_none crc32c _ _ _)
          | some read =>
              rcases read with ⟨⟨⟨seq⟩, record⟩, left⟩
              rcases (judgePayload_eq_ok crc32c).mp judged with ⟨-, -, extra, split⟩
              exact absurd (ends split) (other seq record)

/-- The payload of a record is not the beginning of another one's. -/
theorem not_overlong_payload (seq : UInt64) (record : WalRecord) :
    ¬Overlong (payload seq record) := by
  intro overlong
  rcases overlong with ⟨other, written, extra, behind, split⟩
  have read : ∀ {seq' record'}, (∃ extra, payload seq record = payload seq' record' ++ extra) →
      judgePayload Crc32c.checksum (Crc32c.checksum (payload seq record)) (payload seq record) [] =
        .ok (some ((.fromRaw seq', record'), [])) :=
    fun whole => (judgePayload_eq_ok Crc32c.checksum).mpr ⟨rfl, rfl, whole⟩
  have same := (read ⟨[], (List.append_nil _).symm⟩).symm.trans (read ⟨extra, split⟩)
  cases same
  exact behind (List.append_right_eq_self.mp split.symm)

/-- The payload of an order is read back. -/
theorem readExactly_iff_not_overlong_order :
    let order : NewOrder := ⟨.new 7, .sell, .new 5, .limit (.fromRaw 100), .fromNanos 9⟩
    ReadExactly Crc32c.checksum (payload 1 (.newOrder order)) [] ∧
      readRecord Crc32c.checksum (framed Crc32c.checksum (payload 1 (.newOrder order)) ++ []) =
        .ok (some ((.fromRaw 1, .newOrder order), [])) := by
  intro order
  have exactly := (readExactly_iff_not_overlong Crc32c.checksum (by decide) []).mpr
    (not_overlong_payload 1 (.newOrder order))
  exact ⟨exactly, (exactly.1 1 (.newOrder order)).mpr rfl⟩

/-- One byte behind a cancel is overlooked. -/
theorem not_readExactly_trailing_byte :
    ¬ReadExactly Crc32c.checksum (payload 1 (.cancel (.new 7)) ++ [0]) [] := by
  intro exactly
  have accepted : readRecord Crc32c.checksum
      (framed Crc32c.checksum (payload 1 (.cancel (.new 7)) ++ [0]) ++ []) =
        .ok (some ((.fromRaw 1, .cancel (.new 7)), [])) := by decide +kernel
  have whole := (exactly.1 1 (.cancel (.new 7))).mp accepted
  exact absurd whole (by decide)

end Reader

end Wal

end Bourse
