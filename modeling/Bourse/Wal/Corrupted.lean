import Bourse.Wal.Exact
import Bourse.Wal.Writer

/-!
# Flipped bits

A bit that is flipped in a checksum or in a payload makes the reader stop with an error.  A
bit that is flipped in a length moves the end of its frame.  The length is not covered by
the checksum, and a frame that reaches beyond the end of the file is the mark of a torn
tail, so such a flip can pass for the end of the log.
-/

namespace Bourse

namespace Wal

variable (crc32c : Bytes → UInt32)

/-! ## Scans that end without an error -/

/-- Too few bytes for a header, or a header that asks for more bytes than follow it. -/
def CutOff (bytes : Bytes) : Prop :=
  bytes.length < 8 ∨ ∃ len crc input,
    bytes = Bytes.ofU32 len ++ (Bytes.ofU32 crc ++ input) ∧ input.length < len.toNat

/-- Frames of records, possibly with further bytes in their payloads, and then one that is
cut off. -/
inductive EndsCutOff : Bytes → Prop where
  | cut {bytes : Bytes} (short : CutOff bytes) : EndsCutOff bytes
  | frame {seq : UInt64} {record : WalRecord} {extra rest : Bytes}
      (fits : (payload seq record ++ extra).length < 2 ^ 32) (ends : EndsCutOff rest) :
      EndsCutOff (framed crc32c (payload seq record ++ extra) ++ rest)

/-- Any eight bytes are a header. -/
theorem exists_header {bytes : Bytes} (long : 8 ≤ bytes.length) :
    ∃ len crc input, bytes = Bytes.ofU32 len ++ (Bytes.ofU32 crc ++ input) := by
  have lenSize : (bytes.take 4).length = 4 := List.length_take_of_le (by omega)
  have crcSize : ((bytes.drop 4).take 4).length = 4 := by
    rw [List.length_take_of_le]
    rw [List.length_drop]
    omega
  refine ⟨Bytes.toU32 (bytes.take 4), Bytes.toU32 ((bytes.drop 4).take 4),
    (bytes.drop 4).drop 4, ?_⟩
  rw [Bytes.ofU32_toU32 lenSize, Bytes.ofU32_toU32 crcSize, List.take_append_drop,
    List.take_append_drop]

/-- The reader stops without an error exactly in front of a frame that is cut off. -/
theorem readRecord_eq_none {bytes : Bytes} :
    readRecord crc32c bytes = .ok none ↔ CutOff bytes := by
  rcases Nat.lt_or_ge bytes.length 8 with short | long
  · rw [readRecord, Bytes.readExact_short short]
    exact iff_of_true rfl (Or.inl short)
  · rcases exists_header long with ⟨len, crc, input, rfl⟩
    rw [readRecord_header]
    split
    next enough =>
      refine iff_of_false (judgePayload_ne_none crc32c _ _ _) ?_
      intro cut
      rcases cut with short | ⟨len', crc', input', same, less⟩
      · omega
      · rcases List.append_inj same (by simp) with ⟨lenSame, same⟩
        rcases List.append_inj same (by simp) with ⟨-, inputSame⟩
        have equal := congrArg Bytes.toU32 lenSame
        rw [Bytes.toU32_ofU32, Bytes.toU32_ofU32] at equal
        rw [← equal, ← inputSame] at less
        omega
    next less =>
      exact iff_of_true rfl (Or.inr ⟨len, crc, input, rfl, by omega⟩)

/-- The reader delivers a record exactly if its frame is there, possibly with a longer
payload. -/
theorem readRecord_eq_some {bytes rest : Bytes} {seq : UInt64} {record : WalRecord} :
    readRecord crc32c bytes = .ok (some ((.fromRaw seq, record), rest)) ↔
      ∃ extra, (payload seq record ++ extra).length < 2 ^ 32 ∧
        bytes = framed crc32c (payload seq record ++ extra) ++ rest := by
  constructor
  · intro read
    rcases Nat.lt_or_ge bytes.length 8 with short | long
    · rw [readRecord, Bytes.readExact_short short] at read
      cases read
    · rcases exists_header long with ⟨len, crc, input, rfl⟩
      rw [readRecord_header] at read
      split at read
      next enough =>
        rcases (judgePayload_eq_ok crc32c).mp read with ⟨rfl, rfl, extra, split⟩
        have size : (input.take len.toNat).length = len.toNat := List.length_take_of_le enough
        rw [split] at size
        refine ⟨extra, ?_, ?_⟩
        · rw [size]
          exact len.toNat_lt
        · rw [framed, size, UInt32.ofNat_toNat, ← split, List.append_assoc, List.append_assoc,
            List.take_append_drop]
      next => cases read
  · intro present
    rcases present with ⟨extra, fits, rfl⟩
    rw [readRecord_framed crc32c fits]
    exact (judgePayload_eq_ok crc32c).mpr ⟨rfl, rfl, extra, rfl⟩

/-- What the reader finds in front of such bytes. -/
theorem EndsCutOff.read {bytes : Bytes} (ends : EndsCutOff crc32c bytes) :
    readRecord crc32c bytes = .ok none ∨ ∃ entry rest,
      readRecord crc32c bytes = .ok (some (entry, rest)) ∧ EndsCutOff crc32c rest := by
  cases ends with
  | cut short => exact .inl ((readRecord_eq_none crc32c).mpr short)
  | frame fits ends => exact .inr ⟨_, _, (readRecord_eq_some crc32c).mpr ⟨_, fits, rfl⟩, ends⟩

theorem EndsCutOff.not_of_error {bytes : Bytes} {error : WalError}
    (read : readRecord crc32c bytes = .error error) : ¬EndsCutOff crc32c bytes := by
  intro ends
  rcases ends.read with none | ⟨entry, rest, some, -⟩
  · rw [none] at read
    cases read
  · rw [some] at read
    cases read

theorem EndsCutOff.iff_of_some {bytes rest : Bytes} {entry : Sequence × WalRecord}
    (read : readRecord crc32c bytes = .ok (some (entry, rest))) :
    EndsCutOff crc32c bytes ↔ EndsCutOff crc32c rest := by
  rcases entry with ⟨⟨seq⟩, record⟩
  constructor
  · intro ends
    rcases ends.read with none | ⟨entry, behind, some, endsBehind⟩
    · rw [none] at read
      cases read
    · rw [some] at read
      cases read
      exact endsBehind
  · intro ends
    rcases (readRecord_eq_some crc32c).mp read with ⟨extra, fits, rfl⟩
    exact .frame fits ends

/-- A scan ends without an error exactly if its bytes are frames with a cut-off one behind
them. -/
theorem scan_error_eq_none_iff (bytes : Bytes) (delivered : List (Sequence × WalRecord)) :
    ((scanLoop crc32c).run ⟨bytes, delivered, none⟩).error = none ↔
      EndsCutOff crc32c bytes := by
  generalize size : bytes.length = bound
  induction bound using Nat.strongRecOn generalizing bytes delivered with
  | ind bound ih =>
      subst size
      cases read : readRecord crc32c bytes with
      | error error =>
          have step : (scanLoop crc32c).body ⟨bytes, delivered, none⟩ =
              some ⟨bytes, delivered, some error⟩ := by
            simp [scanLoop, scanBody, read]
          have stop : (scanLoop crc32c).body ⟨bytes, delivered, some error⟩ = none := rfl
          rw [(scanLoop crc32c).run_of_continue step, (scanLoop crc32c).run_of_break stop]
          exact iff_of_false (Option.some_ne_none error)
            (EndsCutOff.not_of_error crc32c read)
      | ok found =>
          cases found with
          | none =>
              have stop : (scanLoop crc32c).body ⟨bytes, delivered, none⟩ = none := by
                simp [scanLoop, scanBody, read]
              rw [(scanLoop crc32c).run_of_break stop]
              exact iff_of_true rfl (.cut ((readRecord_eq_none crc32c).mp read))
          | some found =>
              rcases found with ⟨entry, rest⟩
              have step : (scanLoop crc32c).body ⟨bytes, delivered, none⟩ =
                  some ⟨rest, delivered ++ [entry], none⟩ := by
                simp only [scanLoop, scanBody, read]
              rw [(scanLoop crc32c).run_of_continue step,
                EndsCutOff.iff_of_some crc32c read]
              exact ih rest.length (readRecord_shorter crc32c read) rest _ rfl

/-- Reading a segment fails exactly if what follows its intact frames does not end in a
cut-off one. -/
theorem forEachRecord_fails_iff (log : List (UInt64 × WalRecord)) (bytes : Bytes) :
    (∃ error, (forEachRecord crc32c (segmentHeader ++ (frames crc32c log ++ bytes))).2 =
      .error error) ↔ ¬EndsCutOff crc32c bytes := by
  rw [← scan_error_eq_none_iff crc32c bytes ([] ++ log.map entryOf), forEachRecord,
    openReader_segmentHeader, ← scan_frames_append]
  cases outcome : ((scanLoop crc32c).run ⟨frames crc32c log ++ bytes, [], none⟩).error with
  | none => simp [outcome]
  | some error => simp [outcome]

/-! ## Flips in the three parts of a frame -/

/-- A payload that does not have its checksum is refused. -/
theorem EndsCutOff.not_of_mismatch {len crc : UInt32} {bytes : Bytes}
    (size : bytes.length = len.toNat) (mismatch : crc32c bytes ≠ crc) (after : Bytes) :
    ¬EndsCutOff crc32c (Bytes.ofU32 len ++ (Bytes.ofU32 crc ++ (bytes ++ after))) := by
  apply EndsCutOff.not_of_error crc32c
  rw [readRecord_header, if_pos, List.take_left' size, judgePayload, if_pos mismatch]
  rw [List.length_append, size]
  exact Nat.le_add_right _ _

/-- A wrong length that the reader notices. It stays within the file; and if it takes bytes
from behind the payload, then these change the checksum, or what is left behind them is not
a run of frames with a cut-off one at its end. -/
def LengthNoticed (len : UInt32) (bytes after : Bytes) : Prop :=
  len.toNat ≤ (bytes ++ after).length ∧
    (bytes.length < len.toNat →
      crc32c ((bytes ++ after).take len.toNat) = crc32c bytes →
      ¬EndsCutOff crc32c ((bytes ++ after).drop len.toNat))

/-- A part of a payload is the payload of no record. -/
theorem payload_append_inj {seq other : UInt64} {record record' : WalRecord}
    {extra more : Bytes} (same : payload seq record ++ extra = payload other record' ++ more) :
    seq = other ∧ record = record' := by
  rw [payload, payload, List.append_assoc, List.append_assoc] at same
  rcases List.append_inj same (by simp) with ⟨seqSame, recordSame⟩
  have equal := congrArg Bytes.toU64 seqSame
  rw [Bytes.toU64_ofU64, Bytes.toU64_ofU64] at equal
  exact ⟨equal, encodeRecord_append_inj recordSame⟩

/-- A length that is too small never leads to a record. -/
theorem judgePayload_take_ne_some {seq : UInt64} {record : WalRecord} {crc : UInt32}
    {count : Nat} (less : count < (payload seq record).length) (rest : Bytes)
    (found : (Sequence × WalRecord) × Bytes) :
    judgePayload crc32c crc ((payload seq record).take count) rest ≠ .ok (some found) := by
  intro judged
  rcases found with ⟨⟨⟨other⟩, record'⟩, left⟩
  rcases (judgePayload_eq_ok crc32c).mp judged with ⟨-, -, extra, split⟩
  have whole : payload seq record ++ [] =
      payload other record' ++ (extra ++ (payload seq record).drop count) := by
    rw [← List.append_assoc, ← split, List.take_append_drop, List.append_nil]
  rcases payload_append_inj whole with ⟨rfl, rfl⟩
  have size := congrArg List.length split
  rw [List.length_take_of_le (Nat.le_of_lt less), List.length_append] at size
  omega

/-- What a wrong length does to a frame. -/
theorem endsCutOff_of_length {len : UInt32} {seq : UInt64} {record : WalRecord}
    (wrong : len.toNat ≠ (payload seq record).length) (after : Bytes) :
    ¬EndsCutOff crc32c (Bytes.ofU32 len ++ (Bytes.ofU32 (crc32c (payload seq record)) ++
      (payload seq record ++ after))) ↔
    LengthNoticed crc32c len (payload seq record) after := by
  have read := readRecord_header crc32c len (crc32c (payload seq record))
    (payload seq record ++ after)
  rw [LengthNoticed]
  by_cases enough : len.toNat ≤ (payload seq record ++ after).length
  · rw [if_pos enough] at read
    rw [and_iff_right enough]
    rcases Nat.lt_or_gt_of_ne wrong with less | more
    · -- The payload is cut short: no record comes out of it, whatever its checksum.
      refine iff_of_true ?_ (fun more => absurd more (Nat.lt_asymm less))
      rw [List.take_append_of_le_length (Nat.le_of_lt less)] at read
      cases judged : judgePayload crc32c (crc32c (payload seq record))
          ((payload seq record).take len.toNat)
          ((payload seq record ++ after).drop len.toNat) with
      | error error => exact EndsCutOff.not_of_error crc32c (read.trans judged)
      | ok found =>
          cases found with
          | none => exact absurd judged (judgePayload_ne_none crc32c _ _ _)
          | some found =>
              exact absurd judged (judgePayload_take_ne_some crc32c less _ found)
    · by_cases collides : crc32c ((payload seq record ++ after).take len.toNat) =
          crc32c (payload seq record)
      · -- The checksum of more bytes is the same: the record comes out, and the scan goes on.
        have longer : (payload seq record ++ after).take len.toNat =
            payload seq record ++ after.take (len.toNat - (payload seq record).length) := by
          rw [List.take_append, List.take_of_length_le (Nat.le_of_lt more)]
        have judged : judgePayload crc32c (crc32c (payload seq record))
            ((payload seq record ++ after).take len.toNat)
            ((payload seq record ++ after).drop len.toNat) = .ok (some ((.fromRaw seq, record),
              (payload seq record ++ after).drop len.toNat)) :=
          (judgePayload_eq_ok crc32c).mpr ⟨collides, rfl, _, longer⟩
        rw [EndsCutOff.iff_of_some crc32c (read.trans judged)]
        exact ⟨fun left _ _ => left, fun noticed => noticed more collides⟩
      · refine iff_of_true ?_ (fun _ same => absurd same collides)
        rw [judgePayload, if_pos collides] at read
        exact EndsCutOff.not_of_error crc32c read
  · rw [if_neg enough] at read
    refine iff_of_false ?_ (fun noticed => enough noticed.1)
    exact not_not.mpr (.cut ((readRecord_eq_none crc32c).mp read))

/-- The length that a frame has after a flip in its length field. -/
def flippedLength (bytes : Bytes) (bit : Nat) : UInt32 :=
  Bytes.toU32 ((Bytes.ofU32 (UInt32.ofNat bytes.length)).flipBit bit)

/-- A flipped frame is refused, unless the flip is in the length and is not noticed. -/
theorem endsCutOff_flipBit (detects : Crc32c.DetectsFlips crc32c) {seq : UInt64}
    {record : WalRecord} {bit : Nat} (inside : bit < 8 * (frame crc32c seq record).length)
    (after : Bytes) :
    ¬EndsCutOff crc32c ((frame crc32c seq record).flipBit bit ++ after) ↔
      (bit < 32 → LengthNoticed crc32c (flippedLength (payload seq record) bit)
        (payload seq record) after) := by
  have len := payload_fits seq record
  rw [length_frame] at inside
  rw [frame]
  rcases Nat.lt_or_ge bit 32 with inLength | behindLength
  · rcases Bytes.flipBit_ofU32 inLength (UInt32.ofNat (payload seq record).length) with
      ⟨flipped, changed, bytes⟩
    have wrong : flipped.toNat ≠ (payload seq record).length := by
      rw [← len]
      exact fun same => changed (UInt32.toNat_inj.mp same)
    rw [flippedLength, Bytes.flipBit_append_left (by simpa using inLength), bytes,
      Bytes.toU32_ofU32, List.append_assoc, List.append_assoc,
      endsCutOff_of_length crc32c wrong]
    exact ⟨fun noticed _ => noticed, fun noticed => noticed inLength⟩
  · refine iff_of_true ?_ (fun inLength => absurd inLength (Nat.not_lt.mpr behindLength))
    rcases Nat.exists_eq_add_of_le behindLength with ⟨bit, rfl⟩
    have behind := Bytes.flipBit_append_right
      (Bytes.ofU32 (UInt32.ofNat (payload seq record).length))
      (Bytes.ofU32 (crc32c (payload seq record)) ++ payload seq record) bit
    rw [Bytes.length_ofU32] at behind
    rw [behind]
    rcases Nat.lt_or_ge bit 32 with inCrc | behindCrc
    · rcases Bytes.flipBit_ofU32 inCrc (crc32c (payload seq record)) with
        ⟨flipped, changed, bytes⟩
      rw [Bytes.flipBit_append_left (by simpa using inCrc), bytes, List.append_assoc,
        List.append_assoc]
      exact EndsCutOff.not_of_mismatch crc32c len.symm (Ne.symm changed) after
    · rcases Nat.exists_eq_add_of_le behindCrc with ⟨bit, rfl⟩
      have inPayload : bit < 8 * (payload seq record).length := by omega
      have behindBoth := Bytes.flipBit_append_right
        (Bytes.ofU32 (crc32c (payload seq record))) (payload seq record) bit
      rw [Bytes.length_ofU32] at behindBoth
      rw [behindBoth, List.append_assoc, List.append_assoc]
      refine EndsCutOff.not_of_mismatch crc32c ?_ (detects _ _ inPayload) after
      rw [Bytes.length_flipBit, len]

/-! ## Segments with a flipped bit -/

/-- A bit of the frame of one record is flipped in a segment. Reading then fails, exactly if
the bit is not one of the length, or the length that it makes is noticed. -/
theorem forEachRecord_flipBit_fails_iff (detects : Crc32c.DetectsFlips crc32c)
    (before : List (UInt64 × WalRecord)) (entry : UInt64 × WalRecord)
    (after : List (UInt64 × WalRecord)) {bit : Nat}
    (inside : bit < 8 * (frame crc32c entry.1 entry.2).length) :
    let file := segmentHeader ++ frames crc32c (before ++ entry :: after)
    let start := 8 * (segmentHeader ++ frames crc32c before).length
    (∃ error, (forEachRecord crc32c (file.flipBit (start + bit))).2 = .error error) ↔
      (bit < 32 → LengthNoticed crc32c (flippedLength (payload entry.1 entry.2) bit)
        (payload entry.1 entry.2) (frames crc32c after)) := by
  intro file start
  have split : file = (segmentHeader ++ frames crc32c before) ++
      (frame crc32c entry.1 entry.2 ++ frames crc32c after) := by
    simp only [file, frames_append, List.append_assoc]
    rfl
  rw [split, Bytes.flipBit_append_right, Bytes.flipBit_append_left inside,
    List.append_assoc, forEachRecord_fails_iff, endsCutOff_flipBit crc32c detects inside]

/-- A flip in the sequence number of the first of two records. -/
theorem forEachRecord_flipBit_payload :
    ∃ error, (forEachRecord Crc32c.checksum ((segmentHeader ++ frames Crc32c.checksum
      [(1, .cancel (.new 7)), (2, .cancel (.new 8))]).flipBit (64 + 65))).2 = .error error := by
  have fails := forEachRecord_flipBit_fails_iff Crc32c.checksum Crc32c.checksum_detectsFlips []
    (1, .cancel (.new 7)) [(2, .cancel (.new 8))] (show 65 < _ by decide)
  exact fails.mpr (fun inLength => absurd inLength (by decide))

/-- A flip in the length of the first of two records that a writer has committed: reading
delivers neither and reports no error. -/
theorem forEachRecord_flipBit_length :
    ∃ first second, WalWriter.create.append Crc32c.checksum (.cancel (.new 7)) =
        .ok (.fromRaw 1, first) ∧
      first.append Crc32c.checksum (.cancel (.new 8)) = .ok (.fromRaw 2, second) ∧
      forEachRecord Crc32c.checksum second.commit.file.bytes =
        ([(.fromRaw 1, .cancel (.new 7)), (.fromRaw 2, .cancel (.new 8))], .ok ()) ∧
      forEachRecord Crc32c.checksum (second.commit.file.bytes.flipBit (64 + 5)) =
        ([], .ok ()) := by
  refine ⟨_, _, rfl, rfl, ?_, ?_⟩
  · decide +kernel
  · decide +kernel

end Wal

end Bourse
