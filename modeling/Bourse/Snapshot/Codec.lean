import Bourse.Book.Rebuild
import Bourse.Data.Bytes
import Bourse.Data.Fallible

/-!
# Snapshots

The file format of `bourse-core/src/snapshot.rs`.  Writing goes to a temporary file
that is renamed into place, so a snapshot file is always one that `write` finished.
Reading re-inserts the orders one by one; a well-formed book comes back as it was.
-/

namespace Bourse

/-- Errors from the snapshot subsystem. -/
inductive SnapshotError where
  | badMagic
  | unknownVersion (version : UInt8)
  | unknownSide (side : UInt8)
  | truncated
  | invalidOrder
  deriving DecidableEq, Repr

namespace Snapshot

/-- `"MXSN"` as little-endian bytes. -/
def magic : UInt32 := 0x4E53584D
def version : UInt8 := 2
def sideBuy : UInt8 := 1
def sideSell : UInt8 := 2

/-! ## Writing -/

def encodeSide : Side → UInt8
  | .buy => sideBuy
  | .sell => sideSell

/-- One resting order, 33 bytes. -/
def encodeOrder (resting : RestingOrder) : Bytes :=
  Bytes.ofU64 resting.id.get ++ encodeSide resting.side :: (Bytes.ofI64 resting.price.raw ++
    (Bytes.ofU64 resting.qty.get ++ Bytes.ofU64 resting.seq.get))

/-- The bytes of a snapshot file. -/
def write (book : Book) (matcherSeq walSeq : Sequence) : Bytes :=
  let resting := book.iterResting
  (Bytes.ofU32 magic ++ [version, 0, 0, 0]) ++ (Bytes.ofU64 matcherSeq.get ++
    (Bytes.ofU64 walSeq.get ++ (Bytes.ofU64 (UInt64.ofNat resting.length) ++
      resting.flatMap encodeOrder)))

/-! ## Reading -/

/-- `io_to_err` behind a `read_exact`: the end of the file is a truncation. -/
def ioToErr {α : Type} (taken : Option (α × Bytes)) : Except SnapshotError (α × Bytes) :=
  match taken with
  | some read => .ok read
  | none => .error .truncated

/-- The file header. -/
def readHeader (file : Bytes) : Except SnapshotError Bytes := do
  let (header, rest) ← ioToErr (file.readExact 8)
  if Bytes.toU32 (header.take 4) ≠ magic then throw .badMagic
  if header[4]? ≠ some version then throw (.unknownVersion (header[4]?.getD 0))
  return rest

def decodeSide (byte : UInt8) : Except SnapshotError Side :=
  if byte = sideBuy then .ok .buy
  else if byte = sideSell then .ok .sell
  else .error (.unknownSide byte)

/-- The order in a 33-byte buffer. -/
def decodeOrder (buffer : Bytes) : Except SnapshotError RestingOrder := do
  let side ← decodeSide (buffer[8]?.getD 0)
  return {
    id := .new (Bytes.toU64 (buffer.take 8))
    side
    price := .fromRaw (Bytes.toI64 ((buffer.drop 9).take 8))
    qty := .new (Bytes.toU64 ((buffer.drop 17).take 8))
    seq := .fromRaw (Bytes.toU64 ((buffer.drop 25).take 8)) }

/-- The loop over the orders of a snapshot. -/
def readOrders : (count : Nat) → Bytes → Book → Except SnapshotError Book
  | 0, _, book => .ok book
  | count + 1, file, book => do
      let (buffer, file) ← ioToErr (file.readExact 33)
      let resting ← decodeOrder buffer
      let (book, added) := book.addResting resting
      if added then readOrders count file book else throw .invalidOrder

/-- `read_full`: the book, the matcher's next sequence number and the WAL marker. -/
def readFull (file : Bytes) : Except SnapshotError (Book × Sequence × Sequence) := do
  let file ← readHeader file
  let (matcherSeq, file) ← ioToErr file.readU64
  let (walSeq, file) ← ioToErr file.readU64
  let (count, file) ← ioToErr file.readU64
  let book ← readOrders count.toNat file Book.new
  return (book, .fromRaw matcherSeq, .fromRaw walSeq)

/-- `read`: what `read_full` returns, without the marker. -/
def read (file : Bytes) : Except SnapshotError (Book × Sequence) := do
  let (book, matcherSeq, _) ← readFull file
  return (book, matcherSeq)

/-- `read_wal_marker`: the marker alone. -/
def readWalMarker (file : Bytes) : Except SnapshotError Sequence := do
  let file ← readHeader file
  let (buffer, _) ← ioToErr (file.readExact 16)
  return .fromRaw (Bytes.toU64 ((buffer.drop 8).take 8))

/-! ## Round trip -/

@[simp] theorem ioToErr_some {α : Type} (taken : α × Bytes) :
    ioToErr (some taken) = .ok taken := rfl

@[simp] theorem length_encodeOrder (resting : RestingOrder) :
    (encodeOrder resting).length = 33 := by
  simp [encodeOrder]

@[simp] theorem decodeSide_encodeSide (side : Side) :
    decodeSide (encodeSide side) = .ok side := by
  cases side <;> rfl

/-- The fields of an encoded order stand where the reader looks for them. -/
theorem decodeOrder_encodeOrder (resting : RestingOrder) :
    decodeOrder (encodeOrder resting) = .ok resting := by
  have behindId : (encodeOrder resting).drop 8 = encodeSide resting.side ::
      (Bytes.ofI64 resting.price.raw ++
        (Bytes.ofU64 resting.qty.get ++ Bytes.ofU64 resting.seq.get)) :=
    List.drop_left' (Bytes.length_ofU64 _)
  have behindSide : (encodeOrder resting).drop 9 = Bytes.ofI64 resting.price.raw ++
      (Bytes.ofU64 resting.qty.get ++ Bytes.ofU64 resting.seq.get) := by
    rw [← List.drop_drop (i := 1) (j := 8), behindId, List.drop_one, List.tail_cons]
  have behindPrice : (encodeOrder resting).drop 17 =
      Bytes.ofU64 resting.qty.get ++ Bytes.ofU64 resting.seq.get := by
    rw [← List.drop_drop (i := 8) (j := 9), behindSide]
    exact List.drop_left' (Bytes.length_ofI64 _)
  have behindQty : (encodeOrder resting).drop 25 = Bytes.ofU64 resting.seq.get := by
    rw [← List.drop_drop (i := 8) (j := 17), behindPrice]
    exact List.drop_left' (Bytes.length_ofU64 _)
  have idBytes : (encodeOrder resting).take 8 = Bytes.ofU64 resting.id.get :=
    List.take_left' (Bytes.length_ofU64 _)
  have sideByte : (encodeOrder resting)[8]? = some (encodeSide resting.side) := by
    rw [← List.head?_drop, behindId, List.head?_cons]
  simp only [decodeOrder, sideByte, Option.getD_some, decodeSide_encodeSide, ok_bind,
    idBytes, behindSide, behindPrice, behindQty, List.take_left' (Bytes.length_ofU64 _),
    List.take_left' (Bytes.length_ofI64 _), List.take_of_length_le
      (Nat.le_of_eq (Bytes.length_ofU64 _)), Bytes.toU64_ofU64, Bytes.toI64_ofI64]
  rfl

theorem readHeader_append (rest : Bytes) :
    readHeader ((Bytes.ofU32 magic ++ [version, 0, 0, 0]) ++ rest) = .ok rest := by
  have size : (Bytes.ofU32 magic ++ [version, 0, 0, 0]).length = 8 := rfl
  rw [readHeader, Bytes.readExact_append size]
  rfl

/-- Reading back addable orders adds all of them. -/
theorem readOrders_encoded {orders : List RestingOrder} {book : Book}
    (addable : book.Addable orders) :
    readOrders orders.length (orders.flatMap encodeOrder) book =
      .ok (book.addAll orders) := by
  induction orders generalizing book with
  | nil => rfl
  | cons resting orders ih =>
      have added : (book.addResting resting).2 = true := by
        rw [Book.addResting, Book.add_of_fresh addable.not_refuses]
      rw [List.flatMap_cons, List.length_cons, readOrders,
        Bytes.readExact_append (length_encodeOrder resting)]
      simp only [ioToErr_some, ok_bind, decodeOrder_encodeOrder, added, if_true]
      exact ih addable.tail

section RoundTrip

variable {book : Book} (wf : book.WF) (fits : book.len < 2 ^ 64)
variable (matcherSeq walSeq : Sequence)

include wf fits in
/-- A snapshot is read back as it was written. -/
theorem readFull_write :
    readFull (write book matcherSeq walSeq) = .ok (book, matcherSeq, walSeq) := by
  have count : (UInt64.ofNat book.iterResting.length).toNat = book.iterResting.length := by
    rw [wf.len_eq] at fits
    rw [UInt64.toNat_ofNat', Nat.mod_eq_of_lt fits]
  rw [readFull, write, readHeader_append]
  simp only [ok_bind, Bytes.readU64_append, ioToErr_some, count,
    readOrders_encoded wf.addable_iterResting, wf.addAll_iterResting]
  rfl

include wf fits in
theorem read_write : read (write book matcherSeq walSeq) = .ok (book, matcherSeq) := by
  rw [read, readFull_write wf fits]
  rfl

/-- The WAL marker is read without the orders. -/
theorem readWalMarker_write : readWalMarker (write book matcherSeq walSeq) = .ok walSeq := by
  have split : ∀ rest : Bytes, Bytes.readExact 16
      (Bytes.ofU64 matcherSeq.get ++ (Bytes.ofU64 walSeq.get ++ rest)) =
        some (Bytes.ofU64 matcherSeq.get ++ Bytes.ofU64 walSeq.get, rest) := by
    intro rest
    rw [← List.append_assoc]
    exact Bytes.readExact_append (by simp) rest
  rw [readWalMarker, write, readHeader_append]
  simp only [ok_bind, split, ioToErr_some, List.drop_left' (Bytes.length_ofU64 _),
    List.take_of_length_le (Nat.le_of_eq (Bytes.length_ofU64 _)), Bytes.toU64_ofU64]
  rfl

end RoundTrip

/-- Whatever calls built a book, its snapshot is read back as that book with both sequence
numbers, and the marker alone is the same one. The number of orders is a `usize`. -/
theorem readFull_write_ofCalls (calls : List Book.Call) (matcherSeq walSeq : Sequence)
    (fits : (Book.ofCalls calls).len < 2 ^ 64) :
    let book := Book.ofCalls calls
    let file := write book matcherSeq walSeq
    readFull file = .ok (book, matcherSeq, walSeq) ∧ read file = .ok (book, matcherSeq) ∧
      readWalMarker file = .ok walSeq := by
  intro book file
  have wf : book.WF := Book.ofCalls_WF calls
  exact ⟨readFull_write wf fits matcherSeq walSeq, read_write wf fits matcherSeq walSeq,
    readWalMarker_write matcherSeq walSeq⟩

/-- Two orders of one level, the front one partly taken, and one order on the other side. -/
theorem readFull_write_ofCalls_two_sided :
    let calls : List Book.Call := [.add ⟨1⟩ .buy ⟨-100⟩ ⟨5⟩ ⟨1⟩, .add ⟨2⟩ .buy ⟨-100⟩ ⟨6⟩ ⟨2⟩,
      .add ⟨3⟩ .sell ⟨100⟩ ⟨7⟩ ⟨3⟩, .takeFront .buy ⟨-100⟩ ⟨4⟩]
    let book := Book.ofCalls calls
    book.len = 3 ∧ readFull (write book ⟨4⟩ ⟨9⟩) = .ok (book, ⟨4⟩, ⟨9⟩) := by
  intro calls book
  exact ⟨by decide, (readFull_write_ofCalls calls ⟨4⟩ ⟨9⟩ (by decide)).1⟩

end Snapshot

end Bourse
