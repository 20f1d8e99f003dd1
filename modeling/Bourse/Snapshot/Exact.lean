import Bourse.Snapshot.Codec

/-!
# What the snapshot reader accepts

`read_full` of `bourse-core/src/snapshot.rs` on any bytes.  The table of the file format is
read off the bytes at fixed offsets: a file is readable if the fields found there make sense,
and then its book holds the entries in their order.  A file that `write` was still writing is
always refused.
-/

namespace Bourse

namespace Snapshot

/-! ## The file format -/

/-- The `width` bytes at an offset. -/
def field (bytes : Bytes) (offset width : Nat) : Bytes := (bytes.drop offset).take width

/-- The number of orders that a file announces. -/
def orderCount (file : Bytes) : Nat := (Bytes.toU64 (field file 24 8)).toNat

/-- Blocks of 33 bytes, from the front. -/
def blocks : (count : Nat) → Bytes → List Bytes
  | 0, _ => []
  | count + 1, body => body.take 33 :: blocks count (body.drop 33)

/-- The entries of a file. -/
def entries (file : Bytes) : List Bytes := blocks (orderCount file) (file.drop 32)

/-- The side byte of an entry is one of the two known ones. -/
def HasSide (entry : Bytes) : Prop := entry[8]? = some sideBuy ∨ entry[8]? = some sideSell

/-- What an entry says. -/
def entryOrder (entry : Bytes) : RestingOrder where
  id := .new (Bytes.toU64 (field entry 0 8))
  side := if entry[8]? = some sideBuy then .buy else .sell
  price := .fromRaw (Bytes.toI64 (field entry 9 8))
  qty := .new (Bytes.toU64 (field entry 17 8))
  seq := .fromRaw (Bytes.toU64 (field entry 25 8))

/-- The orders of a file, in its order. -/
def orders (file : Bytes) : List RestingOrder := (entries file).map entryOrder

/-- The fields of a file make sense. -/
structure Readable (file : Bytes) : Prop where
  magic : field file 0 4 = Bytes.ofU32 magic
  version : file[4]? = some version
  long : 32 + 33 * orderCount file ≤ file.length
  sides : ∀ entry ∈ entries file, HasSide entry
  positive : ∀ resting ∈ orders file, resting.qty ≠ Qty.zero
  distinct : ((orders file).map RestingOrder.id).Nodup

/-! ## Reading one piece -/

theorem ioToErr_eq_ok {α : Type} {taken : Option (α × Bytes)} {read : α × Bytes} :
    ioToErr taken = .ok read ↔ taken = some read := by
  cases taken <;> simp [ioToErr]

theorem decodeSide_eq_ok {byte : UInt8} {side : Side} :
    decodeSide byte = .ok side ↔
      (byte = sideBuy ∨ byte = sideSell) ∧ side = if byte = sideBuy then .buy else .sell := by
  unfold decodeSide
  by_cases buy : byte = sideBuy
  · simp [buy, eq_comm]
  · by_cases sell : byte = sideSell
    · simp [sell, sideBuy, sideSell, eq_comm]
    · simp [buy, sell]

theorem decodeOrder_eq_ok {entry : Bytes} (size : entry.length = 33) {resting : RestingOrder} :
    decodeOrder entry = .ok resting ↔ HasSide entry ∧ resting = entryOrder entry := by
  have byte : ∃ byte, entry[8]? = some byte := ⟨_, List.getElem?_eq_getElem (by omega)⟩
  rcases byte with ⟨byte, found⟩
  simp only [decodeOrder, bind_eq_ok, found, Option.getD_some, decodeSide_eq_ok, HasSide,
    Option.some.injEq, entryOrder, field, List.drop_zero]
  constructor
  · intro decoded
    rcases decoded with ⟨side, ⟨known, rfl⟩, built⟩
    exact ⟨known, (Except.ok.inj built).symm⟩
  · intro decoded
    rcases decoded with ⟨known, rfl⟩
    exact ⟨_, ⟨known, rfl⟩, rfl⟩

theorem readHeader_eq_ok {file rest : Bytes} :
    readHeader file = .ok rest ↔ 8 ≤ file.length ∧ field file 0 4 = Bytes.ofU32 magic ∧
      file[4]? = some version ∧ rest = file.drop 8 := by
  have take4 : (file.take 8).take 4 = field file 0 4 := by
    rw [field, List.drop_zero, List.take_take]
    rfl
  have byte4 : (file.take 8)[4]? = file[4]? := List.getElem?_take_of_lt (by decide)
  by_cases enough : 8 ≤ file.length
  · have read : file.readExact 8 = some (file.take 8, file.drop 8) := by
      rw [Bytes.readExact, if_pos enough]
    have size : (field file 0 4).length = 4 :=
      List.length_take_of_le (Nat.le_trans (by decide) enough)
    have sameMagic : Bytes.toU32 (field file 0 4) = magic ↔
        field file 0 4 = Bytes.ofU32 magic := by
      constructor
      · intro same
        rw [← same, Bytes.ofU32_toU32 size]
      · intro same
        rw [same, Bytes.toU32_ofU32]
    simp only [readHeader, read, ioToErr_some, ok_bind, take4, byte4, ne_eq, sameMagic]
    by_cases isMagic : field file 0 4 = Bytes.ofU32 magic
    · by_cases isVersion : file[4]? = some version
      · simp [isMagic, isVersion, enough, eq_comm, pure, Except.pure]
      · simp [isMagic, isVersion, throw, throwThe, MonadExceptOf.throw, bind, Except.bind]
    · simp [isMagic, throw, throwThe, MonadExceptOf.throw, bind, Except.bind]
  · rw [readHeader, Bytes.readExact, if_neg enough]
    simp [ioToErr, enough, bind, Except.bind]

/-- The loop accepts a body of enough entries with known sides whose orders the book takes. -/
theorem readOrders_eq_ok {count : Nat} {body : Bytes} {book final : Book} :
    readOrders count body book = .ok final ↔ 33 * count ≤ body.length ∧
      (∀ entry ∈ blocks count body, HasSide entry) ∧
      book.Addable ((blocks count body).map entryOrder) ∧
      final = book.addAll ((blocks count body).map entryOrder) := by
  induction count generalizing body book with
  | zero =>
      constructor
      · intro read
        cases read
        exact ⟨Nat.zero_le _, fun entry none => (by cases none), Book.Addable.nil, rfl⟩
      · intro all
        rw [all.2.2.2]
        rfl
  | succ count ih =>
      simp only [readOrders, bind_eq_ok, ioToErr_eq_ok, Prod.exists, Bytes.readExact_eq_some_iff,
        blocks, List.mem_cons, forall_eq_or_imp, List.map_cons, Book.addable_cons]
      constructor
      · intro read
        rcases read with ⟨_, _, ⟨enough, rfl, rfl⟩, resting, decoded, rest⟩
        rcases (decodeOrder_eq_ok (List.length_take_of_le enough)).mp decoded with ⟨known, rfl⟩
        split at rest
        next added =>
          rcases ih.mp rest with ⟨long, sides, addable, built⟩
          rw [List.length_drop] at long
          exact ⟨by omega, ⟨known, sides⟩, ⟨Book.addResting_eq_true.mp added, addable⟩, built⟩
        next => cases rest
      · intro all
        rcases all with ⟨long, ⟨known, sides⟩, ⟨fresh, addable⟩, built⟩
        have enough : 33 ≤ body.length := by omega
        refine ⟨_, _, ⟨enough, rfl, rfl⟩, entryOrder (body.take 33),
          (decodeOrder_eq_ok (List.length_take_of_le enough)).mpr ⟨known, rfl⟩, ?_⟩
        rw [if_pos (Book.addResting_eq_true.mpr fresh)]
        apply ih.mpr
        refine ⟨?_, sides, addable, built⟩
        rw [List.length_drop]
        omega

theorem length_blocks (count : Nat) (body : Bytes) : (blocks count body).length = count := by
  induction count generalizing body with
  | zero => rfl
  | succ count ih => rw [blocks, List.length_cons, ih]

theorem length_orders (file : Bytes) : (orders file).length = orderCount file := by
  rw [orders, List.length_map, entries, length_blocks]

/-! ## Reading a file -/

/-- The reader accepts the readable files, and adds their orders to an empty book. -/
theorem readFull_eq_ok {file : Bytes} {book : Book} {matcherSeq walSeq : Sequence} :
    readFull file = .ok (book, matcherSeq, walSeq) ↔ Readable file ∧
      matcherSeq = .fromRaw (Bytes.toU64 (field file 8 8)) ∧
      walSeq = .fromRaw (Bytes.toU64 (field file 16 8)) ∧
      book = Book.new.addAll (orders file) := by
  simp only [readFull, bind_eq_ok, ioToErr_eq_ok, Prod.exists, readHeader_eq_ok,
    Bytes.readU64_eq_some_iff, readOrders_eq_ok]
  constructor
  · intro read
    rcases read with ⟨_, ⟨-, isMagic, isVersion, rfl⟩, _, _, ⟨-, rfl, rfl⟩, _, _, ⟨-, rfl, rfl⟩,
      _, _, ⟨enough, rfl, rfl⟩, _, ⟨long, sides, addable, rfl⟩, built⟩
    simp only [List.drop_drop, List.length_drop, Nat.reduceAdd] at enough long sides addable built
    cases built
    refine ⟨⟨isMagic, isVersion, ?_, sides, addable.positive, addable.nodup⟩, rfl, rfl, rfl⟩
    rw [orderCount, field]
    omega
  · intro read
    rcases read with ⟨readable, rfl, rfl, rfl⟩
    have long := readable.long
    refine ⟨_, ⟨by omega, readable.magic, readable.version, rfl⟩, _, _, ⟨?_, rfl, rfl⟩,
      _, _, ⟨?_, rfl, rfl⟩, _, _, ⟨?_, rfl, rfl⟩, Book.new.addAll (orders file),
      ⟨?_, ?_, ?_, ?_⟩, ?_⟩
    all_goals simp only [List.drop_drop, List.length_drop, Nat.reduceAdd]
    · omega
    · omega
    · omega
    · rw [orderCount, field] at long
      omega
    · exact readable.sides
    · exact ⟨readable.positive, readable.distinct, fun _ _ => rfl⟩
    · rfl
    · rfl

/-- A readable file can be added to an empty book. -/
theorem Readable.addable {file : Bytes} (readable : Readable file) :
    Book.new.Addable (orders file) :=
  ⟨readable.positive, readable.distinct, fun _ _ => rfl⟩

/-- The marker is where `read_full` finds it. -/
theorem Readable.readWalMarker {file : Bytes} (readable : Readable file) :
    readWalMarker file = .ok (.fromRaw (Bytes.toU64 (field file 16 8))) := by
  have long := readable.long
  simp only [Snapshot.readWalMarker, bind_eq_ok, ioToErr_eq_ok, Prod.exists, readHeader_eq_ok,
    Bytes.readExact_eq_some_iff]
  refine ⟨_, ⟨by omega, readable.magic, readable.version, rfl⟩, _, _, ⟨?_, rfl, rfl⟩, ?_⟩
  · rw [List.length_drop]
    omega
  · rw [field, List.drop_take, List.take_take, List.drop_drop]
    rfl

/-! ## Torn files -/

/-- A read of a block in a torn file: the block is cut, or the file is torn behind it. -/
theorem torn_read {α β : Type} {read : Bytes → Option (α × Bytes)} {value : α}
    {cut block rest : Bytes} {next : α × Bytes → Except SnapshotError β}
    (short : cut.length < block.length → read cut = none)
    (whole : ∀ less, read (block ++ less) = some (value, less))
    (within : cut <+: block ++ rest) (proper : cut ≠ block ++ rest)
    (later : ∀ less, less <+: rest → less ≠ rest → next (value, less) = .error .truncated) :
    (ioToErr (read cut) >>= next) = .error .truncated := by
  rcases Bytes.split_within within proper with inside | ⟨less, rfl, within, proper⟩
  · rw [short inside]
    rfl
  · rw [whole, ioToErr_some, ok_bind]
    exact later less within proper

theorem torn_readU64 {β : Type} {value : UInt64} {cut rest : Bytes}
    {next : UInt64 × Bytes → Except SnapshotError β}
    (within : cut <+: Bytes.ofU64 value ++ rest) (proper : cut ≠ Bytes.ofU64 value ++ rest)
    (later : ∀ less, less <+: rest → less ≠ rest → next (value, less) = .error .truncated) :
    (ioToErr cut.readU64 >>= next) = .error .truncated := by
  refine torn_read ?_ (Bytes.readU64_append value) within proper later
  intro short
  rw [Bytes.length_ofU64] at short
  rw [Bytes.readU64, Bytes.readExact_short short, Option.map_none]

/-- The loop runs out of bytes before it comes to the last order. -/
theorem readOrders_torn {orders : List RestingOrder} {book : Book} {cut : Bytes}
    (addable : book.Addable orders) (within : cut <+: orders.flatMap encodeOrder)
    (proper : cut ≠ orders.flatMap encodeOrder) :
    readOrders orders.length cut book = .error .truncated := by
  induction orders generalizing book cut with
  | nil => exact absurd (List.prefix_nil.mp within) proper
  | cons resting orders ih =>
      rw [List.flatMap_cons] at within proper
      refine torn_read ?_ (Bytes.readExact_append (length_encodeOrder resting)) within proper ?_
      · intro short
        rw [length_encodeOrder] at short
        exact Bytes.readExact_short short
      · intro cut within proper
        have added := Book.addResting_eq_true.mpr addable.not_refuses
        simp only [decodeOrder_encodeOrder, ok_bind, added, if_true]
        exact ih addable.tail within proper

/-- A file that was cut while it was written is never loaded. -/
theorem readFull_torn {book : Book} (wf : book.WF) (fits : book.len < 2 ^ 64)
    {matcherSeq walSeq : Sequence} {cut : Bytes} (within : cut <+: write book matcherSeq walSeq)
    (proper : cut ≠ write book matcherSeq walSeq) : readFull cut = .error .truncated := by
  have count : (UInt64.ofNat book.iterResting.length).toNat = book.iterResting.length := by
    rw [wf.len_eq] at fits
    rw [UInt64.toNat_ofNat', Nat.mod_eq_of_lt fits]
  rw [write] at within proper
  rw [readFull]
  rcases Bytes.split_within within proper with inside | ⟨cut, rfl, within, proper⟩
  · have short : cut.length < 8 := inside
    rw [readHeader, Bytes.readExact_short short]
    rfl
  · rw [readHeader_append, ok_bind]
    refine torn_readU64 within proper ?_
    intro cut within proper
    refine torn_readU64 within proper ?_
    intro cut within proper
    refine torn_readU64 within proper ?_
    intro cut within proper
    simp only [count, readOrders_torn wf.addable_iterResting within proper]
    rfl

/-- `read_full` accepts exactly the readable files. It returns a well-formed book of as many
orders as announced, whose levels list the orders of the file in its order, and the sequence
numbers of the file; `read_wal_marker` returns the same marker. No proper prefix of a file that
`write` makes of any book is accepted. -/
theorem readFull_exact (file : Bytes) :
    ((∃ read, readFull file = .ok read) ↔ Readable file) ∧
    (∀ book matcherSeq walSeq, readFull file = .ok (book, matcherSeq, walSeq) →
      book.WF ∧ book.len = orderCount file ∧
      (∀ side price, book.queue side price = Book.queueOf (orders file) side price) ∧
      matcherSeq = .fromRaw (Bytes.toU64 (field file 8 8)) ∧
      walSeq = .fromRaw (Bytes.toU64 (field file 16 8)) ∧
      readWalMarker file = .ok walSeq) ∧
    (∀ calls matcherSeq walSeq, (Book.ofCalls calls).len < 2 ^ 64 →
      file <+: write (Book.ofCalls calls) matcherSeq walSeq →
      file ≠ write (Book.ofCalls calls) matcherSeq walSeq →
      readFull file = .error .truncated) := by
  refine ⟨?_, ?_, ?_⟩
  · constructor
    · intro read
      rcases read with ⟨⟨book, matcherSeq, walSeq⟩, read⟩
      exact (readFull_eq_ok.mp read).1
    · intro readable
      exact ⟨_, readFull_eq_ok.mpr ⟨readable, rfl, rfl, rfl⟩⟩
  · intro book matcherSeq walSeq read
    rcases readFull_eq_ok.mp read with ⟨readable, rfl, rfl, rfl⟩
    rcases readable.addable.addAll Book.WF.new with ⟨wf, queues⟩
    refine ⟨wf, ?_, ?_, rfl, rfl, readable.readWalMarker⟩
    · rw [readable.addable.len_addAll, length_orders]
      exact Nat.zero_add _
    · intro side price
      rw [queues]
      cases side <;> rfl
  · intro calls matcherSeq walSeq fits within proper
    exact readFull_torn (Book.ofCalls_WF calls) fits within proper

/-- One resting order: its file is read, and refused when the last byte is missing. -/
theorem readFull_exact_torn :
    let calls : List Book.Call := [.add ⟨1⟩ .buy ⟨-100⟩ ⟨5⟩ ⟨1⟩]
    let file := write (Book.ofCalls calls) ⟨2⟩ ⟨9⟩
    file.length = 65 ∧ Readable file ∧ readFull (file.take 64) = .error .truncated := by
  intro calls file
  have read : readFull file = .ok (Book.ofCalls calls, ⟨2⟩, ⟨9⟩) := by decide
  refine ⟨by decide, (readFull_exact file).1.mp ⟨_, read⟩, ?_⟩
  exact (readFull_exact (file.take 64)).2.2 calls ⟨2⟩ ⟨9⟩ (by decide) (List.take_prefix 64 file)
    (by decide)

end Snapshot

end Bourse
