import Bourse.Data.Fallible
import Bourse.Wal.Writer

/-!
# A directory of segments

`open_dir`, `next_segment_index`, `segments_in` and `for_each_record_dir` of
`bourse-core/src/wal.rs`.  The order in which `read_dir` lists a directory is up to
the file system, so it is a parameter.  Segments numbered from zero without a gap
are read in the order of their numbers, and the next segment gets the next number.
-/

namespace Bourse

namespace Wal

/-- The files of a directory. -/
abbrev Directory := List (FileName × SegmentFile)

/-- `fs::read_dir`: all files, in an order of the file system's own. -/
structure ReadDir where
  list : Directory → Directory
  perm : ∀ dir, (list dir).Perm dir

/-- The index in the name of a segment. Other names have none. -/
def segmentIndex (name : FileName) : Option UInt64 := do
  let rest ← name.dropPrefix? segmentPrefix
  let digits ← rest.dropSuffix? segmentSuffix
  Decimal.parseU64 digits

/-- One iteration over the entries in `next_segment_index`. -/
def seeIndex (maxSeen : Option UInt64) (file : FileName × SegmentFile) : Option UInt64 :=
  match segmentIndex file.1 with
  | none => maxSeen
  | some index => some (maxSeen.elim index fun seen => max seen index)

/-- The index after the largest one in use. -/
def nextSegmentIndex (listing : Directory) : UInt64 :=
  (listing.foldl seeIndex none).elim 0 fun seen => seen + 1

/-- The segments among the listed files, each with its index. -/
def indexed (listing : Directory) : List (UInt64 × (FileName × SegmentFile)) :=
  listing.filterMap fun file => (segmentIndex file.1).map fun index => (index, file)

/-- The sort key of `segments_in`. -/
def byIndex (left right : UInt64 × (FileName × SegmentFile)) : Bool :=
  decide (left.1 ≤ right.1)

/-- The segments in the order of their indices. -/
def segmentsIn (listing : Directory) : Directory :=
  ((indexed listing).mergeSort byIndex).map Prod.snd

/-- Open a rotating writer: it starts a new segment, and numbers records from `1`. -/
def openDir (readDir : ReadDir) (dir : Directory) (maxSegmentBytes : UInt64) :
    Except WalError WalWriter := do
  let nextIndex := nextSegmentIndex (readDir.list dir)
  let path := segmentPath nextIndex
  let (file, headerBytes) ← createSegment (dir.map Prod.fst) path
  return {
    file
    nextSeq := 1
    bytesWritten := headerBytes
    rotation := some {
      others := dir
      path
      nextIndex := nextIndex + 1
      maxSegmentBytes := max maxSegmentBytes 64 } }

variable (crc32c : Bytes → UInt32)

/-- The loop of `for_each_record_dir` over the segments; an error ends it. -/
def forEachSegment : Directory → List (Sequence × WalRecord) × Except WalError Unit
  | [] => ([], .ok ())
  | file :: files =>
      match forEachRecord crc32c file.2.bytes with
      | (delivered, .error error) => (delivered, .error error)
      | (delivered, .ok ()) =>
          let (later, result) := forEachSegment files
          (delivered ++ later, result)

/-- `for_each_record_dir`: the records handed to the callback, and the result. -/
def forEachRecordDir (readDir : ReadDir) (dir : Directory) :
    List (Sequence × WalRecord) × Except WalError Unit :=
  forEachSegment crc32c (segmentsIn (readDir.list dir))

/-! ## Segment names -/

@[simp] theorem segmentIndex_segmentPath (index : UInt64) :
    segmentIndex (segmentPath index) = some index := by
  have front : (segmentPath index).dropPrefix? segmentPrefix =
      some (Decimal.pad 8 index ++ segmentSuffix) := by
    apply List.dropPrefix?_append_of_beq
    decide
  have back : (Decimal.pad 8 index ++ segmentSuffix).dropSuffix? segmentSuffix =
      some (Decimal.pad 8 index) := by
    apply List.dropSuffix?_eq_some_iff.mpr
    exact ⟨segmentSuffix, rfl, by decide⟩
  simp [segmentIndex, front, back, Decimal.parseU64_pad]

theorem segmentPath_injective : Function.Injective segmentPath := by
  intro left right equal
  have indices := congrArg segmentIndex equal
  rw [segmentIndex_segmentPath, segmentIndex_segmentPath] at indices
  exact Option.some.inj indices

/-! ## Consecutive names -/

/-- The files are named as segments with consecutive indices from `start`. -/
def Named (start : Nat) (dir : Directory) : Prop :=
  dir.map Prod.fst = (List.range' start dir.length).map fun index =>
    segmentPath (UInt64.ofNat index)

variable {start : Nat} {dir : Directory}

theorem Named.nil : Named start [] := rfl

theorem named_cons {file : FileName × SegmentFile} {files : Directory} :
    Named start (file :: files) ↔
      file.1 = segmentPath (UInt64.ofNat start) ∧ Named (start + 1) files := by
  rw [Named, List.length_cons, List.range'_succ, List.map_cons, List.map_cons, List.cons.injEq]
  rfl

theorem Named.append {more : Directory} (named : Named start dir)
    (rest : Named (start + dir.length) more) : Named start (dir ++ more) := by
  rw [Named, List.map_append, named, rest, ← List.map_append, List.length_append,
    List.range'_append_1]

/-- A path is taken when its index is in use. -/
theorem Named.path_mem (named : Named start dir) {index : UInt64} :
    segmentPath index ∈ dir.map Prod.fst ↔
      ∃ used, start ≤ used ∧ used < start + dir.length ∧ index = UInt64.ofNat used := by
  rw [named, List.mem_map]
  constructor
  · intro taken
    rcases taken with ⟨used, inRange, path⟩
    rcases List.mem_range'_1.mp inRange with ⟨above, below⟩
    exact ⟨used, above, below, (segmentPath_injective path).symm⟩
  · intro inUse
    rcases inUse with ⟨used, above, below, rfl⟩
    exact ⟨used, List.mem_range'_1.mpr ⟨above, below⟩, rfl⟩

/-! ### The next index -/

/-- The largest index below `start`. -/
def lastBefore : Nat → Option UInt64
  | 0 => none
  | start + 1 => some (UInt64.ofNat start)

theorem seeIndex_lastBefore {file : FileName × SegmentFile} (small : start < 2 ^ 64)
    (path : file.1 = segmentPath (UInt64.ofNat start)) :
    seeIndex (lastBefore start) file = lastBefore (start + 1) := by
  rw [seeIndex, path, segmentIndex_segmentPath]
  cases start with
  | zero => rfl
  | succ start =>
      have grows : max (UInt64.ofNat start) (UInt64.ofNat (start + 1)) =
          UInt64.ofNat (start + 1) := by
        apply UInt64.toNat_inj.mp
        rw [toNat_max, UInt64.toNat_ofNat', UInt64.toNat_ofNat', Nat.mod_eq_of_lt small,
          Nat.mod_eq_of_lt (Nat.lt_of_succ_lt small)]
        exact Nat.max_eq_right (Nat.le_succ start)
      exact congrArg some grows

theorem Named.foldl_seeIndex (named : Named start dir)
    (room : start + dir.length ≤ 2 ^ 64) :
    dir.foldl seeIndex (lastBefore start) = lastBefore (start + dir.length) := by
  induction dir generalizing start with
  | nil => rfl
  | cons file files ih =>
      rcases named_cons.mp named with ⟨path, rest⟩
      rw [List.length_cons] at room ⊢
      rw [List.foldl_cons, seeIndex_lastBefore (by omega) path, ih rest (by omega)]
      congr 1
      omega

/-- The order in which entries are seen does not matter. -/
instance : RightCommutative seeIndex where
  right_comm maxSeen left right := by
    simp only [seeIndex]
    cases segmentIndex left.1 <;> cases segmentIndex right.1 <;> cases maxSeen <;>
      simp only [Option.elim, Option.some.injEq, ← UInt64.toNat_inj, toNat_max] <;> omega

theorem Named.nextSegmentIndex (named : Named 0 dir) (room : dir.length ≤ 2 ^ 64)
    {listing : Directory} (perm : listing.Perm dir) :
    nextSegmentIndex listing = UInt64.ofNat dir.length := by
  have last := named.foldl_seeIndex (by omega)
  rw [Nat.zero_add] at last
  rw [Wal.nextSegmentIndex, perm.foldl_eq, show none = lastBefore 0 from rfl, last]
  cases dir with
  | nil => rfl
  | cons file files =>
      rw [List.length_cons, UInt64.ofNat_add]
      rfl

/-- The name behind the last one is free until all indices are in use. -/
theorem Named.path_fresh (named : Named 0 dir) (room : dir.length < 2 ^ 64) :
    segmentPath (UInt64.ofNat dir.length) ∉ dir.map Prod.fst := by
  intro taken
  rcases named.path_mem.mp taken with ⟨used, -, below, same⟩
  have indices := congrArg UInt64.toNat same
  rw [UInt64.toNat_ofNat', UInt64.toNat_ofNat', Nat.mod_eq_of_lt room,
    Nat.mod_eq_of_lt (by omega)] at indices
  omega

/-- Once all indices are in use no name is free. -/
theorem Named.path_taken (named : Named 0 dir) (full : 2 ^ 64 ≤ dir.length) (index : UInt64) :
    segmentPath index ∈ dir.map Prod.fst := by
  have below := index.toNat_lt
  exact named.path_mem.mpr ⟨index.toNat, Nat.zero_le _, by omega, UInt64.ofNat_toNat.symm⟩

/-- A segment can be created unless all indices are in use. -/
theorem Named.createSegment (named : Named 0 dir) :
    Ensures (createSegment (dir.map Prod.fst) (segmentPath (UInt64.ofNat dir.length)))
      (fun created => created = (newSegment, 8) ∧ dir.length < 2 ^ 64)
      (2 ^ 64 ≤ dir.length) := by
  rw [Wal.createSegment]
  rcases Nat.lt_or_ge dir.length (2 ^ 64) with free | full
  · rw [if_neg (named.path_fresh free)]
    exact ⟨rfl, free⟩
  · rw [if_pos (named.path_taken full _)]
    exact full

/-! ### Reading in index order -/

theorem indexed_cons {index : UInt64} {file : FileName × SegmentFile} (files : Directory)
    (path : file.1 = segmentPath index) :
    indexed (file :: files) = (index, file) :: indexed files := by
  simp [indexed, path]

theorem Named.indexed_files (named : Named start dir) :
    (indexed dir).map Prod.snd = dir := by
  induction dir generalizing start with
  | nil => rfl
  | cons file files ih =>
      rcases named_cons.mp named with ⟨path, rest⟩
      rw [indexed_cons files path, List.map_cons, ih rest]

theorem Named.le_of_indexed (named : Named start dir) (room : start + dir.length ≤ 2 ^ 64)
    {entry : UInt64 × (FileName × SegmentFile)} (member : entry ∈ indexed dir) :
    start ≤ entry.1.toNat := by
  induction dir generalizing start with
  | nil => cases member
  | cons file files ih =>
      rcases named_cons.mp named with ⟨path, rest⟩
      rw [List.length_cons] at room
      rw [indexed_cons files path] at member
      rcases List.mem_cons.mp member with first | later
      · rw [first, UInt64.toNat_ofNat', Nat.mod_eq_of_lt (by omega)]
      · exact Nat.le_of_succ_le (ih rest (by omega) later)

theorem Named.indexed_ascending (named : Named start dir)
    (room : start + dir.length ≤ 2 ^ 64) :
    (indexed dir).Pairwise fun left right => left.1 < right.1 := by
  induction dir generalizing start with
  | nil => exact .nil
  | cons file files ih =>
      rcases named_cons.mp named with ⟨path, rest⟩
      rw [List.length_cons] at room
      rw [indexed_cons files path]
      refine List.pairwise_cons.mpr ⟨?_, ih rest (by omega)⟩
      intro entry member
      have above := rest.le_of_indexed (by omega) member
      rw [UInt64.lt_iff_toNat_lt, UInt64.toNat_ofNat', Nat.mod_eq_of_lt (by omega)]
      exact above

theorem byIndex_trans (first second third : UInt64 × (FileName × SegmentFile))
    (left : byIndex first second = true) (right : byIndex second third = true) :
    byIndex first third = true :=
  decide_eq_true (UInt64.le_trans (of_decide_eq_true left) (of_decide_eq_true right))

theorem byIndex_total (left right : UInt64 × (FileName × SegmentFile)) :
    (byIndex left right || byIndex right left) = true := by
  simpa [byIndex] using UInt64.le_total left.1 right.1

/-- Sorting by index undoes the order of the listing. -/
theorem Named.segmentsIn (named : Named start dir) (room : start + dir.length ≤ 2 ^ 64)
    {listing : Directory} (perm : listing.Perm dir) : segmentsIn listing = dir := by
  have ascending := named.indexed_ascending room
  have distinct : ((indexed dir).map Prod.fst).Nodup :=
    List.pairwise_map.mpr (ascending.imp UInt64.ne_of_lt)
  have sorted := List.pairwise_mergeSort byIndex_trans byIndex_total (indexed listing)
  have same : ((indexed listing).mergeSort byIndex).Perm (indexed dir) :=
    (List.mergeSort_perm _ _).trans (perm.filterMap _)
  have order : (indexed listing).mergeSort byIndex = indexed dir := by
    apply same.eq_of_pairwise _ sorted
    · exact ascending.imp fun less => decide_eq_true (UInt64.le_of_lt less)
    · intro left right leftMem rightMem below above
      have equal := UInt64.le_antisymm (of_decide_eq_true below) (of_decide_eq_true above)
      exact List.inj_on_of_nodup_map distinct (same.mem_iff.mp leftMem) rightMem equal
  rw [Wal.segmentsIn, order]
  exact named.indexed_files

/-- Segments with consecutive names are read one after the other, in any listing. -/
theorem Named.forEachRecordDir (named : Named 0 dir) (room : dir.length ≤ 2 ^ 64)
    (readDir : ReadDir) :
    forEachRecordDir crc32c readDir dir = forEachSegment crc32c dir := by
  rw [Wal.forEachRecordDir, named.segmentsIn (by omega) (readDir.perm dir)]

/-! ## Complete segments -/

/-- The files are segments with consecutive indices from `start` that hold the given
logs. -/
inductive Segments : Nat → List (List (UInt64 × WalRecord)) → Directory → Prop where
  | nil {start : Nat} : Segments start [] []
  | cons {start : Nat} {log : List (UInt64 × WalRecord)}
      {logs : List (List (UInt64 × WalRecord))} {file : SegmentFile} {files : Directory}
      (bytes : file.bytes = segmentHeader ++ frames crc32c log)
      (rest : Segments (start + 1) logs files) :
      Segments start (log :: logs) ((segmentPath (UInt64.ofNat start), file) :: files)

variable {crc32c} {logs : List (List (UInt64 × WalRecord))}

/-- Consecutive segments with another one behind them. -/
theorem Segments.concat (segments : Segments crc32c start logs dir)
    {log : List (UInt64 × WalRecord)} {file : SegmentFile}
    (bytes : file.bytes = segmentHeader ++ frames crc32c log) :
    Segments crc32c start (logs ++ [log])
      (dir ++ [(segmentPath (UInt64.ofNat (start + logs.length)), file)]) := by
  induction segments with
  | nil => exact .cons bytes .nil
  | cons held rest ih =>
      rw [List.length_cons, Nat.add_comm _ 1, ← Nat.add_assoc]
      exact .cons held ih

theorem Segments.length_eq (segments : Segments crc32c start logs dir) :
    dir.length = logs.length := by
  induction segments with
  | nil => rfl
  | cons held rest ih => rw [List.length_cons, ih, List.length_cons]

theorem Segments.named (segments : Segments crc32c start logs dir) : Named start dir := by
  induction segments with
  | nil => exact .nil
  | cons held rest ih => exact named_cons.mpr ⟨rfl, ih⟩

theorem Segments.forEachSegment (segments : Segments crc32c start logs dir) :
    forEachSegment crc32c dir = (logs.flatten.map entryOf, .ok ()) := by
  induction segments with
  | nil => rfl
  | cons held rest ih =>
      rw [Wal.forEachSegment, held, forEachRecord_frames]
      simp [ih]

/-- A directory of complete segments is read back whole, in any listing. -/
theorem Segments.forEachRecordDir (segments : Segments crc32c 0 logs dir)
    (room : logs.length ≤ 2 ^ 64) (readDir : ReadDir) :
    forEachRecordDir crc32c readDir dir = (logs.flatten.map entryOf, .ok ()) := by
  rw [segments.named.forEachRecordDir crc32c (by rw [segments.length_eq]; exact room)]
  exact segments.forEachSegment

end Wal

end Bourse
