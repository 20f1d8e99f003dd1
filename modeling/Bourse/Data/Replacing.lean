import Bourse.Data.Throughout
import Mathlib.Data.List.Induction
import Mathlib.Logic.Function.Basic

/-!
# Files that are replaced by a rename

New content is written to a file under a temporary name, synced, and renamed to the target.
A run of such attempts, each of which may return, give up on an error or end in a crash, never
leaves a target that is torn.  A crash keeps of every file a prefix that covers what was synced,
and may take back the latest changes of names, which nothing has synced.
-/

namespace Bourse

namespace Replacing

universe u

variable {β : Type u}

/-- What was written to a file, and how much of it the last sync covered. -/
structure Stored (β : Type u) where
  bytes : List β
  synced : Nat

/-- What a crash leaves of a file. -/
def Stored.cut (file : Stored β) (reached : Nat) : Stored β :=
  { file with bytes := file.bytes.take (max file.synced reached) }

/-- The files that the two names refer to. -/
structure Names where
  target : Option Nat
  temporary : Option Nat
  deriving DecidableEq, Repr

/-- The files in the order of their creation, the names, and what the names were since the last
crash, the latest first. -/
structure Disk (β : Type u) where
  count : Nat
  files : Nat → Stored β
  names : Names
  past : List Names

/-- One act of an attempt. Writes and syncs are to the file it has created. -/
inductive Act (β : Type u) where
  | remove
  | create
  | write (chunk : List β)
  | sync
  | rename

namespace Disk

/-- No file exists. -/
def empty : Disk β := ⟨0, fun _ => ⟨[], 0⟩, ⟨none, none⟩, []⟩

/-- Change what the names refer to. -/
def link (disk : Disk β) (names : Names) : Disk β :=
  { disk with names, past := disk.names :: disk.past }

/-- Change the newest file. -/
def change (disk : Disk β) (change : Stored β → Stored β) : Disk β :=
  let newest := disk.count - 1
  { disk with files := Function.update disk.files newest (change (disk.files newest)) }

/-- The disk after one act. -/
def act (disk : Disk β) : Act β → Disk β
  | .remove => disk.link { disk.names with temporary := none }
  | .create =>
      { disk.link { disk.names with temporary := some disk.count } with
        count := disk.count + 1
        files := Function.update disk.files disk.count ⟨[], 0⟩ }
  | .write chunk => disk.change fun file => { file with bytes := file.bytes ++ chunk }
  | .sync => disk.change fun file => { file with synced := file.bytes.length }
  | .rename => disk.link ⟨disk.names.temporary, none⟩

/-- A crash that takes back so many changes of names and keeps so much of every file. -/
def crash (disk : Disk β) (back : Nat) (kept : Nat → Nat) : Disk β where
  count := disk.count
  files index := (disk.files index).cut (kept index)
  names := ((disk.names :: disk.past)[back]?).getD disk.names
  past := []

/-- What a reader finds under the target's name. -/
def content (disk : Disk β) : Option (List β) :=
  disk.names.target.map fun index => (disk.files index).bytes

end Disk

/-- How an attempt ends: it returns, it gives up after some acts, or a crash comes after them. -/
inductive Ending where
  | returned
  | failed (acts : Nat)
  | crashed (acts back : Nat) (kept : Nat → Nat)

/-- An attempt to replace the target, with the chunks that reach the file one by one. `removes`
tells whether a stale temporary file could be removed. -/
structure Attempt (β : Type u) where
  chunks : List (List β)
  removes : Bool
  ending : Ending

namespace Attempt

/-- The new content. -/
def content (attempt : Attempt β) : List β := attempt.chunks.flatten

/-- What an attempt does before the rename. -/
def writes (attempt : Attempt β) : List (Act β) :=
  .create :: (attempt.chunks.map .write ++ [.sync])

/-- What an attempt does if nothing stops it: nothing, if the temporary file is still there. -/
def acts (attempt : Attempt β) (disk : Disk β) : List (Act β) :=
  if attempt.removes then .remove :: attempt.writes ++ [.rename]
  else if disk.names.temporary = none then attempt.writes ++ [.rename]
  else []

/-- The disk after an attempt. -/
def run (disk : Disk β) (attempt : Attempt β) : Disk β :=
  match attempt.ending with
  | .returned => (attempt.acts disk).foldl Disk.act disk
  | .failed count => ((attempt.acts disk).take count).foldl Disk.act disk
  | .crashed count back kept =>
      (((attempt.acts disk).take count).foldl Disk.act disk).crash back kept

/-- The attempt gets as far as the rename. -/
def renames (attempt : Attempt β) (disk : Disk β) : Bool :=
  !(attempt.acts disk).isEmpty &&
    match attempt.ending with
    | .returned => true
    | .failed count | .crashed count _ _ => (attempt.acts disk).length ≤ count

/-- No crash takes back a change of names. -/
def Settled (attempt : Attempt β) : Prop :=
  ∀ acts back kept, attempt.ending = .crashed acts back kept → back = 0

end Attempt

/-- The disk after a list of attempts, and the content of the last one that got as far as the
rename. -/
def history (attempts : List (Attempt β)) : Disk β × Option (List β) :=
  attempts.foldl (fun state attempt =>
    (attempt.run state.1, if attempt.renames state.1 then some attempt.content else state.2))
    (.empty, none)

/-- A content in chunks of the given sizes; the last chunk is what remains. -/
def chunked : List Nat → List β → List (List β)
  | [], bytes => [bytes]
  | size :: sizes, bytes => bytes.take size :: chunked sizes (bytes.drop size)

theorem flatten_chunked (sizes : List Nat) (bytes : List β) :
    (chunked sizes bytes).flatten = bytes := by
  induction sizes generalizing bytes with
  | nil => simp [chunked]
  | cons size sizes ih => rw [chunked, List.flatten_cons, ih, List.take_append_drop]

/-! ## What holds after every act -/

/-- Whatever the target may refer to after a crash is one of the contents, whole and synced. -/
def Whole (contents : List (List β)) (disk : Disk β) : Prop :=
  ∀ names ∈ disk.names :: disk.past, ∀ index, names.target = some index →
    index < disk.count ∧ (disk.files index).bytes ∈ contents ∧
      (disk.files index).synced = (disk.files index).bytes.length

/-- The newest file is the temporary one, and no target that a crash may bring back. -/
structure Writing (disk : Disk β) (bytes : List β) : Prop where
  opened : 0 < disk.count
  temporary : disk.names.temporary = some (disk.count - 1)
  fresh : ∀ names ∈ disk.names :: disk.past, names.target ≠ some (disk.count - 1)
  bytes : (disk.files (disk.count - 1)).bytes = bytes

variable {contents : List (List β)} {disk : Disk β} {bytes : List β}

theorem Whole.mono {more : List (List β)} (whole : Whole contents disk)
    (within : ∀ bytes ∈ contents, bytes ∈ more) : Whole more disk := by
  intro names member index target
  rcases whole names member index target with ⟨older, saved, synced⟩
  exact ⟨older, within _ saved, synced⟩

theorem whole_empty : Whole contents (.empty : Disk β) := by
  intro names member index impossible
  rw [List.mem_singleton.mp member] at impossible
  cases impossible

/-- The target is as it was before the attempt, and will be after a crash. -/
structure Saving (contents : List (List β)) (before : Option (List β)) (disk : Disk β) : Prop where
  whole : Whole contents disk
  content : disk.content = before

variable {before : Option (List β)}

/-- Names that leave the target alone. -/
theorem Saving.link (saving : Saving contents before disk) {names : Names}
    (target : names.target = disk.names.target) : Saving contents before (disk.link names) where
  whole := by
    intro other member index found
    rcases List.mem_cons.mp member with rfl | old
    · rw [target] at found
      exact saving.whole disk.names List.mem_cons_self index found
    · exact saving.whole other old index found
  content := by
    rw [← saving.content, Disk.content, Disk.content, Disk.link, target]

theorem Saving.create (saving : Saving contents before disk) :
    Saving contents before (disk.act .create) where
  whole := by
    intro names member index found
    have kept : ({ disk.names with temporary := some disk.count } : Names).target =
        disk.names.target := rfl
    have linked := (saving.link kept).whole names member index found
    have older : index ≠ disk.count := Nat.ne_of_lt linked.1
    simp only [Disk.act, Function.update_of_ne older]
    exact ⟨Nat.lt_succ_of_lt linked.1, linked.2⟩
  content := by
    rw [← saving.content, Disk.content, Disk.content]
    apply Option.map_congr
    intro index found
    have older := (saving.whole disk.names List.mem_cons_self index found).1
    simp only [Disk.act, Function.update_of_ne (Nat.ne_of_lt older)]

theorem Whole.writing (whole : Whole contents disk) : Writing (disk.act .create) [] where
  opened := Nat.succ_pos _
  temporary := rfl
  fresh := by
    intro names member
    rcases List.mem_cons.mp member with rfl | old
    · intro target
      exact absurd (whole disk.names List.mem_cons_self _ target).1 (Nat.lt_irrefl _)
    · intro target
      exact absurd (whole names old _ target).1 (Nat.lt_irrefl _)
  bytes := by simp [Disk.act]

/-- What is done to the newest file does not touch the target. -/
theorem Saving.change (saving : Saving contents before disk) (writing : Writing disk bytes)
    (change : Stored β → Stored β) : Saving contents before (disk.change change) where
  whole := by
    intro names member index found
    have older : index ≠ disk.count - 1 := fun same => writing.fresh names member (same ▸ found)
    simp only [Disk.change, Function.update_of_ne older]
    exact saving.whole names member index found
  content := by
    rw [← saving.content, Disk.content, Disk.content]
    apply Option.map_congr
    intro index found
    have older : index ≠ disk.count - 1 :=
      fun same => writing.fresh disk.names List.mem_cons_self (same ▸ found)
    simp only [Disk.change, Function.update_of_ne older]

theorem Writing.write (writing : Writing disk bytes) (chunk : List β) :
    Writing (disk.act (.write chunk)) (bytes ++ chunk) where
  opened := writing.opened
  temporary := writing.temporary
  fresh := writing.fresh
  bytes := by simp [Disk.act, Disk.change, writing.bytes]

theorem Writing.sync (writing : Writing disk bytes) : Writing (disk.act .sync) bytes where
  opened := writing.opened
  temporary := writing.temporary
  fresh := writing.fresh
  bytes := by simp [Disk.act, Disk.change, writing.bytes]

/-- The temporary file is synced and takes the place of the target. -/
theorem Saving.rename (saving : Saving contents before disk) (writing : Writing disk bytes)
    (synced : (disk.files (disk.count - 1)).synced = bytes.length) (saved : bytes ∈ contents) :
    Saving contents (some bytes) (disk.act .rename) where
  whole := by
    intro names member index found
    rcases List.mem_cons.mp member with rfl | old
    · have newest : index = disk.count - 1 :=
        Option.some.inj (found.symm.trans writing.temporary)
      subst newest
      simp only [Disk.act, Disk.link, writing.bytes]
      exact ⟨Nat.sub_one_lt (Nat.pos_iff_ne_zero.mp writing.opened), saved, synced⟩
    · exact saving.whole names old index found
  content := by simp [Disk.content, Disk.act, Disk.link, writing.temporary, writing.bytes]

theorem Saving.crash (saving : Saving contents before disk) (back : Nat) (kept : Nat → Nat) :
    Whole contents (disk.crash back kept) := by
  intro names member index found
  have past : names ∈ disk.names :: disk.past := by
    rw [List.mem_singleton.mp member]
    dsimp only [Disk.crash]
    cases earlier : (disk.names :: disk.past)[back]? with
    | none => exact List.mem_cons_self
    | some names => exact List.mem_of_getElem? earlier
  rcases saving.whole names past index found with ⟨older, saved, synced⟩
  have uncut : (disk.files index).cut (kept index) = disk.files index := by
    rw [Stored.cut, synced, List.take_of_length_le (Nat.le_max_left _ _), ← synced]
  simp only [Disk.crash, uncut]
  exact ⟨older, saved, synced⟩

/-- A crash that takes back no name leaves the target as it was. -/
theorem Saving.crash_settled (saving : Saving contents before disk) (kept : Nat → Nat) :
    (disk.crash 0 kept).content = before := by
  rw [← saving.content, Disk.content, Disk.content]
  apply Option.map_congr
  intro index found
  rcases saving.whole disk.names List.mem_cons_self index found with ⟨-, -, synced⟩
  change ((disk.files index).bytes.take (max (disk.files index).synced (kept index))) = _
  rw [synced]
  exact List.take_of_length_le (Nat.le_max_left _ _)

/-! ## Attempts -/

/-- Chunk by chunk, and then the sync: the target stays, and the temporary file is complete. -/
theorem Saving.chunks (saving : Saving contents before disk) (writing : Writing disk bytes)
    (chunks : List (List β)) :
    Throughout Disk.act (Saving contents before) disk (chunks.map Act.write ++ [Act.sync]) ∧
      let written := (chunks.map Act.write ++ [Act.sync]).foldl Disk.act disk
      Writing written (bytes ++ chunks.flatten) ∧
        (written.files (written.count - 1)).synced = (bytes ++ chunks.flatten).length := by
  induction chunks generalizing disk bytes with
  | nil =>
      rw [List.flatten_nil, List.append_nil]
      have synced : Saving contents before (disk.act .sync) :=
        saving.change writing fun file => { file with synced := file.bytes.length }
      refine ⟨⟨saving, synced⟩, writing.sync, ?_⟩
      simp [Disk.act, Disk.change, writing.bytes]
  | cons chunk chunks ih =>
      have next : Saving contents before (disk.act (.write chunk)) :=
        saving.change writing fun file => { file with bytes := file.bytes ++ chunk }
      rcases ih next (writing.write chunk) with ⟨throughout, written⟩
      rw [List.flatten_cons, ← List.append_assoc]
      exact ⟨⟨saving, throughout⟩, written⟩

theorem Saving.writes (saving : Saving contents before disk) (attempt : Attempt β) :
    Throughout Disk.act (Saving contents before) disk attempt.writes ∧
      let written := attempt.writes.foldl Disk.act disk
      Writing written attempt.content ∧
        (written.files (written.count - 1)).synced = attempt.content.length := by
  rcases saving.create.chunks saving.whole.writing attempt.chunks with ⟨throughout, written⟩
  exact ⟨⟨saving, throughout⟩, written⟩

/-- Wherever an attempt is interrupted, the target is either the old or the new content. -/
theorem Saving.interrupted (saving : Saving contents before disk) (attempt : Attempt β)
    (saved : attempt.content ∈ contents) (count : Nat) :
    let acts := attempt.writes ++ [.rename]
    Saving contents (if acts.length ≤ count then some attempt.content else before)
      ((acts.take count).foldl Disk.act disk) := by
  intro acts
  rcases saving.writes attempt with ⟨throughout, writing, synced⟩
  have total : acts.length = attempt.writes.length + 1 := by simp [acts]
  split
  next reached =>
    rw [List.take_of_length_le reached, List.foldl_append]
    have written := throughout.interrupted attempt.writes.length
    rw [List.take_length] at written
    exact written.rename writing synced saved
  next early =>
    have within : count ≤ attempt.writes.length := by omega
    rw [List.take_append_of_le_length within]
    exact throughout.interrupted count

/-- The attempt, wherever it is interrupted, if something is left to do. -/
theorem Saving.acts (saving : Saving contents before disk) (attempt : Attempt β)
    (saved : attempt.content ∈ contents) (count : Nat) :
    let acts := attempt.acts disk
    Saving contents
      (if acts ≠ [] ∧ acts.length ≤ count then some attempt.content else before)
      ((acts.take count).foldl Disk.act disk) := by
  intro acts
  simp only [acts, Attempt.acts]
  split
  next =>
    cases count with
    | zero => simpa using saving
    | succ count =>
        have removed : Saving contents before (disk.act .remove) := saving.link rfl
        simpa using removed.interrupted attempt saved count
  next =>
    split
    next =>
      have kept := saving.interrupted attempt saved count
      simpa [Attempt.writes] using kept
    next => simpa using saving

/-! ## Histories -/

/-- One attempt, however it ends. -/
theorem Saving.run (saving : Saving contents before disk) (attempt : Attempt β)
    (saved : attempt.content ∈ contents) :
    Whole contents (attempt.run disk) ∧ (attempt.Settled →
      (attempt.run disk).content =
        if attempt.renames disk then some attempt.content else before) := by
  unfold Attempt.run Attempt.renames
  cases ending : attempt.ending with
  | returned =>
      have kept := saving.acts attempt saved (attempt.acts disk).length
      simp only [List.take_length] at kept
      refine ⟨kept.whole, ?_⟩
      intro _
      rw [kept.content]
      simp
  | failed count =>
      have kept := saving.acts attempt saved count
      refine ⟨kept.whole, ?_⟩
      intro _
      rw [kept.content]
      simp
  | crashed count back reached =>
      have kept := saving.acts attempt saved count
      refine ⟨kept.crash back reached, ?_⟩
      intro settled
      rw [settled count back reached ending, kept.crash_settled]
      simp

/-- After any history, the target holds the whole content of one of the attempts. If no crash
takes back a change of names, it is the last one that got as far as the rename. -/
theorem history_whole (attempts : List (Attempt β)) :
    Whole (attempts.map Attempt.content) (history attempts).1 ∧
      ((∀ attempt ∈ attempts, attempt.Settled) →
        (history attempts).1.content = (history attempts).2) := by
  induction attempts using List.reverseRecOn with
  | nil => exact ⟨whole_empty, fun _ => rfl⟩
  | append_singleton attempts attempt ih =>
      rcases ih with ⟨whole, newest⟩
      have last : history (attempts ++ [attempt]) = (attempt.run (history attempts).1,
          if attempt.renames (history attempts).1 then some attempt.content
            else (history attempts).2) := by
        rw [history, List.foldl_append]
        rfl
      have more : Whole ((attempts ++ [attempt]).map Attempt.content) (history attempts).1 := by
        apply whole.mono
        intro bytes member
        rw [List.map_append]
        exact List.mem_append_left _ member
      have run := (Saving.mk more rfl).run attempt (by simp)
      rw [last]
      refine ⟨run.1, ?_⟩
      intro settled
      rw [run.2 (settled attempt (by simp)),
        newest fun earlier member => settled earlier (List.mem_append_left _ member)]

end Replacing

end Bourse
