import Bourse.Data.Replacing
import Bourse.Replay

/-!
# Snapshots that are replaced

`snapshot::write` on one path, again and again.  Its bytes reach the temporary file in chunks, as
the buffered writer flushes them.  A call may fail at any of its operations, and the process or
the machine may stop at any of them; the next call finds what is left.
-/

namespace Bourse

namespace Snapshot

open Replacing

/-- A call of `write` with a book that the calls on it have built. -/
structure Save where
  calls : List Book.Call
  matcherSeq : Sequence
  walSeq : Sequence
  fits : (Book.ofCalls calls).len < 2 ^ 64
  chunks : List Bytes
  whole : chunks.flatten = write (Book.ofCalls calls) matcherSeq walSeq
  removes : Bool
  ending : Ending

namespace Save

def book (save : Save) : Book := Book.ofCalls save.calls

/-- The bytes that the call is to write. -/
def file (save : Save) : Bytes := write save.book save.matcherSeq save.walSeq

/-- What the call does to the files. -/
def attempt (save : Save) : Attempt UInt8 := ⟨save.chunks, save.removes, save.ending⟩

theorem content_attempt (save : Save) : save.attempt.content = save.file := save.whole

/-- The recovery loads what was saved. -/
theorem load_file (save : Save) : Replay.load (some save.file) =
    .ok (Matcher.withBook save.book save.matcherSeq, save.walSeq) := by
  have wf : save.book.WF := Book.ofCalls_WF save.calls
  rw [Replay.load, file, read_write wf save.fits]
  simp only [ok_bind, readWalMarker_write]
  rfl

end Save

/-- The disk after a list of calls. -/
def disk (saves : List Save) : Disk UInt8 := (history (saves.map Save.attempt)).1

theorem disk_concat (earlier : List Save) (save : Save) :
    disk (earlier ++ [save]) = save.attempt.run (disk earlier) := by
  rw [disk, history, List.map_append, List.foldl_append]
  rfl

/-- Whatever calls failed or were cut short by a crash, the recovery finds no snapshot, or
loads all of one that was being saved. A call replaces the snapshot when it has got as far as
the rename, and leaves the old one alone before, unless a crash takes back a rename. A call that
returns has replaced it, whatever was left by those before. -/
theorem disk_saved (saves : List Save) :
    (∀ found, (disk saves).content = some found → ∃ save ∈ saves,
      Replay.load (some found) =
        .ok (Matcher.withBook save.book save.matcherSeq, save.walSeq)) ∧
    ∀ earlier save, saves = earlier ++ [save] → save.attempt.Settled →
      (disk saves).content =
        (if save.attempt.renames (disk earlier) then some save.file
          else (disk earlier).content) ∧
      (save.removes → save.ending = .returned → save.attempt.renames (disk earlier)) := by
  refine ⟨?_, ?_⟩
  · intro found content
    rcases Option.map_eq_some_iff.mp content with ⟨index, target, rfl⟩
    rcases (history_whole (saves.map Save.attempt)).1 _ List.mem_cons_self index target with
      ⟨-, saved, -⟩
    rw [List.map_map] at saved
    rcases List.mem_map.mp saved with ⟨save, member, same⟩
    refine ⟨save, member, ?_⟩
    rw [← save.load_file, ← save.content_attempt]
    exact congrArg (fun file => Replay.load (some file)) same.symm
  · intro earlier save split settled
    subst split
    have whole := (history_whole (earlier.map Save.attempt)).1
    have more := whole.mono fun bytes member =>
      List.mem_append_left [save.attempt.content] member
    have run := (Saving.mk more rfl).run save.attempt (by simp)
    refine ⟨?_, ?_⟩
    · rw [disk_concat, ← save.content_attempt]
      exact run.2 settled
    · intro removes returned
      simp [Attempt.renames, Attempt.acts, Save.attempt, removes, returned]

/-- A call that returns, one that a crash ends with a torn temporary file left behind, and one
that removes it and returns: the crash leaves the first snapshot, and the third call replaces
it. -/
theorem disk_saved_crashed :
    let one : List Book.Call := [.add ⟨1⟩ .buy ⟨-100⟩ ⟨5⟩ ⟨1⟩]
    let two : List Book.Call := one ++ [.add ⟨2⟩ .sell ⟨200⟩ ⟨6⟩ ⟨2⟩, .cancel ⟨1⟩]
    let older := write (Book.ofCalls one) ⟨2⟩ ⟨1⟩
    let newer := write (Book.ofCalls two) ⟨3⟩ ⟨3⟩
    let first : Save := ⟨one, ⟨2⟩, ⟨1⟩, by decide, chunked [20, 20] older,
      flatten_chunked _ older, true, .returned⟩
    let second : Save := ⟨two, ⟨3⟩, ⟨3⟩, by decide, chunked [16] newer,
      flatten_chunked _ newer, true, .crashed 3 0 fun _ => 8⟩
    let third : Save := ⟨two, ⟨3⟩, ⟨3⟩, by decide, chunked [] newer,
      flatten_chunked _ newer, true, .returned⟩
    (disk [first, second]).names = ⟨some 0, some 1⟩ ∧
      ((disk [first, second]).files 1).bytes.length = 8 ∧
      (disk [first, second]).content = some first.file ∧
      (disk [first, second, third]).content = some third.file ∧
      ∃ save ∈ [first, second, third], Replay.load (some third.file) =
        .ok (Matcher.withBook save.book save.matcherSeq, save.walSeq) := by
  intro one two older newer first second third
  have opened : (disk [first]).content = some first.file := by
    rcases (disk_saved [first]).2 [] first rfl (fun _ _ _ ending => by cases ending) with
      ⟨content, replaces⟩
    rw [content, if_pos (replaces rfl rfl)]
  have torn : (disk [first, second]).content = some first.file := by
    have settled : second.attempt.Settled := by
      intro acts back kept ending
      cases ending
      rfl
    have early : second.attempt.renames (disk [first]) = false := by decide
    rcases (disk_saved [first, second]).2 [first] second rfl settled with ⟨content, -⟩
    rw [content, early, ← opened]
    rfl
  rcases disk_saved [first, second, third] with ⟨loads, replaced⟩
  rcases replaced [first, second] third rfl (fun _ _ _ ending => by cases ending) with
    ⟨content, replaces⟩
  rw [if_pos (replaces rfl rfl)] at content
  exact ⟨by decide, by decide, torn, content, loads _ content⟩

end Snapshot

end Bourse
