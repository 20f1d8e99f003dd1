import Bourse.Spsc.Halves

/-!
# Steps of the ring buffer with old values

Except for the loads of the other side's index, a step does what it does in the interleavings,
so its effect on the content is taken from there.  A refreshed cache may be an old index; its
side has learned what that index tells, which is enough for the slots that it goes on to touch.
-/

namespace Bourse

namespace Spsc

universe u

variable {T : Type u} {w : Nat} {τ ι κ : Type} {names : Names τ ι κ} {halves : Halves T w}
  {memory next : WeakMemory τ ι κ (BitVec w)} {queue : List (Option T)}

section Steps

variable [DecidableEq τ] [DecidableEq ι]

/-! ## Steps of the producer -/

variable [Fintype τ] [DecidableEq κ]

omit [DecidableEq ι] in
theorem Sound.writeSlot {tail : BitVec w} {seen : Nat} (value : T)
    (sound : Sound names halves memory queue)
    (cached : halves.cachedHead = BitVec.ofNat w seen)
    (older : seen ≤ memory.latest names.head)
    (room : memory.latest names.tail < seen + halves.capacity.toNat)
    (current : tail = (halves.inner names memory).tail) :
    Follows names halves memory queue (halves.writeSlot names memory value tail) := by
  have mates := names.mates halves.capacity.toNat
  have published := sound.published
  have index : (tail &&& halves.mask).toNat =
      memory.latest names.tail % halves.capacity.toNat := by
    rw [current, ← published]
    exact sound.holds.ring.index_tail
  have content := (writeSlot_advances value sound.holds cached older
    (by rw [published]; exact room) current).1
  have learned := sound.cachedHead seen older room.le cached
  have safe := sound.writes.not_races sound.reads mates sound.consistent learned older room
  have grows : memory.Grows (memory.touch names.producer
      (names.slot (tail &&& halves.mask).toNat) .write) := WeakMemory.touch_grows _ _ _
  refine ⟨?_, rfl, grows, rfl, queue, ?_, rfl⟩
  · refine decide_eq_false ?_
    rw [index]
    exact safe
  · refine ⟨sound.consistent.touch _ _ _, content, published, ?_, ?_, ?_, ?_⟩
    · simp only [Halves.writeSlot, index]
      exact sound.writes.touch mates names.slots (by
        change memory.latest names.tail < memory.latest names.head + halves.capacity.toNat
        omega)
    · apply sound.reads.frame grows (sound.consistent.touch _ _ _) rfl
      intro cell thread
      exact WeakMemory.touch_stamp_of_ne _ _ _ (.inl (by
        intro impossible
        cases impossible))
    · intro seen older near cached
      exact (sound.cachedHead seen older near cached).grows grows older
    · intro seen later older cached
      exact (sound.cachedTail seen later older cached).grows grows older

omit [Fintype τ] [DecidableEq κ] in
theorem Halves.inner_store_tail (names : Names τ ι κ) (halves : Halves T w) (value : BitVec w) :
    halves.inner names (memory.store names.producer names.tail .release value) =
      { halves.inner names memory with tail := value } := by
  unfold Halves.inner
  rw [WeakMemory.store_latest_self, WeakMemory.store_value_self,
    WeakMemory.store_latest_of_ne _ _ _ _ names.indices.symm,
    WeakMemory.store_messages_of_ne _ _ _ _ names.indices.symm]

omit [Fintype τ] [DecidableEq κ] in
/-- The producer publishes the slot that it has written. -/
theorem Sound.publish {value : T} {tail : BitVec w} (sound : Sound names halves memory queue)
    (place : halves.pushing = .written value tail) :
    Follows names halves memory queue
      ⟨{ halves with pushing := .idle },
        memory.store names.producer names.tail .release (tail + 1#w), false,
        some (.accepted (some value))⟩ := by
  have mates := names.mates halves.capacity.toNat
  have published := sound.published
  have grows := sound.consistent.store_grows names.producer names.tail .release (tail + 1#w)
  have consistent := sound.consistent.store names.producer names.tail .release (tail + 1#w)
  have atTail : (memory.store names.producer names.tail .release (tail + 1#w)).latest
      names.tail = memory.latest names.tail + 1 := WeakMemory.store_latest_self _ _ _ _
  have atHead : (memory.store names.producer names.tail .release (tail + 1#w)).latest
      names.head = memory.latest names.head :=
    WeakMemory.store_latest_of_ne _ _ _ _ names.indices.symm
  rcases sound.holds.producing with ⟨seen, -, older, -, point⟩
  rw [show (halves.system names memory).pushing = .written value tail from place] at point
  rcases point with ⟨current, room, -⟩
  have small : seen + halves.capacity.toNat ≤
      memory.latest names.head + halves.capacity.toNat := Nat.add_le_add_right older _
  have fits : memory.latest names.tail < memory.latest names.head + halves.capacity.toNat := by
    rw [← published]
    exact Nat.lt_of_lt_of_le room small
  have content := (pushStep_advances sound.holds value).1
  simp only [System.pushStep, show (halves.system names memory).pushing = .written value tail
    from place] at content
  rcases content with ⟨after, allowed, holds⟩
  cases allowed with
  | accept _ space =>
      refine ⟨rfl, rfl, grows, atHead, queue ++ [some value], ?_, space, rfl, by simp⟩
      refine ⟨consistent, ?_, ?_, ?_, ?_, ?_, ?_⟩
      · rw [atHead, Halves.system, Halves.inner_store_tail]
        exact holds
      · rw [atHead, atTail, List.length_append, List.length_singleton, ← published,
          Nat.add_assoc]
      · apply sound.writes.store sound.consistent mates
        rw [current]
        change (halves.inner names memory).tail + 1#w = _
        rw [sound.tail_eq, ← BitVec.ofNat_add]
        rfl
      · exact sound.reads.frame grows consistent atHead fun _ _ => rfl
      · intro seen older near cached
        rw [atHead] at older
        rw [atTail] at near
        exact (sound.cachedHead seen older (Nat.le_of_succ_le near) cached).grows grows older
      · intro seen later older cached
        rw [atHead] at later
        rw [atTail] at older
        rcases Nat.lt_or_ge (memory.latest names.tail) seen with newer | known
        · rcases sound.holds.consuming with ⟨ahead, cachedTail, behind, -⟩
          have same := RingIndex.eq_of_ofNat_eq (by omega) (by omega) halves.capacity.isLt
            (cachedTail.symm.trans cached)
          omega
        · exact (sound.cachedTail seen later known cached).grows grows known


omit [DecidableEq τ] [DecidableEq ι] [Fintype τ] [DecidableEq κ] in
/-- The producer caches a value of the head that it has learned. -/
theorem Sound.cacheHead {fresh : Nat} {pushing : Pushing T w}
    (sound : Sound names halves memory queue) (older : fresh ≤ memory.latest names.head)
    (near : memory.latest names.tail ≤ fresh + halves.capacity.toNat)
    (learned : Handover.Learned (names.producing halves.capacity.toNat) names.consuming memory
      fresh)
    (producing : Producing
      (({ halves with cachedHead := BitVec.ofNat w fresh, pushing } : Halves T w).system names
        memory) (memory.latest names.head) queue) :
    Sound names { halves with cachedHead := BitVec.ofNat w fresh, pushing } memory queue where
  consistent := sound.consistent
  holds := ⟨sound.holds.ring, producing, sound.holds.consuming⟩
  published := sound.published
  writes := sound.writes
  reads := sound.reads
  cachedHead seen behind close cached := by
    have published := sound.published
    have close : memory.latest names.tail ≤ seen + halves.capacity.toNat := close
    have same := RingIndex.eq_of_ofNat_eq (by omega) (by omega) halves.capacity.isLt cached
    exact same ▸ learned
  cachedTail := sound.cachedTail

theorem Sound.pushStep (sound : Sound names halves memory queue) (value : T) (pick : Nat) :
    Follows names halves memory queue (halves.pushStep names memory value pick) := by
  rcases sound.holds.producing with ⟨seen, cached, older, near, point⟩
  have published := sound.published
  rw [published] at near
  have grows := fun location order =>
    sound.consistent.load_grows names.producer location order pick
  unfold Halves.pushStep
  cases place : halves.pushing with
  | idle =>
      have after := sound.load names.producer names.tail .relaxed pick
      have content := (pushStep_advances after.holds value).1
      simp only [System.pushStep, show (halves.system names (memory.load names.producer
        names.tail .relaxed pick).1).pushing = .idle from place] at content
      refine ⟨rfl, rfl, grows names.tail .relaxed, rfl, queue, after.of_holds rfl rfl rfl ?_, rfl⟩
      dsimp only
      rw [sound.load_tail .relaxed pick]
      exact content
  | loaded value tail =>
      rw [show (halves.system names memory).pushing = .loaded value tail from place] at point
      have current : tail = (halves.inner names memory).tail := point
      have distance := sound.holds.ring.distance older (by rw [published]; exact near)
      rw [published] at distance
      have byCache : tail - halves.cachedHead ≥ halves.capacity ↔
          memory.latest names.tail = seen + halves.capacity.toNat := by
        rw [current, show halves.cachedHead = BitVec.ofNat w seen from cached]
        exact distance
      simp only [byCache]
      split
      next full =>
        have after := sound.load names.producer names.head .acquire pick
        have known := sound.cachedHead seen older near cached
        rcases sound.reads.learns sound.consistent pick with
          ⟨fresh, newer, behind, value_eq, learned⟩
        have still : memory.latest names.tail ≤ fresh + halves.capacity.toNat :=
          Nat.le_trans near (Nat.add_le_add_right (Nat.le_trans known.seen newer) _)
        have distance := sound.holds.ring.distance behind (by rw [published]; exact still)
        rw [published] at distance
        have byHead : tail - (memory.load names.producer names.head .acquire pick).2 ≥
            halves.capacity ↔ memory.latest names.tail = fresh + halves.capacity.toNat := by
          rw [current, show (memory.load names.producer names.head .acquire pick).2 =
            BitVec.ofNat w fresh from value_eq]
          exact distance
        have loaded : (memory.load names.producer names.head .acquire pick).2 =
          BitVec.ofNat w fresh := value_eq
        simp only [byHead]
        split
        next rejects =>
          refine ⟨rfl, rfl, grows names.head .acquire, rfl, queue, ?_, rfl, fresh, newer, behind,
            rejects⟩
          rw [loaded]
          exact after.cacheHead behind still learned
            ⟨fresh, rfl, behind, by rw [after.published]; exact still, trivial⟩
        next room =>
          refine ⟨rfl, rfl, grows names.head .acquire, rfl, queue, ?_, rfl⟩
          rw [loaded]
          exact after.cacheHead behind still learned
            ⟨fresh, rfl, behind, by rw [after.published]; exact still, current, by
              rw [after.published]
              exact Nat.lt_of_le_of_ne still room⟩
      next space =>
        exact sound.writeSlot value cached older (Nat.lt_of_le_of_ne near space) current
  | refreshed value tail =>
      rw [show (halves.system names memory).pushing = .refreshed value tail from place] at point
      rcases point with ⟨current, room⟩
      rw [published] at room
      exact sound.writeSlot value cached older room current
  | written value tail => exact sound.publish place

/-! ## Steps of the consumer -/

omit [DecidableEq ι] in
theorem Sound.readSlot {head : BitVec w} {seen : Nat} (sound : Sound names halves memory queue)
    (cached : halves.cachedTail = BitVec.ofNat w seen)
    (older : seen ≤ memory.latest names.tail) (unread : memory.latest names.head < seen)
    (current : head = (halves.inner names memory).head) :
    Follows names halves memory queue (halves.readSlot names memory head) := by
  have mates := names.mates halves.capacity.toNat
  have published := sound.published
  have index : (head &&& halves.mask).toNat =
      memory.latest names.head % halves.capacity.toNat := by
    rw [current]
    exact sound.holds.ring.index_head
  have ahead : memory.latest names.head + (seen - memory.latest names.head) = seen :=
    Nat.add_sub_cancel' unread.le
  have content := (readSlot_advances sound.holds (by rw [ahead]; exact cached) (by omega)
    (Nat.sub_pos_of_lt unread) current).1
  have learned := sound.cachedTail seen unread.le older cached
  have safe := sound.reads.not_races sound.writes mates.symm sound.consistent learned older unread
  have grows : memory.Grows (memory.touch names.consumer
      (names.slot (head &&& halves.mask).toNat) .read) := WeakMemory.touch_grows _ _ _
  refine ⟨?_, rfl, grows, rfl, queue, ?_, rfl⟩
  · refine decide_eq_false ?_
    rw [index]
    exact safe
  · refine ⟨sound.consistent.touch _ _ _, content, published, ?_, ?_, ?_, ?_⟩
    · apply sound.writes.frame grows (sound.consistent.touch _ _ _) rfl
      intro cell thread
      exact WeakMemory.touch_stamp_of_ne _ _ _ (.inl (by
        intro impossible
        cases impossible))
    · simp only [Halves.readSlot, index]
      exact sound.reads.touch mates.symm names.slots (by
        change memory.latest names.head < memory.latest names.tail + 0
        omega)
    · intro seen older near cached
      exact (sound.cachedHead seen older near cached).grows grows older
    · intro seen later older cached
      exact (sound.cachedTail seen later older cached).grows grows older

omit [Fintype τ] [DecidableEq κ] in
theorem Halves.inner_store_head (names : Names τ ι κ) (halves : Halves T w) (value : BitVec w) :
    halves.inner names (memory.store names.consumer names.head .release value) =
      { halves.inner names memory with head := value } := by
  unfold Halves.inner
  rw [WeakMemory.store_latest_self, WeakMemory.store_value_self,
    WeakMemory.store_latest_of_ne _ _ _ _ names.indices,
    WeakMemory.store_messages_of_ne _ _ _ _ names.indices]

omit [Fintype τ] [DecidableEq κ] in
/-- The consumer gives back the slot that it has read. -/
theorem Sound.release {value : Option T} {head : BitVec w}
    (sound : Sound names halves memory queue) (place : halves.popping = .taken value head) :
    Follows names halves memory queue
      ⟨{ halves with popping := .idle },
        memory.store names.consumer names.head .release (head + 1#w), false,
        some (.popped value)⟩ := by
  have mates := names.mates halves.capacity.toNat
  have published := sound.published
  have grows := sound.consistent.store_grows names.consumer names.head .release (head + 1#w)
  have consistent := sound.consistent.store names.consumer names.head .release (head + 1#w)
  have atHead : (memory.store names.consumer names.head .release (head + 1#w)).latest
      names.head = memory.latest names.head + 1 := WeakMemory.store_latest_self _ _ _ _
  have atTail : (memory.store names.consumer names.head .release (head + 1#w)).latest
      names.tail = memory.latest names.tail :=
    WeakMemory.store_latest_of_ne _ _ _ _ names.indices
  rcases sound.holds.consuming with ⟨ahead, -, behind, point⟩
  rw [show (halves.system names memory).popping = .taken value head from place] at point
  rcases point with ⟨current, unread, -⟩
  have content := (popStep_advances sound.holds).1
  simp only [System.popStep, show (halves.system names memory).popping = .taken value head
    from place] at content
  rcases content with ⟨after, allowed, holds⟩
  cases allowed with
  | pop =>
      refine ⟨rfl, rfl, grows, atHead, after, ?_, rfl⟩
      refine ⟨consistent, ?_, ?_, ?_, ?_, ?_, ?_⟩
      · rw [atHead, Halves.system, Halves.inner_store_head]
        exact holds
      · rw [atHead, atTail, ← published, List.length_cons]
        omega
      · exact sound.writes.frame grows consistent atTail fun _ _ => rfl
      · apply sound.reads.store sound.consistent mates.symm
        rw [current]
        change (halves.inner names memory).head + 1#w = _
        rw [sound.head_eq, ← BitVec.ofNat_add]
        rfl
      · intro seen older near cached
        rw [atHead] at older
        rw [atTail] at near
        have near : memory.latest names.tail ≤ seen + halves.capacity.toNat := near
        rcases Nat.lt_or_ge (memory.latest names.head) seen with newer | known
        · rcases sound.holds.producing with ⟨past, cachedHead, earlier, close, -⟩
          have close : memory.latest names.tail ≤ past + halves.capacity.toNat := by
            rw [← published]
            exact close
          have same := RingIndex.eq_of_ofNat_eq (by omega) (by omega) halves.capacity.isLt
            (cachedHead.symm.trans cached)
          omega
        · exact (sound.cachedHead seen known near cached).grows grows known
      · intro seen later older cached
        rw [atHead] at later
        rw [atTail] at older
        exact (sound.cachedTail seen (Nat.le_of_succ_le later) older cached).grows grows older

omit [DecidableEq τ] [DecidableEq ι] [Fintype τ] [DecidableEq κ] in
/-- The consumer caches a value of the tail that it has learned. -/
theorem Sound.cacheTail {fresh : Nat} {popping : Popping T w}
    (sound : Sound names halves memory queue) (later : memory.latest names.head ≤ fresh)
    (older : fresh ≤ memory.latest names.tail)
    (learned : Handover.Learned names.consuming (names.producing halves.capacity.toNat) memory
      fresh)
    (consuming : Consuming
      (({ halves with cachedTail := BitVec.ofNat w fresh, popping } : Halves T w).system names
        memory) (memory.latest names.head) queue) :
    Sound names { halves with cachedTail := BitVec.ofNat w fresh, popping } memory queue where
  consistent := sound.consistent
  holds := ⟨sound.holds.ring, sound.holds.producing, consuming⟩
  published := sound.published
  writes := sound.writes
  reads := sound.reads
  cachedHead := sound.cachedHead
  cachedTail seen ahead behind cached := by
    have published := sound.published
    have bounded : queue.length ≤ halves.capacity.toNat := sound.holds.ring.bounded
    have same := RingIndex.eq_of_ofNat_eq (by omega) (by omega) halves.capacity.isLt cached
    exact same ▸ learned

theorem Sound.popStep (sound : Sound names halves memory queue) (pick : Nat) :
    Follows names halves memory queue (halves.popStep names memory pick) := by
  rcases sound.holds.consuming with ⟨ahead, cached, behind, point⟩
  have published := sound.published
  have grows := fun location order =>
    sound.consistent.load_grows names.consumer location order pick
  unfold Halves.popStep
  cases place : halves.popping with
  | idle =>
      have after := sound.load names.consumer names.head .relaxed pick
      have content := (popStep_advances after.holds).1
      simp only [System.popStep, show (halves.system names (memory.load names.consumer
        names.head .relaxed pick).1).popping = .idle from place] at content
      refine ⟨rfl, rfl, grows names.head .relaxed, rfl, queue, after.of_holds rfl rfl rfl ?_, rfl⟩
      dsimp only
      rw [sound.load_head .relaxed pick]
      exact content
  | loaded head =>
      rw [show (halves.system names memory).popping = .loaded head from place] at point
      have current : head = (halves.inner names memory).head := point
      have byCache : head = halves.cachedTail ↔ ahead = 0 := by
        rw [current, show halves.cachedTail = BitVec.ofNat w _ from cached]
        exact sound.holds.ring.caught_up behind
      simp only [byCache]
      split
      next caughtUp =>
        have after := sound.load names.consumer names.tail .acquire pick
        have known := sound.cachedTail _ (Nat.le_add_right _ _) (by omega) cached
        rcases sound.writes.learns sound.consistent pick with
          ⟨fresh, newer, older, value_eq, learned⟩
        have later : memory.latest names.head ≤ fresh :=
          Nat.le_trans (Nat.le_add_right _ _) (Nat.le_trans known.seen newer)
        have older : fresh ≤ memory.latest names.tail := older
        have loaded : (memory.load names.consumer names.tail .acquire pick).2 =
          BitVec.ofNat w fresh := value_eq
        have total : memory.latest names.head + (fresh - memory.latest names.head) = fresh :=
          Nat.add_sub_cancel' later
        have byTail : head = (memory.load names.consumer names.tail .acquire pick).2 ↔
            fresh - memory.latest names.head = 0 := by
          rw [loaded, current, ← sound.holds.ring.caught_up (show _ ≤ queue.length by omega),
            total]
          rfl
        simp only [byTail]
        split
        next empty =>
          refine ⟨rfl, rfl, grows names.tail .acquire, rfl, queue, ?_, rfl, ?_⟩
          · rw [loaded]
            exact after.cacheTail later older learned
              ⟨fresh - memory.latest names.head, congrArg (BitVec.ofNat w) total.symm,
                show _ ≤ queue.length by omega, trivial⟩
          · have seen : (memory.views names.consumer).seen names.tail ≤ fresh := newer
            omega
        next unread =>
          refine ⟨rfl, rfl, grows names.tail .acquire, rfl, queue, ?_, rfl⟩
          rw [loaded]
          exact after.cacheTail later older learned
            ⟨fresh - memory.latest names.head, congrArg (BitVec.ofNat w) total.symm,
              show _ ≤ queue.length by omega, current, Nat.pos_of_ne_zero unread⟩
      next unread =>
        exact sound.readSlot cached (by omega) (by omega) current
  | refreshed head =>
      rw [show (halves.system names memory).popping = .refreshed head from place] at point
      exact sound.readSlot cached (by omega) (by omega) point.1
  | taken value head => exact sound.release place

/-! ## What went through -/

/-- The queue holds `queue` after the calls have returned `outcomes`. -/
structure Carries (names : Names τ ι κ) (halves : Halves T w)
    (memory : WeakMemory τ ι κ (BitVec w)) (capacity : BitVec w)
    (outcomes : List (Fifo.Outcome (Option T))) (queue : List (Option T)) : Prop where
  sound : Sound names halves memory queue
  capacity : halves.capacity = capacity
  taken : memory.latest names.head = (Fifo.popped outcomes).length
  accounts : Fifo.accepted outcomes = Fifo.popped outcomes ++ queue
  initialised : ∀ value ∈ Fifo.accepted outcomes, value ≠ none

variable {capacity : BitVec w} {outcomes : List (Fifo.Outcome (Option T))}

omit [DecidableEq τ] [DecidableEq ι] [Fintype τ] [DecidableEq κ]

/-- An empty queue in a fresh memory. -/
theorem Carries.start (names : Names τ ι κ) {initial : ι → BitVec w} {minCapacity : BitVec w}
    (divides : (channelCapacity minCapacity).toNat ∣ 2 ^ w)
    (tail : initial names.tail = 0#w) (head : initial names.head = 0#w) :
    Carries names (Halves.channel T minCapacity) (.start initial)
      (channelCapacity minCapacity) [] [] where
  sound := {
    consistent := WeakMemory.start_consistent _
    holds := by
      have same : (Halves.channel T minCapacity).system names (.start initial) =
          Spsc.channel T minCapacity := by
        simp only [Halves.system, Halves.inner, WeakMemory.start, tail, head]
        rfl
      rw [same]
      exact channel_holds divides
    published := rfl
    writes := .start _ _ tail
    reads := .start _ _ head
    cachedHead := by
      intro seen older _ _
      rw [Nat.le_zero.mp older]
      exact ⟨Nat.le_refl 0, Nat.le_refl 0⟩
    cachedTail := by
      intro seen _ older _
      rw [Nat.le_zero.mp older]
      exact ⟨Nat.le_refl 0, Nat.le_refl 0⟩ }
  capacity := rfl
  taken := rfl
  accounts := rfl
  initialised _ impossible := by cases impossible

theorem Carries.frame (carries : Carries names halves memory capacity outcomes queue)
    (grows : memory.Grows next) (consistent : next.Consistent)
    (tail : next.latest names.tail = memory.latest names.tail)
    (head : next.latest names.head = memory.latest names.head)
    (cells : ∀ cell, next.cells (names.slot cell) = memory.cells (names.slot cell)) :
    Carries names halves next capacity outcomes queue where
  sound := carries.sound.frame grows consistent tail head cells
  capacity := carries.capacity
  taken := head.trans carries.taken
  accounts := carries.accounts
  initialised := carries.initialised

theorem Carries.follow (carries : Carries names halves memory capacity outcomes queue)
    {stepped : Stepped T w τ ι κ} (follows : Follows names halves memory queue stepped) :
    ∃ after, Carries names stepped.halves stepped.memory capacity
        (outcomes ++ stepped.outcome.toList) after ∧
      Returns names memory capacity.toNat queue after stepped.outcome := by
  rcases follows.returns with ⟨after, sound, returns⟩
  rw [carries.capacity] at returns
  refine ⟨after, ⟨sound, follows.capacity.trans carries.capacity, ?_, ?_, ?_⟩, returns⟩
  · rw [Fifo.popped_append, List.length_append, ← carries.taken]
    exact follows.taken
  · rw [Fifo.accepted_append, Fifo.popped_append, carries.accounts, List.append_assoc,
      List.append_assoc, returns.accounts]
  · intro value member
    rw [Fifo.accepted_append] at member
    rcases List.mem_append.mp member with old | new
    · exact carries.initialised value old
    · exact returns.initialised value new

/-- Only values that were put in come out. -/
theorem Carries.popped_ne_none (carries : Carries names halves memory capacity outcomes queue) :
    ∀ value ∈ Fifo.popped outcomes, value ≠ none := by
  intro value member
  apply carries.initialised
  rw [carries.accounts]
  exact List.mem_append_left _ member

theorem Carries.length_accepted (carries : Carries names halves memory capacity outcomes queue) :
    (Fifo.accepted outcomes).length = memory.latest names.tail := by
  rw [carries.accounts, List.length_append, ← carries.taken, carries.sound.published]

theorem Carries.bounded (carries : Carries names halves memory capacity outcomes queue) :
    queue.length ≤ capacity.toNat := by
  rw [← carries.capacity]
  exact carries.sound.holds.ring.bounded

end Steps

end Spsc

end Bourse
