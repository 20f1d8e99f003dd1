import Bourse.Spsc.Core

/-!
# The ring buffer refines a bounded queue

The invariant counts what was published and consumed since the queue was created:
`head` and `tail` are these counts modulo `2 ^ w`, each cache is an older value of the
other side's count, and the slots between the two counts hold the content of the
abstract queue.
-/

namespace Bourse

namespace Spsc

universe u

variable {T : Type u} {w : Nat} {inner : Inner T w} {consumed : Nat}
  {queue : List (Option T)}

/-- The shared memory holds `queue`, after `consumed` values have been taken out. -/
structure Ring (inner : Inner T w) (consumed : Nat) (queue : List (Option T)) : Prop where
  divides : inner.capacity.toNat ∣ 2 ^ w
  mask : inner.mask = inner.capacity - 1#w
  size : inner.buffer.length = inner.capacity.toNat
  tail : inner.tail = BitVec.ofNat w (consumed + queue.length)
  head : inner.head = BitVec.ofNat w consumed
  bounded : queue.length ≤ inner.capacity.toNat
  slots : ∀ pos < queue.length,
    inner.buffer[(consumed + pos) % inner.capacity.toNat]? = queue[pos]?

/-- The producer's cache is an older head, and what it still knows at its program
point. -/
def Producing (system : System T w) (consumed : Nat) (queue : List (Option T)) : Prop :=
  ∃ seen, system.cachedHead = BitVec.ofNat w seen ∧ seen ≤ consumed ∧
    consumed + queue.length ≤ seen + system.inner.capacity.toNat ∧
    match system.pushing with
    | .idle => True
    | .loaded _ tail => tail = system.inner.tail
    | .refreshed _ tail => tail = system.inner.tail ∧
        consumed + queue.length < seen + system.inner.capacity.toNat
    | .written value tail => tail = system.inner.tail ∧
        consumed + queue.length < seen + system.inner.capacity.toNat ∧
        system.inner.buffer[(consumed + queue.length) % system.inner.capacity.toNat]? =
          some (some value)

/-- The consumer's cache is an older tail, `ahead` of its head, and what it still
knows at its program point. -/
def Consuming (system : System T w) (consumed : Nat) (queue : List (Option T)) : Prop :=
  ∃ ahead, system.cachedTail = BitVec.ofNat w (consumed + ahead) ∧ ahead ≤ queue.length ∧
    match system.popping with
    | .idle => True
    | .loaded head => head = system.inner.head
    | .refreshed head => head = system.inner.head ∧ 0 < ahead
    | .taken value head => head = system.inner.head ∧ 0 < ahead ∧
        queue.head? = some value

/-- The system holds `queue`, after `consumed` values have been taken out. -/
structure Holds (system : System T w) (consumed : Nat) (queue : List (Option T)) :
    Prop where
  ring : Ring system.inner consumed queue
  producing : Producing system consumed queue
  consuming : Consuming system consumed queue

/-- The abstract queue takes part in a step as its outcome says. -/
def Advances (next : System T w) (outcome : Option (Fifo.Outcome (Option T)))
    (consumed : Nat) (queue : List (Option T)) : Prop :=
  match outcome with
  | none => Holds next consumed queue
  | some outcome => ∃ after, Fifo.Step next.inner.capacity.toNat queue outcome after ∧
      Holds next (consumed + (Fifo.popped [outcome]).length) after

/-! ## Slots -/

theorem Ring.capacity_pos (ring : Ring inner consumed queue) : 0 < inner.capacity.toNat :=
  Nat.pos_of_dvd_of_pos ring.divides (Nat.two_pow_pos w)

theorem Ring.index_tail (ring : Ring inner consumed queue) :
    (inner.tail &&& inner.mask).toNat = (consumed + queue.length) % inner.capacity.toNat := by
  rw [ring.tail, ring.mask, RingIndex.toNat_and_mask ring.divides]

theorem Ring.index_head (ring : Ring inner consumed queue) :
    (inner.head &&& inner.mask).toNat = consumed % inner.capacity.toNat := by
  rw [ring.head, ring.mask, RingIndex.toNat_and_mask ring.divides]

/-- What the slot at the head holds. -/
theorem Ring.front (ring : Ring inner consumed queue) (nonempty : 0 < queue.length) :
    some (inner.buffer[(inner.head &&& inner.mask).toNat]?).join = queue.head? := by
  have slot := ring.slots 0 nonempty
  rw [Nat.add_zero] at slot
  rw [ring.index_head, slot, List.head?_eq_getElem?]
  rw [List.getElem?_eq_getElem nonempty]
  rfl

/-- Writing the slot at the tail while there is room leaves the content alone. -/
theorem Ring.write (ring : Ring inner consumed queue)
    (room : queue.length < inner.capacity.toNat) (value : T) :
    Ring { inner with
        buffer := inner.buffer.set (inner.tail &&& inner.mask).toNat (some value) }
      consumed queue where
  divides := ring.divides
  mask := ring.mask
  size := by simpa using ring.size
  tail := ring.tail
  head := ring.head
  bounded := ring.bounded
  slots pos less := by
    have apart : (consumed + queue.length) % inner.capacity.toNat ≠
        (consumed + pos) % inner.capacity.toNat :=
      (RingIndex.mod_ne (by omega) (by omega)).symm
    rw [ring.index_tail]
    simp only
    rw [List.getElem?_set_ne apart]
    exact ring.slots pos less

/-! ## Steps of the producer -/

variable {system : System T w}

/-- What a step may do to shared memory, and when it may return what. -/
def Allowed (inner : Inner T w) (consumed : Nat) (queue : List (Option T)) :
    Access w × Option (Fifo.Outcome (Option T)) → Prop
  | (.writeSlot index, outcome) => outcome = none ∧ index.toNat < inner.buffer.length ∧
      queue.length < inner.capacity.toNat ∧
      index.toNat = (consumed + queue.length) % inner.capacity.toNat
  | (.readSlot index, outcome) => outcome = none ∧ index.toNat < inner.buffer.length ∧
      0 < queue.length ∧ index.toNat = consumed % inner.capacity.toNat
  | (.loadHead, outcome) => ∀ value, outcome = some value →
      (∃ rejected, value = .rejected rejected) ∧ queue.length = inner.capacity.toNat
  | (.loadTail, outcome) => ∀ value, outcome = some value → value = .empty ∧ queue = []
  | (.storeTail, outcome) => ∃ value, outcome = some (.accepted (some value))
  | (.storeHead, outcome) => ∃ value, outcome = some (.popped value)

theorem writeSlot_advances {tail : BitVec w} {seen : Nat} (value : T)
    (holds : Holds system consumed queue)
    (cached : system.cachedHead = BitVec.ofNat w seen) (older : seen ≤ consumed)
    (room : consumed + queue.length < seen + system.inner.capacity.toNat)
    (current : tail = system.inner.tail) :
    Advances (system.writeSlot value tail).1 none consumed queue ∧
      Allowed system.inner consumed queue (system.writeSlot value tail).2 := by
  subst current
  have space : queue.length < system.inner.capacity.toNat := by omega
  have index := holds.ring.index_tail
  have inside : (system.inner.tail &&& system.inner.mask).toNat <
      system.inner.buffer.length := by
    rw [index, holds.ring.size]
    exact Nat.mod_lt _ holds.ring.capacity_pos
  refine ⟨⟨holds.ring.write space value, ?_, holds.consuming⟩, rfl, inside, space, index⟩
  refine ⟨seen, cached, older, room.le, rfl, room, ?_⟩
  simp only [System.writeSlot]
  rw [← index, List.getElem?_set_self inside]

/-- The producer's reading of its distance to a head it has seen. -/
theorem Ring.distance (ring : Ring inner consumed queue) {seen : Nat}
    (older : seen ≤ consumed) (near : consumed + queue.length ≤ seen + inner.capacity.toNat) :
    inner.tail - BitVec.ofNat w seen ≥ inner.capacity ↔
      consumed + queue.length = seen + inner.capacity.toNat := by
  have small := inner.capacity.isLt
  rw [ge_iff_le, BitVec.le_def, ring.tail, RingIndex.toNat_sub (by omega) (by omega)]
  omega

/-- Publishing the slot that has been written. -/
theorem Ring.publish (ring : Ring inner consumed queue)
    (room : queue.length < inner.capacity.toNat) {value : T}
    (slot : inner.buffer[(consumed + queue.length) % inner.capacity.toNat]? =
      some (some value)) :
    Ring { inner with tail := inner.tail + 1#w } consumed (queue ++ [some value]) where
  divides := ring.divides
  mask := ring.mask
  size := ring.size
  tail := by
    simp only [List.length_append, List.length_singleton, ring.tail]
    rw [← Nat.add_assoc, ← BitVec.ofNat_add]
  head := ring.head
  bounded := by
    rw [List.length_append]
    exact room
  slots pos less := by
    rw [List.length_append, List.length_singleton] at less
    rcases Nat.lt_succ_iff_lt_or_eq.mp less with before | last
    · rw [List.getElem?_append_left before]
      exact ring.slots pos before
    · rw [last, List.getElem?_concat_length]
      exact slot

theorem pushStep_advances (holds : Holds system consumed queue) (value : T) :
    Advances (system.pushStep value).1 (system.pushStep value).2.2 consumed queue ∧
      Allowed system.inner consumed queue (system.pushStep value).2 := by
  rcases holds.producing with ⟨seen, cached, older, near, point⟩
  unfold System.pushStep
  cases place : system.pushing with
  | idle =>
      refine ⟨⟨holds.ring, ⟨seen, cached, older, near, rfl⟩, holds.consuming⟩, ?_⟩
      intro value impossible
      cases impossible
  | loaded value tail =>
      rw [place] at point
      have current : tail = system.inner.tail := point
      subst current
      have bounded : consumed + queue.length ≤ consumed + system.inner.capacity.toNat :=
        Nat.add_le_add_left holds.ring.bounded _
      have byCache := holds.ring.distance older near
      have byHead := holds.ring.distance (le_refl consumed) bounded
      simp only [cached, holds.ring.head, byCache, byHead]
      split
      next full =>
        split
        next still =>
          have queueFull : queue.length = system.inner.capacity.toNat := by omega
          refine ⟨⟨queue, Fifo.Step.reject _ queueFull, holds.ring,
            ⟨consumed, rfl, le_refl _, bounded, trivial⟩, holds.consuming⟩, ?_⟩
          intro outcome returned
          cases returned
          exact ⟨⟨_, rfl⟩, queueFull⟩
        next space =>
          refine ⟨⟨holds.ring, ⟨consumed, rfl, le_refl _, bounded, rfl,
            lt_of_le_of_ne bounded space⟩, holds.consuming⟩, ?_⟩
          intro outcome impossible
          cases impossible
      next space => exact writeSlot_advances value holds cached older (by omega) rfl
  | refreshed value tail =>
      rw [place] at point
      exact writeSlot_advances value holds cached older point.2 point.1
  | written value tail =>
      rw [place] at point
      rcases point with ⟨current, room, slot⟩
      have space : queue.length < system.inner.capacity.toNat := by omega
      subst current
      rcases holds.consuming with ⟨ahead, cachedTail, behind, point⟩
      have total : consumed + (queue ++ [some value]).length =
          consumed + queue.length + 1 := by simp [Nat.add_assoc]
      refine ⟨⟨_, Fifo.Step.accept _ space, holds.ring.publish space slot, ?_, ?_⟩,
        ⟨_, rfl⟩⟩
      · exact ⟨seen, cached, older, total ▸ room, trivial⟩
      · refine ⟨ahead, cachedTail, ?_, ?_⟩
        · rw [List.length_append]
          exact Nat.le_add_right_of_le behind
        · cases popping : system.popping with
          | idle => trivial
          | loaded head =>
              rw [popping] at point
              exact point
          | refreshed head =>
              rw [popping] at point
              exact point
          | taken taken head =>
              rw [popping] at point
              refine ⟨point.1, point.2.1, ?_⟩
              rw [List.head?_append, point.2.2]
              rfl

/-! ## Steps of the consumer -/

theorem readSlot_advances {head : BitVec w} {ahead : Nat}
    (holds : Holds system consumed queue)
    (cached : system.cachedTail = BitVec.ofNat w (consumed + ahead))
    (behind : ahead ≤ queue.length) (unread : 0 < ahead)
    (current : head = system.inner.head) :
    Advances (system.readSlot head).1 none consumed queue ∧
      Allowed system.inner consumed queue (system.readSlot head).2 := by
  subst current
  have nonempty : 0 < queue.length := by omega
  have index := holds.ring.index_head
  have inside : (system.inner.head &&& system.inner.mask).toNat <
      system.inner.buffer.length := by
    rw [index, holds.ring.size]
    exact Nat.mod_lt _ holds.ring.capacity_pos
  refine ⟨⟨holds.ring, holds.producing, ?_⟩, rfl, inside, nonempty, index⟩
  exact ⟨ahead, cached, behind, rfl, unread, (holds.ring.front nonempty).symm⟩

/-- The consumer's comparison of its head with a tail it has seen. -/
theorem Ring.caught_up (ring : Ring inner consumed queue) {ahead : Nat}
    (behind : ahead ≤ queue.length) :
    inner.head = BitVec.ofNat w (consumed + ahead) ↔ ahead = 0 := by
  have small := inner.capacity.isLt
  have bounded := ring.bounded
  rw [ring.head, RingIndex.ofNat_inj (by omega) (by omega)]
  omega

/-- Giving the slot at the head back. -/
theorem Ring.release {front : Option T} {rest : List (Option T)}
    (ring : Ring inner consumed (front :: rest)) :
    Ring { inner with head := inner.head + 1#w } (consumed + 1) rest where
  divides := ring.divides
  mask := ring.mask
  size := ring.size
  tail := by
    simp only [ring.tail, List.length_cons]
    rw [Nat.add_assoc, Nat.add_comm 1]
  head := by
    simp only [ring.head]
    rw [BitVec.ofNat_add]
  bounded := Nat.le_of_succ_le ring.bounded
  slots pos less := by
    have slot := ring.slots (pos + 1) (Nat.succ_lt_succ less)
    rw [List.getElem?_cons_succ] at slot
    rw [Nat.add_assoc, Nat.add_comm 1]
    exact slot

/-- Taking a value out keeps what the producer knows. -/
theorem Producing.consume {rest : List (Option T)}
    (producing : Producing system consumed queue)
    (total : consumed + 1 + rest.length = consumed + queue.length) :
    Producing { system with
        inner := { system.inner with head := system.inner.head + 1#w }
        popping := .idle } (consumed + 1) rest := by
  rcases producing with ⟨seen, cached, older, near, point⟩
  refine ⟨seen, cached, Nat.le_succ_of_le older, total ▸ near, ?_⟩
  cases place : system.pushing with
  | idle => trivial
  | loaded value tail =>
      rw [place] at point
      exact point
  | refreshed value tail =>
      rw [place] at point
      exact ⟨point.1, total ▸ point.2⟩
  | written value tail =>
      rw [place] at point
      exact ⟨point.1, total ▸ point.2.1, total ▸ point.2.2⟩

theorem popStep_advances (holds : Holds system consumed queue) :
    Advances system.popStep.1 system.popStep.2.2 consumed queue ∧
      Allowed system.inner consumed queue system.popStep.2 := by
  rcases holds.consuming with ⟨ahead, cached, behind, point⟩
  unfold System.popStep
  cases place : system.popping with
  | idle =>
      refine ⟨⟨holds.ring, holds.producing, ahead, cached, behind, rfl⟩, ?_⟩
      intro value impossible
      cases impossible
  | loaded head =>
      rw [place] at point
      have current : head = system.inner.head := point
      subst current
      have byCache := holds.ring.caught_up behind
      have byTail := holds.ring.caught_up (le_refl queue.length)
      simp only [cached, holds.ring.tail, byCache, byTail]
      split
      next =>
        split
        next empty =>
          have nothing : queue = [] := List.length_eq_zero_iff.mp empty
          subst nothing
          refine ⟨⟨[], Fifo.Step.refuse, holds.ring, holds.producing, 0, rfl, le_refl _,
            trivial⟩, ?_⟩
          intro outcome returned
          cases returned
          exact ⟨rfl, rfl⟩
        next unread =>
          refine ⟨⟨holds.ring, holds.producing, queue.length, rfl, le_refl _, rfl,
            Nat.pos_of_ne_zero unread⟩, ?_⟩
          intro outcome impossible
          cases impossible
      next unread =>
        exact readSlot_advances holds cached behind (Nat.pos_of_ne_zero unread) rfl
  | refreshed head =>
      rw [place] at point
      exact readSlot_advances holds cached behind point.2 point.1
  | taken value head =>
      rw [place] at point
      rcases point with ⟨current, unread, front⟩
      subst current
      cases queue with
      | nil => cases front
      | cons first rest =>
          cases front
          have total : consumed + 1 + rest.length = consumed + (value :: rest).length := by
            rw [List.length_cons]
            omega
          have cachedNext : consumed + 1 + (ahead - 1) = consumed + ahead := by omega
          refine ⟨⟨rest, Fifo.Step.pop _ _, holds.ring.release,
            holds.producing.consume total, ahead - 1, ?_, ?_, trivial⟩, ⟨_, rfl⟩⟩
          · exact cached.trans (congrArg (BitVec.ofNat w) cachedNext.symm)
          · rw [List.length_cons] at behind
            omega

end Spsc

end Bourse
