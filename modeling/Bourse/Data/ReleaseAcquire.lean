import Mathlib.Data.Fintype.Basic
import Mathlib.Logic.Function.Basic

/-!
# Memory with release stores and acquire loads

An operational memory for threads `τ` that share atomic locations `ι` with values `ν` and
plain cells `κ`.  A location keeps every message that was stored to it, and a load may return
any message that is not older than what its thread has seen of the location.  A release store
passes on what its thread knows, and an acquire load that reads it learns that.  Each thread
counts its accesses to plain cells; an access races if another thread made a conflicting one
that its own thread does not know of.

Stores go to the end of a location's order, so a location has one thread that stores to it.
-/

namespace Bourse

/-- The orderings of loads and stores. -/
inductive MemoryOrder where
  | relaxed
  | acquire
  | release
  deriving DecidableEq, Repr

/-- What a thread knows: how many plain accesses of each thread happened before, and the last
message of each location that it cannot miss. -/
structure View (τ ι : Type) where
  clock : τ → Nat
  seen : ι → Nat

/-- The plain accesses of a cell. -/
inductive PlainAccess where
  | read
  | write
  deriving DecidableEq, Repr

/-- A stored value and what its store passes on. -/
structure Message (τ ι ν : Type) where
  value : ν
  view : View τ ι

/-- The messages of every location up to the latest one, what each thread knows, and for every
cell the number that the last read and the last write of each thread had among its accesses. -/
structure WeakMemory (τ ι κ ν : Type) where
  messages : ι → Nat → Message τ ι ν
  latest : ι → Nat
  cells : κ → PlainAccess → τ → Nat
  views : τ → View τ ι

namespace View

variable {τ ι : Type}

/-- Nothing is known. -/
def bottom : View τ ι := ⟨fun _ => 0, fun _ => 0⟩

/-- What two views know together. -/
def join (left right : View τ ι) : View τ ι :=
  ⟨fun thread => max (left.clock thread) (right.clock thread),
    fun location => max (left.seen location) (right.seen location)⟩

/-- A view knows what another one does. -/
structure Within (left right : View τ ι) : Prop where
  clock : ∀ thread, left.clock thread ≤ right.clock thread
  seen : ∀ location, left.seen location ≤ right.seen location

theorem Within.refl (view : View τ ι) : view.Within view :=
  ⟨fun _ => Nat.le_refl _, fun _ => Nat.le_refl _⟩

theorem Within.trans {first second third : View τ ι} (before : first.Within second)
    (after : second.Within third) : first.Within third :=
  ⟨fun thread => Nat.le_trans (before.clock thread) (after.clock thread),
    fun location => Nat.le_trans (before.seen location) (after.seen location)⟩

theorem within_join_left (left right : View τ ι) : left.Within (left.join right) :=
  ⟨fun _ => Nat.le_max_left _ _, fun _ => Nat.le_max_left _ _⟩

theorem within_join_right (left right : View τ ι) : right.Within (left.join right) :=
  ⟨fun _ => Nat.le_max_right _ _, fun _ => Nat.le_max_right _ _⟩

/-- Moving on to a later message of a location. -/
theorem within_update [DecidableEq ι] (view : View τ ι) {location : ι} {position : Nat}
    (later : view.seen location ≤ position) :
    view.Within { view with seen := Function.update view.seen location position } := by
  refine ⟨fun _ => Nat.le_refl _, ?_⟩
  intro other
  by_cases same : other = location
  · subst same
    simpa using later
  · simp [Function.update_of_ne same]

end View

namespace WeakMemory

variable {τ ι κ ν : Type}

/-- A memory before its threads are spawned. -/
def start (initial : ι → ν) : WeakMemory τ ι κ ν where
  messages location _ := ⟨initial location, .bottom⟩
  latest _ := 0
  cells _ _ _ := 0
  views _ := .bottom

/-- The message that a load of a thread returns, `pick` messages after the oldest that it
may return. -/
def position (memory : WeakMemory τ ι κ ν) (thread : τ) (location : ι) (pick : Nat) : Nat :=
  min ((memory.views thread).seen location + pick) (memory.latest location)

/-- The thread knows of every such access of the cell. -/
def Knows (memory : WeakMemory τ ι κ ν) (thread : τ) (cell : κ) (access : PlainAccess) : Prop :=
  ∀ other, memory.cells cell access other ≤ (memory.views thread).clock other

/-- An access of the cell now would race with one that its thread does not know of: a write
with any other access, a read with a write. -/
def Races (memory : WeakMemory τ ι κ ν) (thread : τ) (cell : κ) : PlainAccess → Prop
  | .read => ¬ memory.Knows thread cell .write
  | .write => ¬ (memory.Knows thread cell .write ∧ memory.Knows thread cell .read)

instance [Fintype τ] (memory : WeakMemory τ ι κ ν) (thread : τ) (cell : κ)
    (access : PlainAccess) : Decidable (memory.Knows thread cell access) :=
  inferInstanceAs (Decidable (∀ other,
    memory.cells cell access other ≤ (memory.views thread).clock other))

instance [Fintype τ] (memory : WeakMemory τ ι κ ν) (thread : τ) (cell : κ)
    (access : PlainAccess) : Decidable (memory.Races thread cell access) :=
  match access with
  | .read => inferInstanceAs (Decidable (¬ memory.Knows thread cell .write))
  | .write => inferInstanceAs (Decidable
      (¬ (memory.Knows thread cell .write ∧ memory.Knows thread cell .read)))

/-- What a thread knows after it read a message. -/
def observe [DecidableEq ι] (view : View τ ι) (location : ι) (position : Nat)
    (order : MemoryOrder) (message : Message τ ι ν) : View τ ι :=
  let view := { view with seen := Function.update view.seen location position }
  match order with
  | .acquire => view.join message.view
  | .relaxed | .release => view

variable [DecidableEq τ]

/-- A thread makes one more access to a plain cell. -/
def touch [DecidableEq κ] (memory : WeakMemory τ ι κ ν) (thread : τ) (cell : κ)
    (access : PlainAccess) : WeakMemory τ ι κ ν :=
  let view := memory.views thread
  let count := view.clock thread + 1
  let view := { view with clock := Function.update view.clock thread count }
  let stamps := Function.update (memory.cells cell) access
    (Function.update (memory.cells cell access) thread count)
  { memory with
    cells := Function.update memory.cells cell stamps
    views := Function.update memory.views thread view }

variable [DecidableEq ι]

/-- Load from a location. -/
def load (memory : WeakMemory τ ι κ ν) (thread : τ) (location : ι) (order : MemoryOrder)
    (pick : Nat) : WeakMemory τ ι κ ν × ν :=
  let position := memory.position thread location pick
  let message := memory.messages location position
  let view := observe (memory.views thread) location position order message
  ({ memory with views := Function.update memory.views thread view }, message.value)

/-- Store to a location. -/
def store (memory : WeakMemory τ ι κ ν) (thread : τ) (location : ι) (order : MemoryOrder)
    (value : ν) : WeakMemory τ ι κ ν :=
  let position := memory.latest location + 1
  let view := memory.views thread
  let view := { view with seen := Function.update view.seen location position }
  let message : Message τ ι ν :=
    match order with
    | .release => ⟨value, view⟩
    | .relaxed | .acquire => ⟨value, .bottom⟩
  { memory with
    messages := Function.update memory.messages location
      (Function.update (memory.messages location) position message)
    latest := Function.update memory.latest location position
    views := Function.update memory.views thread view }

/-- One thread writes a cell and stores a flag; the other one loads the flag and reads the
cell. Only with both orderings does the read not race. -/
example : [(MemoryOrder.release, MemoryOrder.acquire), (.relaxed, .acquire),
    (.release, .relaxed)].map (fun orders =>
      let memory : WeakMemory Bool Unit Unit Bool := start fun _ => false
      let memory := (memory.touch true () .write).store true () orders.1 true
      decide ((memory.load false () orders.2 1).1.Races false () .read)) =
    [false, true, true] := by decide

variable {memory : WeakMemory τ ι κ ν}

/-! ## What every operation keeps -/

/-- No view is ahead of the messages, and a thread knows its own accesses. -/
structure Consistent (memory : WeakMemory τ ι κ ν) : Prop where
  views : ∀ thread location, (memory.views thread).seen location ≤ memory.latest location
  messages : ∀ location, ∀ position ≤ memory.latest location, ∀ other,
    (memory.messages location position).view.seen other ≤ memory.latest other
  own : ∀ thread cell access, memory.cells cell access thread ≤ (memory.views thread).clock thread

/-- Messages stay, and no thread forgets. -/
structure Grows (memory next : WeakMemory τ ι κ ν) : Prop where
  views : ∀ thread, (memory.views thread).Within (next.views thread)
  latest : ∀ location, memory.latest location ≤ next.latest location
  messages : ∀ location, ∀ position ≤ memory.latest location,
    next.messages location position = memory.messages location position

omit [DecidableEq τ] [DecidableEq ι] in
theorem Grows.refl (memory : WeakMemory τ ι κ ν) : memory.Grows memory :=
  ⟨fun _ => .refl _, fun _ => Nat.le_refl _, fun _ _ _ => rfl⟩

omit [DecidableEq τ] [DecidableEq ι] in
theorem start_consistent (initial : ι → ν) :
    (start initial : WeakMemory τ ι κ ν).Consistent :=
  ⟨fun _ _ => Nat.le_refl 0, fun _ _ _ _ => Nat.le_refl 0, fun _ _ _ => Nat.le_refl 0⟩

omit [DecidableEq ι] in
/-- Only one thread's view changes, and it grows. -/
theorem within_update_views {thread : τ} {view : View τ ι}
    (more : (memory.views thread).Within view) (other : τ) :
    (memory.views other).Within (Function.update memory.views thread view other) := by
  by_cases same : other = thread
  · subst same
    simpa using more
  · rw [Function.update_of_ne same]
    exact .refl _

/-! ## Loads -/

section Load

variable (thread : τ) (location : ι) (order : MemoryOrder) (pick : Nat)

@[simp] theorem load_messages :
    (memory.load thread location order pick).1.messages = memory.messages := rfl

@[simp] theorem load_latest :
    (memory.load thread location order pick).1.latest = memory.latest := rfl

@[simp] theorem load_cells :
    (memory.load thread location order pick).1.cells = memory.cells := rfl

theorem load_value : (memory.load thread location order pick).2 =
    (memory.messages location (memory.position thread location pick)).value := rfl

omit [DecidableEq τ] [DecidableEq ι] in
theorem position_le_latest : memory.position thread location pick ≤ memory.latest location :=
  Nat.min_le_right _ _

omit [DecidableEq τ] [DecidableEq ι] in
theorem Consistent.seen_le_position (consistent : memory.Consistent) :
    (memory.views thread).seen location ≤ memory.position thread location pick :=
  Nat.le_min.mpr ⟨Nat.le_add_right _ _, consistent.views thread location⟩

omit [DecidableEq τ] [DecidableEq ι] in
/-- A thread that has seen the latest message reads it. -/
theorem position_of_seen {thread : τ} {location : ι}
    (seen : (memory.views thread).seen location = memory.latest location) :
    memory.position thread location pick = memory.latest location := by
  rw [position, seen]
  exact Nat.min_eq_right (Nat.le_add_right _ _)

omit [DecidableEq τ] in
theorem Consistent.within_observe (consistent : memory.Consistent)
    (message : Message τ ι ν) :
    (memory.views thread).Within (observe (memory.views thread) location
      (memory.position thread location pick) order message) := by
  have updated := (memory.views thread).within_update
    (consistent.seen_le_position thread location pick)
  cases order with
  | acquire => exact updated.trans (View.within_join_left _ _)
  | relaxed => exact updated
  | release => exact updated

/-- A load adds to what its thread knows. -/
theorem Consistent.load_grows (consistent : memory.Consistent) :
    memory.Grows (memory.load thread location order pick).1 :=
  ⟨within_update_views (consistent.within_observe thread location order pick _),
    fun _ => Nat.le_refl _, fun _ _ _ => rfl⟩

/-- An acquire load learns what the message that it reads passes on. -/
theorem within_load_acquire :
    (memory.messages location (memory.position thread location pick)).view.Within
      ((memory.load thread location .acquire pick).1.views thread) := by
  simp only [load, Function.update_self]
  exact View.within_join_right _ _

/-- After a load, its thread has seen the message. -/
theorem position_le_seen :
    memory.position thread location pick ≤
      ((memory.load thread location order pick).1.views thread).seen location := by
  simp only [load, Function.update_self, observe]
  cases order with
  | acquire => simp [View.join]
  | relaxed => simp
  | release => simp

omit [DecidableEq τ] in
theorem Consistent.seen_observe (consistent : memory.Consistent) (other : ι) :
    (observe (memory.views thread) location (memory.position thread location pick) order
      (memory.messages location (memory.position thread location pick))).seen other ≤
        memory.latest other := by
  have current := memory.position_le_latest thread location pick
  have updated : Function.update (memory.views thread).seen location
      (memory.position thread location pick) other ≤ memory.latest other := by
    by_cases same : other = location
    · subst same
      simpa using current
    · rw [Function.update_of_ne same]
      exact consistent.views thread other
  cases order with
  | acquire => exact Nat.max_le.mpr ⟨updated, consistent.messages location _ current other⟩
  | relaxed => exact updated
  | release => exact updated

theorem Consistent.load (consistent : memory.Consistent) :
    (memory.load thread location order pick).1.Consistent := by
  refine ⟨?_, consistent.messages, ?_⟩
  · intro reader other
    by_cases same : reader = thread
    · subst same
      simp only [WeakMemory.load, Function.update_self]
      exact consistent.seen_observe reader location order pick other
    · simp only [WeakMemory.load, Function.update_of_ne same]
      exact consistent.views reader other
  · intro owner cell access
    exact Nat.le_trans (consistent.own owner cell access)
      (((consistent.load_grows thread location order pick).views owner).clock owner)

end Load

/-! ## Stores -/

section Store

variable (thread : τ) (location : ι) (order : MemoryOrder) (value : ν)

@[simp] theorem store_cells : (memory.store thread location order value).cells = memory.cells :=
  rfl

@[simp] theorem store_latest_self :
    (memory.store thread location order value).latest location = memory.latest location + 1 := by
  simp [store]

theorem store_latest_of_ne {other : ι} (differs : other ≠ location) :
    (memory.store thread location order value).latest other = memory.latest other := by
  simp [store, Function.update_of_ne differs]

theorem store_messages_of_ne {other : ι} (differs : other ≠ location) :
    (memory.store thread location order value).messages other = memory.messages other := by
  simp [store, Function.update_of_ne differs]

@[simp] theorem store_clock (other : τ) :
    ((memory.store thread location order value).views other).clock =
      (memory.views other).clock := by
  by_cases same : other = thread
  · subst same
    simp [store]
  · simp [store, Function.update_of_ne same]

/-- A thread has seen what it stored. -/
theorem store_seen_self :
    ((memory.store thread location order value).views thread).seen location =
      memory.latest location + 1 := by
  simp [store]

theorem store_value_self :
    ((memory.store thread location order value).messages location
      (memory.latest location + 1)).value = value := by
  cases order <;> simp [store]

/-- A release store passes on what its thread knows. -/
theorem store_release_view :
    ((memory.store thread location .release value).messages location
      (memory.latest location + 1)).view =
        (memory.store thread location .release value).views thread := by
  simp [store]

theorem store_messages_of_le {other : ι} {position : Nat}
    (older : position ≤ memory.latest other) :
    (memory.store thread location order value).messages other position =
      memory.messages other position := by
  by_cases same : other = location
  · subst same
    have differs : position ≠ memory.latest other + 1 := by omega
    simp [store, Function.update_of_ne differs]
  · rw [store_messages_of_ne _ _ _ _ same]

theorem latest_le_store (other : ι) :
    memory.latest other ≤ (memory.store thread location order value).latest other := by
  by_cases same : other = location
  · subst same
    simp
  · rw [store_latest_of_ne _ _ _ _ same]

/-- A store adds a message. -/
theorem Consistent.store_grows (consistent : memory.Consistent) :
    memory.Grows (memory.store thread location order value) where
  views := by
    apply within_update_views
    apply View.within_update
    exact Nat.le_succ_of_le (consistent.views thread location)
  latest := latest_le_store thread location order value
  messages _ _ := store_messages_of_le thread location order value

theorem Consistent.seen_store (consistent : memory.Consistent) (reader : τ) (other : ι) :
    ((memory.store thread location order value).views reader).seen other ≤
      (memory.store thread location order value).latest other := by
  by_cases same : reader = thread
  · subst same
    by_cases stored : other = location
    · subst stored
      simp [store_seen_self]
    · simp only [WeakMemory.store, Function.update_self, Function.update_of_ne stored]
      exact consistent.views reader other
  · have kept := (consistent.store_grows thread location order value).latest other
    have seen := consistent.views reader other
    simp only [WeakMemory.store, Function.update_of_ne same] at kept ⊢
    omega

theorem Consistent.store (consistent : memory.Consistent) :
    (memory.store thread location order value).Consistent := by
  refine ⟨consistent.seen_store thread location order value, ?_, ?_⟩
  · intro source position within other
    rcases Nat.lt_or_ge (memory.latest source) position with newer | older
    · have stored : source = location := by
        by_contra differs
        rw [store_latest_of_ne _ _ _ _ differs] at within
        omega
      subst stored
      have last : position = memory.latest source + 1 := by
        rw [store_latest_self] at within
        omega
      subst last
      cases order with
      | release =>
          rw [store_release_view]
          exact consistent.seen_store thread source .release value thread other
      | relaxed => simp [WeakMemory.store, View.bottom]
      | acquire => simp [WeakMemory.store, View.bottom]
    · rw [store_messages_of_le _ _ _ _ older]
      exact Nat.le_trans (consistent.messages source position older other)
        (latest_le_store thread location order value other)
  · intro owner cell access
    rw [store_clock]
    exact consistent.own owner cell access

end Store

/-! ## Plain accesses -/

section Touch

variable [DecidableEq κ] (thread : τ) (cell : κ) (access : PlainAccess)

omit [DecidableEq ι]

@[simp] theorem touch_messages : (memory.touch thread cell access).messages = memory.messages :=
  rfl

@[simp] theorem touch_latest : (memory.touch thread cell access).latest = memory.latest := rfl

@[simp] theorem touch_seen (other : τ) :
    ((memory.touch thread cell access).views other).seen = (memory.views other).seen := by
  by_cases same : other = thread
  · subst same
    simp [touch]
  · simp [touch, Function.update_of_ne same]

theorem touch_cells_of_ne {other : κ} (differs : other ≠ cell) :
    (memory.touch thread cell access).cells other = memory.cells other := by
  simp [touch, Function.update_of_ne differs]

/-- The stamps of other kinds of accesses and of other threads stay. -/
theorem touch_stamp_of_ne {other : κ} {kind : PlainAccess} {owner : τ}
    (differs : kind ≠ access ∨ owner ≠ thread) :
    (memory.touch thread cell access).cells other kind owner = memory.cells other kind owner := by
  by_cases same : other = cell
  · subst same
    by_cases sameKind : kind = access
    · subst sameKind
      have otherThread : owner ≠ thread := differs.resolve_left (not_not_intro rfl)
      simp [touch, Function.update_of_ne otherThread]
    · simp [touch, Function.update_of_ne sameKind]
  · rw [touch_cells_of_ne _ _ _ same]

/-- An access adds to what its thread knows. -/
theorem touch_grows : memory.Grows (memory.touch thread cell access) where
  views := by
    apply within_update_views
    refine ⟨?_, fun _ => Nat.le_refl _⟩
    intro other
    by_cases same : other = thread
    · subst same
      simp
    · simp [Function.update_of_ne same]
  latest _ := Nat.le_refl _
  messages _ _ _ := rfl

theorem Consistent.touch (consistent : memory.Consistent) :
    (memory.touch thread cell access).Consistent := by
  refine ⟨?_, consistent.messages, ?_⟩
  · intro reader location
    rw [touch_seen]
    exact consistent.views reader location
  · intro owner other kind
    by_cases kept : kind ≠ access ∨ owner ≠ thread ∨ other ≠ cell
    · have stamp : (memory.touch thread cell access).cells other kind owner =
          memory.cells other kind owner := by
        rcases kept with differs | differs | differs
        · exact touch_stamp_of_ne thread cell access (.inl differs)
        · exact touch_stamp_of_ne thread cell access (.inr differs)
        · rw [touch_cells_of_ne _ _ _ differs]
      rw [stamp]
      exact Nat.le_trans (consistent.own owner other kind)
        (((touch_grows thread cell access).views owner).clock owner)
    · simp only [ne_eq, not_or, not_not] at kept
      rcases kept with ⟨rfl, rfl, rfl⟩
      simp [WeakMemory.touch]

end Touch

end WeakMemory

end Bourse
