import Mathlib.Data.List.Basic

/-!
# Bounded first-in first-out queues

The abstract bounded queue and the operation outcomes it allows.  Whatever
sequence of outcomes it allows, the values taken out are a prefix of the values put
in, and the values in between are the content of the queue.
-/

namespace Bourse

namespace Fifo

universe u

/-- The outcome of one operation on a bounded queue. -/
inductive Outcome (α : Type u) where
  | accepted (value : α)
  | rejected (value : α)
  | popped (value : α)
  | empty
  deriving DecidableEq, Repr

/-- Selecting the values under a constructor. -/
theorem mem_filterMap_of_inverse {ι α : Type*} {select : ι → Option α} {wrap : α → ι}
    {value : α} (inverse : ∀ item, select item = some value ↔ item = wrap value)
    {items : List ι} : value ∈ items.filterMap select ↔ wrap value ∈ items := by
  simp [List.mem_filterMap, inverse]

variable {α : Type u}

/-- The values put in, in order. -/
def accepted (outcomes : List (Outcome α)) : List α :=
  outcomes.filterMap fun outcome =>
    match outcome with
    | .accepted value => some value
    | .rejected _ | .popped _ | .empty => none

/-- The values taken out, in order. -/
def popped (outcomes : List (Outcome α)) : List α :=
  outcomes.filterMap fun outcome =>
    match outcome with
    | .popped value => some value
    | .accepted _ | .rejected _ | .empty => none

/-- The queue allows an outcome and holds the last list after it. -/
inductive Step (capacity : Nat) : List α → Outcome α → List α → Prop where
  | accept {queue : List α} (value : α) (room : queue.length < capacity) :
      Step capacity queue (.accepted value) (queue ++ [value])
  | reject {queue : List α} (value : α) (full : queue.length = capacity) :
      Step capacity queue (.rejected value) queue
  | pop (front : α) (rest : List α) : Step capacity (front :: rest) (.popped front) rest
  | refuse : Step capacity [] .empty []

/-- A queue that starts empty allows the outcomes and then holds `queue`. -/
inductive Reaches (capacity : Nat) : List (Outcome α) → List α → Prop where
  | start : Reaches capacity [] []
  | step {outcomes : List (Outcome α)} {outcome : Outcome α} {queue next : List α}
      (before : Reaches capacity outcomes queue)
      (allowed : Step capacity queue outcome next) :
      Reaches capacity (outcomes ++ [outcome]) next

variable {capacity : Nat} {outcomes : List (Outcome α)} {queue : List α}

/-- What went in is what came out followed by what is still there. -/
theorem Reaches.accounts (reached : Reaches capacity outcomes queue) :
    accepted outcomes = popped outcomes ++ queue := by
  induction reached with
  | start => rfl
  | step before allowed ih =>
      simp only [accepted, popped] at ih ⊢
      cases allowed <;> simp [ih]

/-- Try to put a value in. -/
def push (capacity : Nat) (queue : List α) (value : α) : List α × Outcome α :=
  if queue.length < capacity then (queue ++ [value], .accepted value)
  else (queue, .rejected value)

/-- Try to take a value out. -/
def pop : List α → List α × Outcome α
  | [] => ([], .empty)
  | front :: rest => (rest, .popped front)

theorem Step.bounded {outcome : Outcome α} {next : List α}
    (allowed : Step capacity queue outcome next) (bounded : queue.length ≤ capacity) :
    next.length ≤ capacity := by
  cases allowed with
  | accept value room =>
      rw [List.length_append]
      exact room
  | reject value full => exact bounded
  | pop front rest => exact Nat.le_of_succ_le bounded
  | refuse => exact bounded

theorem Reaches.bounded (reached : Reaches capacity outcomes queue) :
    queue.length ≤ capacity := by
  induction reached with
  | start => exact Nat.zero_le _
  | step before allowed ih => exact allowed.bounded ih

/-- `push` does what the queue allows. -/
theorem Reaches.push (reached : Reaches capacity outcomes queue) (value : α) :
    Reaches capacity (outcomes ++ [(Fifo.push capacity queue value).2])
      (Fifo.push capacity queue value).1 := by
  apply reached.step
  unfold Fifo.push
  split
  next room => exact .accept value room
  next full => exact .reject value (Nat.le_antisymm reached.bounded (Nat.le_of_not_lt full))

/-- `pop` does what the queue allows. -/
theorem Reaches.pop (reached : Reaches capacity outcomes queue) :
    Reaches capacity (outcomes ++ [(Fifo.pop queue).2]) (Fifo.pop queue).1 := by
  apply reached.step
  cases queue with
  | nil => exact .refuse
  | cons front rest => exact .pop front rest

theorem mem_accepted {value : α} : value ∈ accepted outcomes ↔ .accepted value ∈ outcomes := by
  apply mem_filterMap_of_inverse
  intro outcome
  cases outcome <;> simp

theorem mem_popped {value : α} : value ∈ popped outcomes ↔ .popped value ∈ outcomes := by
  apply mem_filterMap_of_inverse
  intro outcome
  cases outcome <;> simp

@[simp] theorem accepted_append (outcomes more : List (Outcome α)) :
    accepted (outcomes ++ more) = accepted outcomes ++ accepted more :=
  List.filterMap_append

@[simp] theorem popped_append (outcomes more : List (Outcome α)) :
    popped (outcomes ++ more) = popped outcomes ++ popped more :=
  List.filterMap_append

@[simp] theorem popped_push (capacity : Nat) (queue : List α) (value : α) :
    popped [(push capacity queue value).2] = [] := by
  unfold push
  split <;> rfl

@[simp] theorem accepted_pop (queue : List α) : accepted [(pop queue).2] = [] := by
  cases queue <;> rfl

end Fifo

end Bourse
