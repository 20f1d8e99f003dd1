import Mathlib.Data.List.Basic

/-!
# Postconditions of fallible computations

What a computation in `Except` ensures: a property of its value if it succeeds, and a
fact that must hold if it fails.  The rules follow the shape of the computation.
-/

namespace Bourse

/-- Sequencing after a success. -/
@[simp] theorem ok_bind {ε α β : Type} (value : α) (next : α → Except ε β) :
    (Except.ok value >>= next) = next value := rfl

/-- A sequence succeeds when both of its parts do. -/
theorem bind_eq_ok {ε α β : Type} {result : Except ε α} {next : α → Except ε β} {value : β} :
    result >>= next = .ok value ↔ ∃ first, result = .ok first ∧ next first = .ok value := by
  cases result with
  | ok first =>
      constructor
      · exact fun second => ⟨first, rfl, second⟩
      · intro both
        rcases both with ⟨_, equal, second⟩
        cases equal
        exact second
  | error error =>
      constructor
      · intro impossible
        cases impossible
      · intro both
        rcases both with ⟨_, impossible, -⟩
        cases impossible

/-- A success satisfies `post`; a failure needs `failed`. -/
def Ensures {ε α : Type} (result : Except ε α) (post : α → Prop) (failed : Prop) : Prop :=
  match result with
  | .ok value => post value
  | .error _ => failed

namespace Ensures

variable {ε α β : Type} {post : α → Prop} {failed : Prop}

theorem bind {result : Except ε α} {next : α → Except ε β} {final : β → Prop}
    (first : Ensures result post failed)
    (second : ∀ value, post value → Ensures (next value) final failed) :
    Ensures (result >>= next) final failed := by
  cases result with
  | ok value => exact second value first
  | error error => exact first

theorem mono {result : Except ε α} {weaker : α → Prop} {excuse : Prop}
    (ensured : Ensures result post failed) (weaken : ∀ value, post value → weaker value)
    (relax : failed → excuse) : Ensures result weaker excuse := by
  cases result with
  | ok value => exact weaken value ensured
  | error error => exact relax ensured

/-- A loop keeps an invariant that may speak about the items done so far. -/
theorem foldlM {step : α → β → Except ε α} {items : List β}
    (invariant : List β → α → Prop)
    (preserved : ∀ done item rest state, items = done ++ item :: rest →
      invariant done state → Ensures (step state item) (invariant (done ++ [item])) failed)
    {start : α} (initial : invariant [] start) :
    Ensures (items.foldlM step start) (invariant items) failed := by
  have rest : ∀ (todo done : List β) (state : α), items = done ++ todo →
      invariant done state → Ensures (todo.foldlM step state) (invariant items) failed := by
    intro todo
    induction todo with
    | nil =>
        intro done state split holds
        rw [List.append_nil] at split
        rw [split]
        exact holds
    | cons item todo ih =>
        intro done state split holds
        rw [List.foldlM_cons]
        apply (preserved done item todo state split holds).bind
        intro next kept
        apply ih (done ++ [item]) next _ kept
        rw [split, List.append_assoc, List.singleton_append]
  exact rest items [] start rfl initial

end Ensures

end Bourse
