import Mathlib.Data.List.Basic

/-!
# Properties that hold throughout a sequence of actions

A sequence of actions that may be interrupted after any of them: what holds in every state
on the way, and how such facts are put together along the sequence.
-/

namespace Bourse

universe u v

variable {σ : Type u} {α : Type v}

/-- The property holds before the first action and after every one. -/
def Throughout (step : σ → α → σ) (property : σ → Prop) : σ → List α → Prop
  | state, [] => property state
  | state, action :: actions =>
      property state ∧ Throughout step property (step state action) actions

namespace Throughout

variable {step : σ → α → σ} {property : σ → Prop} {state : σ} {actions more : List α}

/-- The property holds wherever the sequence is interrupted. -/
theorem interrupted (holds : Throughout step property state actions) (count : Nat) :
    property ((actions.take count).foldl step state) := by
  induction actions generalizing state count with
  | nil =>
      rw [List.take_nil]
      exact holds
  | cons action actions ih =>
      cases count with
      | zero => exact holds.1
      | succ count => exact ih holds.2 count

theorem append (holds : Throughout step property state actions)
    (later : Throughout step property (actions.foldl step state) more) :
    Throughout step property state (actions ++ more) := by
  induction actions generalizing state with
  | nil => exact later
  | cons action actions ih => exact ⟨holds.1, ih holds.2 later⟩

end Throughout

end Bourse
