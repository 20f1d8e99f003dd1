import Mathlib.Data.Option.Basic

/-!
# Loops with a variant

A `while` loop is a body that either breaks (`none`) or continues from a new
state, together with a natural-number variant that every continued iteration
lowers.  The variant is a field, so a loop that might not terminate cannot be
built, and running a loop is a structural recursion that evaluates.
-/

namespace Bourse

universe u v

/-- A loop over states `σ`. -/
structure Loop (σ : Type u) where
  body : σ → Option σ
  variant : σ → Nat
  decreases : ∀ {state next}, body state = some next → variant next < variant state

namespace Loop

variable {σ : Type u} {τ : Type v}

/-- At most `fuel` iterations of a body. -/
def iterate (body : σ → Option σ) : Nat → σ → σ
  | 0, state => state
  | fuel + 1, state =>
      match body state with
      | none => state
      | some next => iterate body fuel next

/-- Run the loop until its body breaks. -/
def run (loop : Loop σ) (state : σ) : σ :=
  iterate loop.body (loop.variant state) state

variable (loop : Loop σ) {state next : σ}

/-- Once the fuel covers the variant, more fuel changes nothing. -/
theorem iterate_eq_run {fuel : Nat} (enough : loop.variant state ≤ fuel) :
    iterate loop.body fuel state = loop.run state := by
  generalize measure : loop.variant state = bound at enough
  induction bound using Nat.strongRecOn generalizing state fuel with
  | ind bound ih =>
      subst measure
      unfold run
      cases step : loop.body state with
      | none => cases fuel <;> cases loop.variant state <;> simp [iterate, step]
      | some next =>
          have less := loop.decreases step
          rcases Nat.exists_eq_succ_of_ne_zero
            (show fuel ≠ 0 by omega) with ⟨fuel, rfl⟩
          rcases Nat.exists_eq_succ_of_ne_zero
            (show loop.variant state ≠ 0 by omega) with ⟨bound, boundEq⟩
          rw [boundEq]
          simp only [iterate, step]
          rw [ih _ less rfl (show loop.variant next ≤ fuel by omega),
            ih _ less rfl (show loop.variant next ≤ bound by omega)]

theorem run_of_break (stop : loop.body state = none) : loop.run state = state := by
  unfold run
  cases loop.variant state <;> simp [iterate, stop]

theorem run_of_continue (step : loop.body state = some next) :
    loop.run state = loop.run next := by
  have less := loop.decreases step
  rw [← loop.iterate_eq_run (show loop.variant state ≤ loop.variant state + 1 from
    Nat.le_succ _)]
  simp only [iterate, step]
  exact loop.iterate_eq_run (Nat.le_of_lt less)

/-- Reason about a run from its last iteration backwards. -/
theorem induction {motive : σ → Prop}
    (break_case : ∀ state, loop.body state = none → motive state)
    (continue_case : ∀ state next, loop.body state = some next →
      motive next → motive state) (state : σ) : motive state := by
  generalize measure : loop.variant state = bound
  induction bound using Nat.strongRecOn generalizing state with
  | ind bound ih =>
      subst measure
      cases step : loop.body state with
      | none => exact break_case state step
      | some next =>
          exact continue_case state next step
            (ih _ (loop.decreases step) next rfl)

/-- A run ends where the body breaks. -/
theorem body_run (state : σ) : loop.body (loop.run state) = none := by
  induction state using loop.induction with
  | break_case state stop => rw [loop.run_of_break stop, stop]
  | continue_case state next step ih => rw [loop.run_of_continue step, ih]

/-- What every iteration preserves holds at the end of the run. -/
theorem run_invariant (invariant : σ → Prop)
    (preserved : ∀ state next, loop.body state = some next →
      invariant state → invariant next) :
    ∀ state, invariant state → invariant (loop.run state) := by
  intro state
  induction state using loop.induction with
  | break_case state stop => rw [loop.run_of_break stop]; exact id
  | continue_case state next step ih =>
      intro holds
      rw [loop.run_of_continue step]
      exact ih (preserved state next step holds)

/-- A loop that takes every iteration of another one continues where that one ends. -/
theorem run_extends (left right : Loop σ)
    (bodies : ∀ state next, left.body state = some next → right.body state = some next) :
    ∀ state, right.run state = right.run (left.run state) := by
  intro state
  induction state using left.induction with
  | break_case state stop => rw [left.run_of_break stop]
  | continue_case state next step ih =>
      rw [left.run_of_continue step, right.run_of_continue (bodies state next step), ih]

/-- Two loops whose bodies break together and otherwise keep a relation end in
related states. -/
theorem run_simulation (left : Loop σ) (right : Loop τ) (related : σ → τ → Prop)
    (bodies : ∀ state state', related state state' →
      Option.Rel related (left.body state) (right.body state')) :
    ∀ state state', related state state' →
      related (left.run state) (right.run state') := by
  intro state
  induction state using left.induction with
  | break_case state stop =>
      intro state' start
      have stop' : right.body state' = none := by
        have matched := bodies state state' start
        rw [stop] at matched
        cases body : right.body state' with
        | none => rfl
        | some next' => rw [body] at matched; cases matched
      rw [left.run_of_break stop, right.run_of_break stop']
      exact start
  | continue_case state next step ih =>
      intro state' start
      have matched := bodies state state' start
      rw [step] at matched
      cases body : right.body state' with
      | none => rw [body] at matched; cases matched
      | some next' =>
          rw [body] at matched
          cases matched with
          | some matched =>
              rw [left.run_of_continue step, right.run_of_continue body]
              exact ih next' matched

end Loop

end Bourse
