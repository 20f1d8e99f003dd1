import Mathlib.Data.List.Induction

/-!
# Machines whose moves leave marks

A system of several parties is a state, a move of one of the parties at a time, and
the marks that the moves leave behind.  A schedule is a list of moves, so the runs
over all schedules are the interleavings of the parties.
-/

namespace Bourse

universe u v w

/-- States `σ`, moves `μ` and marks `ε`. -/
structure Machine (σ : Type u) (μ : Type v) (ε : Type w) where
  initial : σ
  step : σ → μ → σ × List ε

namespace Machine

variable {σ : Type u} {μ : Type v} {ε : Type w}

/-- Continue a run by a schedule. -/
def runFrom (machine : Machine σ μ ε) (start : σ × List ε) (moves : List μ) : σ × List ε :=
  moves.foldl (fun state move =>
    ((machine.step state.1 move).1, state.2 ++ (machine.step state.1 move).2)) start

/-- The state after a schedule and the marks left on the way. -/
def run (machine : Machine σ μ ε) (moves : List μ) : σ × List ε :=
  machine.runFrom (machine.initial, []) moves

variable (machine : Machine σ μ ε)

/-- What a run preserves if one move does, from any state on. -/
theorem runFrom_invariant (invariant : σ → List ε → Prop) {start : σ × List ε}
    (initially : invariant start.1 start.2)
    (preserved : ∀ state trace move, invariant state trace →
      invariant (machine.step state move).1 (trace ++ (machine.step state move).2))
    (moves : List μ) :
    invariant (machine.runFrom start moves).1 (machine.runFrom start moves).2 := by
  induction moves generalizing start with
  | nil => exact initially
  | cons move moves ih => exact ih (preserved start.1 start.2 move initially)

/-- What a run from the initial state preserves if one move does. -/
theorem run_invariant (invariant : σ → List ε → Prop)
    (initially : invariant machine.initial [])
    (preserved : ∀ state trace move, invariant state trace →
      invariant (machine.step state move).1 (trace ++ (machine.step state move).2))
    (moves : List μ) :
    invariant (machine.run moves).1 (machine.run moves).2 :=
  machine.runFrom_invariant invariant initially preserved moves

/-- Marks stay. -/
theorem prefix_runFrom (start : σ × List ε) (moves : List μ) :
    start.2 <+: (machine.runFrom start moves).2 := by
  apply machine.runFrom_invariant fun _ trace => start.2 <+: trace
  · exact List.prefix_refl _
  · intro state trace move within
    exact within.trans (List.prefix_append _ _)

theorem run_append (moves more : List μ) :
    machine.run (moves ++ more) = machine.runFrom (machine.run moves) more :=
  List.foldl_append

/-- The marks left before do not matter to the state. -/
theorem runFrom_state (start : σ × List ε) (moves : List μ) :
    (machine.runFrom start moves).1 = (machine.runFrom (start.1, []) moves).1 := by
  induction moves using List.reverseRecOn with
  | nil => rfl
  | append_singleton moves move ih =>
      simp only [runFrom, List.foldl_append, List.foldl_cons, List.foldl_nil] at ih ⊢
      rw [ih]

/-- A mark was left by some move of the schedule. -/
theorem mem_run {mark : ε} (moves : List μ) :
    mark ∈ (machine.run moves).2 ↔ ∃ earlier move later, moves = earlier ++ move :: later ∧
      mark ∈ (machine.step (machine.run earlier).1 move).2 := by
  induction moves using List.reverseRecOn with
  | nil => simp [run, runFrom]
  | append_singleton moves last ih =>
      rw [run_append]
      refine Iff.trans List.mem_append ?_
      constructor
      · intro marked
        rcases marked with before | now
        · rcases ih.mp before with ⟨earlier, move, later, rfl, marked⟩
          exact ⟨earlier, move, later ++ [last], by simp, marked⟩
        · exact ⟨moves, last, [], rfl, now⟩
      · intro split
        rcases split with ⟨earlier, move, later, whole, marked⟩
        rcases List.eq_nil_or_concat later with rfl | ⟨rest, final, rfl⟩
        · rcases List.append_inj' whole rfl with ⟨rfl, same⟩
          cases same
          exact Or.inr marked
        · rw [List.concat_eq_append, ← List.cons_append, ← List.append_assoc] at whole
          rcases List.append_inj' whole rfl with ⟨rfl, -⟩
          exact Or.inl (ih.mpr ⟨earlier, move, rest, rfl, marked⟩)

/-- A mark that exactly one kind of move leaves tells whether that move was made. -/
theorem mem_run_iff {mark : ε} {made : μ}
    (leaves : ∀ state move, mark ∈ (machine.step state move).2 ↔ move = made)
    (moves : List μ) : mark ∈ (machine.run moves).2 ↔ made ∈ moves := by
  induction moves using List.reverseRecOn with
  | nil => simp [run, runFrom]
  | append_singleton moves move ih =>
      rw [run_append, List.mem_append, List.mem_singleton, ← ih, eq_comm,
        ← leaves (machine.run moves).1 move]
      exact List.mem_append

/-- A potential bounds the work of a run that does not get done: every move that is work lowers
it by one, and only a mark that is paid for raises it. -/
theorem work_le (potential : σ → Nat) (works : μ → Bool) (paid : ε → Bool) (price : Nat)
    (invariant done : σ → Prop)
    (preserved : ∀ state move, invariant state → invariant (machine.step state move).1)
    (stable : ∀ state move, done state → done (machine.step state move).1)
    (charged : ∀ state move, invariant state → ¬ done (machine.step state move).1 →
      (works move).toNat + potential (machine.step state move).1 ≤
        potential state + price * (machine.step state move).2.countP paid)
    {state : σ} (holds : invariant state) (moves : List μ)
    (busy : ¬ done (machine.runFrom (state, []) moves).1) :
    moves.countP works + potential (machine.runFrom (state, []) moves).1 ≤
      potential state + price * (machine.runFrom (state, []) moves).2.countP paid := by
  induction moves using List.reverseRecOn with
  | nil => simp [runFrom]
  | append_singleton moves move ih =>
      let middle := machine.runFrom (state, []) moves
      have last : machine.runFrom (state, []) (moves ++ [move]) =
          ((machine.step middle.1 move).1, middle.2 ++ (machine.step middle.1 move).2) := by
        rw [runFrom, List.foldl_append]
        rfl
      rw [last] at busy ⊢
      have reached : invariant middle.1 := by
        apply machine.runFrom_invariant fun state _ => invariant state
        · exact holds
        · exact fun state _ move => preserved state move
      have before : moves.countP works + potential middle.1 ≤
          potential state + price * middle.2.countP paid :=
        ih fun finished => busy (stable _ move finished)
      have step := charged middle.1 move reached busy
      have count : [move].countP works = (works move).toNat := by
        cases worked : works move <;> simp [worked]
      simp only [List.countP_append, count, Nat.mul_add]
      omega

section Before

variable [DecidableEq ε]

/-- The part of a trace before a mark was first left. -/
def before (mark : ε) (trace : List ε) : List ε :=
  trace.takeWhile fun other => other ≠ mark

theorem before_prefix (mark : ε) (trace : List ε) : before mark trace <+: trace :=
  List.takeWhile_prefix _

/-- Once the mark was left, nothing that follows was before it. -/
theorem before_append {mark : ε} {trace : List ε} (left : mark ∈ trace) (more : List ε) :
    before mark (trace ++ more) = before mark trace := by
  induction trace with
  | nil => cases left
  | cons other trace ih =>
      simp only [before, List.cons_append, List.takeWhile_cons] at ih ⊢
      split
      next differs =>
        rcases List.mem_cons.mp left with same | later
        · simp [same] at differs
        · rw [ih later]
      next => rfl

theorem before_of_not_mem {mark : ε} {trace : List ε} (never : mark ∉ trace) (more : List ε) :
    before mark (trace ++ mark :: more) = trace := by
  induction trace with
  | nil => simp [before]
  | cons other trace ih =>
      have differs : other ≠ mark := fun same => never (same ▸ List.mem_cons_self)
      have rest := ih fun later => never (List.mem_cons_of_mem other later)
      simp only [before, List.cons_append, List.takeWhile_cons] at rest ⊢
      rw [if_pos (decide_eq_true differs), rest]

end Before

end Machine

end Bourse
