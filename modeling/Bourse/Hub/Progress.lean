import Bourse.Hub.Shutdown

/-!
# When the hub's calls come back

`Hub::stop` sets the flag and joins the matcher thread, which looks at the flag only after a pass
that found the inbox empty.  `Hub::register` and `Submitter::submit` try their push until the inbox
has room for it, which only the matcher thread makes.
-/

namespace Bourse

namespace Hub

/-- The steps of the matcher thread until it loads the flag, if nothing is pushed. -/
def Pc.rank : Pc → Nat
  | .pop true => 3
  | .pop false => 2
  | .loadStop => 1
  | .returned _ => 0

def Pc.done : Pc → Prop
  | .returned _ => True
  | .pop _ | .loadStop => False

/-- What the thread still has to do when it is to stop: a message costs a step, and one more if it
is found in a pass of its own. -/
def System.potential (system : System) : Nat := 2 * system.inbox.length + system.pc.rank

/-- A push that succeeded. -/
def Mark.accepts : Mark → Bool
  | .inbox (.accepted _) => true
  | _ => false

/-- The inbox is full, and the thread does not look into it again. -/
structure System.Stuck (capacity : Nat) (system : System) : Prop where
  full : system.inbox.length = capacity
  leaving : system.pc.leaving = true
  flag : system.stopFlag = true

variable {capacity : Nat} {system : System} {after : System × List Mark}

/-! ## Stopping -/

/-- A push costs two steps of the thread. -/
theorem System.Pushes.potential_le (pushes : system.Pushes capacity after) :
    after.1.potential ≤ system.potential + 2 * after.2.countP Mark.accepts := by
  cases pushes with
  | none inbox flag hub pc => simp [System.potential, inbox, pc]
  | @one next msg outcome pushed flag hub pc =>
      unfold Fifo.push at pushed
      split at pushed
      next room =>
        rcases Prod.mk.inj pushed with ⟨inbox, accepted⟩
        simp only [System.potential, ← inbox, ← accepted, pc, List.length_append,
          List.length_singleton, List.countP_singleton, Mark.accepts, if_true]
        omega
      next full =>
        rcases Prod.mk.inj pushed with ⟨inbox, rejected⟩
        simp [System.potential, ← inbox, pc]

/-- A step of the thread before it returns, with the flag set. -/
theorem System.matcherStep_potential (flag : system.stopFlag = true) (busy : ¬ system.pc.done) :
    1 + system.matcherStep.1.potential ≤ system.potential := by
  unfold System.matcherStep System.potential
  cases pc : system.pc with
  | pop didWork =>
      cases inbox : system.inbox with
      | nil => cases didWork <;> simp [Fifo.pop, Pc.rank]
      | cons msg rest =>
          simp only [Fifo.pop, List.length_cons]
          cases didWork <;> simp only [Pc.rank] <;> omega
  | loadStop =>
      simp only [flag, if_true, Pc.rank]
      omega
  | returned matcher => exact absurd (by rw [pc]; trivial) busy

theorem System.step_done (move : Move) (done : system.pc.done) :
    (system.step capacity move).1.pc.done := by
  rcases system.step_cases capacity move with rfl | rfl | pushes
  · exact done
  · cases pc : system.pc with
    | pop didWork => exact absurd done (by rw [pc]; exact id)
    | loadStop => exact absurd done (by rw [pc]; exact id)
    | returned matcher =>
        simp only [step, matcherStep, pc]
        trivial
  · rw [pushes.pc_eq]
    exact done

theorem System.step_flag (move : Move) (flag : system.stopFlag = true) :
    (system.step capacity move).1.stopFlag = true := by
  rcases system.step_cases capacity move with rfl | rfl | pushes
  · rfl
  · simp only [step, matcherStep]
    split <;> try split
    all_goals exact flag
  · rw [pushes.flag_eq]
    exact flag

/-- One move once the flag is set, unless the thread has returned after it. -/
theorem System.step_potential (move : Move) (flag : system.stopFlag = true)
    (busy : ¬ (system.step capacity move).1.pc.done) :
    (decide (move = .matcher)).toNat + (system.step capacity move).1.potential ≤
      system.potential + 2 * (system.step capacity move).2.countP Mark.accepts := by
  have before : ¬ system.pc.done := fun done => busy (system.step_done move done)
  rcases system.step_cases capacity move with rfl | rfl | pushes
  · simp [step, potential]
  · have less := system.matcherStep_potential flag before
    simp only [step, decide_true, Bool.toNat_true]
    omega
  · have cost := pushes.potential_le
    cases move with
    | matcher =>
        have less := system.matcherStep_potential flag before
        simp only [step, decide_true, Bool.toNat_true]
        omega
    | _ => simpa using cost

theorem run_stop_flag (inboxCapacity : Nat) {moves : List Move} (stopped : .stop ∈ moves) :
    ((machine inboxCapacity).run moves).1.stopFlag = true := by
  rcases List.append_of_mem stopped with ⟨earlier, later, rfl⟩
  rw [List.append_cons, Machine.run_append]
  apply (machine inboxCapacity).runFrom_invariant fun system _ => system.stopFlag = true
  · rw [Machine.run_append]
    rfl
  · exact fun _ _ move => System.step_flag move

/-- `Hub::stop` comes back if nobody keeps pushing: once the flag is set, the thread has returned
after twice as many steps as there are messages in the inbox and pushes that still succeed, and
three more. -/
theorem run_stop_returns (inboxCapacity : Nat) {earlier later : List Move}
    (stopped : .stop ∈ earlier) :
    let system := ((machine inboxCapacity).run earlier).1
    let after := (machine inboxCapacity).runFrom (system, []) later
    2 * (system.inbox.length + after.2.countP Mark.accepts) + 3 ≤ later.count .matcher →
      ∃ matcher, after.1.pc = .returned matcher := by
  intro system after enough
  have flag : system.stopFlag = true := run_stop_flag inboxCapacity stopped
  have start : system.pc.rank ≤ 3 := by
    cases system.pc with
    | pop didWork => cases didWork <;> decide
    | loadStop => decide
    | returned matcher => exact Nat.zero_le 3
  by_contra never
  have busy : ¬ after.1.pc.done := by
    intro done
    cases pc : after.1.pc with
    | returned matcher => exact never ⟨matcher, pc⟩
    | pop didWork => exact (pc ▸ done : (Pc.pop didWork).done)
    | loadStop => exact (pc ▸ done : Pc.loadStop.done)
  have final : 1 ≤ after.1.pc.rank := by
    cases pc : after.1.pc with
    | returned matcher => exact absurd ⟨matcher, pc⟩ never
    | pop didWork => cases didWork <;> decide
    | loadStop => decide
  have bound : later.count .matcher + after.1.potential ≤
      system.potential + 2 * after.2.countP Mark.accepts :=
    (machine inboxCapacity).work_le System.potential (fun move => decide (move = .matcher))
      Mark.accepts 2 (fun system => system.stopFlag = true) (fun system => system.pc.done)
      (fun _ move => System.step_flag move) (fun _ move => System.step_done move)
      (fun _ move => System.step_potential move) flag later busy
  unfold System.potential at bound
  omega

/-- One message in the inbox when the flag is set, and one pushed while the thread handles it. -/
theorem run_stop_returns_push :
    let earlier : List Move := [.register, .push 0, .stop]
    let later : List Move := [.register, .matcher, .push 0, .matcher, .matcher, .matcher,
      .matcher, .matcher, .matcher]
    let system := ((machine 8).run earlier).1
    system.inbox.length = 1 ∧
      ∃ matcher, ((machine 8).runFrom (system, []) later).1.pc = .returned matcher :=
  ⟨by decide +kernel, run_stop_returns 8 (by decide) (by decide +kernel)⟩

/-- The thread has a message to pop, or a submitter that is alive gives it one. -/
theorem System.feed (inboxCapacity : Nat) (system : System) {conn : ConnId} (command : Command)
    (alive : conn ∈ system.submitters) {didWork : Bool} (looking : system.pc = .pop didWork) :
    ∃ moves : List Move, moves.count .matcher = 1 ∧
      (∀ move ∈ moves, move = .matcher ∨ move = .submit conn command ∨
        ∃ call, move = .push call) ∧
      let after := ((machine inboxCapacity).runFrom (system, []) moves).1
      conn ∈ after.submitters ∧ after.pc = .pop true := by
  cases inbox : system.inbox with
  | cons msg rest =>
      refine ⟨[.matcher], rfl, by simp, ?_⟩
      simp [Machine.runFrom, machine, step, matcherStep, looking, inbox, Fifo.pop, alive]
  | nil =>
      refine ⟨[.submit conn command, .push system.calls.length, .matcher], rfl, by simp, ?_⟩
      simp [Machine.runFrom, machine, step, push, matcherStep, looking, inbox, Fifo.push, Fifo.pop,
        alive, returnedBy]

/-- `Hub::stop` may wait forever while one submitter is alive: whatever the number of steps, the
submitter's commands can keep the thread from its look at the flag. -/
theorem run_stop_starves (inboxCapacity : Nat) (earlier : List Move) {conn : ConnId}
    (command : Command) (count : Nat) :
    let system := ((machine inboxCapacity).run earlier).1
    conn ∈ system.submitters → (∃ didWork, system.pc = .pop didWork) →
      ∃ later : List Move, later.count .matcher = count ∧
        (∀ move ∈ later, move = .matcher ∨ move = .submit conn command ∨
          ∃ call, move = .push call) ∧
        let after := ((machine inboxCapacity).run (earlier ++ later)).1
        conn ∈ after.submitters ∧ ∃ didWork, after.pc = .pop didWork := by
  intro system alive looking
  induction count with
  | zero =>
      refine ⟨[], rfl, by simp, ?_⟩
      rw [List.append_nil]
      exact ⟨alive, looking⟩
  | succ count ih =>
      rcases ih with ⟨later, counted, moves, alive, didWork, looking⟩
      rcases System.feed inboxCapacity _ command alive looking with
        ⟨more, once, fed, kept, popping⟩
      refine ⟨later ++ more, ?_, ?_, ?_⟩
      · rw [List.count_append, counted, once]
      · intro move member
        exact (List.mem_append.mp member).elim (moves move) (fed move)
      · rw [← List.append_assoc, Machine.run_append, Machine.runFrom_state]
        exact ⟨kept, true, popping⟩

/-- One connection keeps a hub that is to stop busy for a thousand steps. -/
theorem run_stop_starves_thousand :
    let command : Command := .cancel (.new 7)
    let earlier : List Move := [.register, .push 0, .matcher, .stop]
    ∃ later : List Move, later.count .matcher = 1000 ∧
      (∀ move ∈ later, move = .matcher ∨ move = .submit ⟨1⟩ command ∨
        ∃ call, move = .push call) ∧
      let after := ((machine 8).run (earlier ++ later)).1
      ⟨1⟩ ∈ after.submitters ∧ ∃ didWork, after.pc = .pop didWork := by
  intro command earlier
  exact run_stop_starves 8 earlier command 1000 (by decide +kernel) ⟨true, rfl⟩

/-! ## Pushing -/

/-- An attempt that finds room. -/
theorem System.push_accepted {call : Nat} {msg : Msg} (pending : system.calls[call]? = some msg)
    (room : system.inbox.length < capacity) :
    (system.push capacity call).2 = [.inbox (.accepted msg)] := by
  simp [push, pending, Fifo.push, room]

theorem System.Pushes.full (pushes : system.Pushes capacity after)
    (full : system.inbox.length = capacity) :
    after.1.inbox = system.inbox ∧ after.2.countP Mark.accepts = 0 := by
  cases pushes with
  | none inbox => exact ⟨inbox, rfl⟩
  | one pushed =>
      rw [Fifo.push, if_neg (by omega)] at pushed
      rcases Prod.mk.inj pushed with ⟨inbox, rejected⟩
      rw [← rejected]
      exact ⟨inbox.symm, rfl⟩

/-- Nothing changes any more, and no push succeeds. -/
theorem System.Stuck.step (stuck : system.Stuck capacity) (move : Move) :
    (system.step capacity move).1.Stuck capacity ∧
      (system.step capacity move).2.countP Mark.accepts = 0 := by
  rcases stuck with ⟨full, leaving, flag⟩
  rcases system.step_cases capacity move with rfl | rfl | pushes
  · exact ⟨⟨full, leaving, rfl⟩, rfl⟩
  · simp only [System.step, matcherStep]
    cases pc : system.pc with
    | pop didWork => simp [pc, Pc.leaving] at leaving
    | loadStop => exact ⟨⟨full, by simp [flag, Pc.leaving], flag⟩, rfl⟩
    | returned matcher => exact ⟨⟨full, leaving, flag⟩, rfl⟩
  · have same := pushes.full full
    refine ⟨⟨?_, ?_, ?_⟩, same.2⟩
    · rw [same.1]
      exact full
    · rw [pushes.pc_eq]
      exact leaving
    · rw [pushes.flag_eq]
      exact flag

/-- Unless all is over, the thread makes room within two steps. -/
theorem System.room {inboxCapacity : Nat} {trace : List Mark}
    (accounts : Accounts (max inboxCapacity 8) system trace)
    (free : ¬ system.Stuck (max inboxCapacity 8)) :
    ∃ count ≤ 2,
      let after := ((machine inboxCapacity).runFrom (system, []) (.replicate count .matcher)).1
      after.calls = system.calls ∧ after.inbox.length < max inboxCapacity 8 := by
  have bounded := accounts.inbox.bounded
  cases inbox : system.inbox with
  | nil => exact ⟨0, Nat.zero_le 2, rfl, by simp [Machine.runFrom, inbox]⟩
  | cons msg rest =>
      rw [inbox, List.length_cons] at bounded
      cases pc : system.pc with
      | pop didWork =>
          have after : ((machine inboxCapacity).runFrom (system, []) [.matcher]).1 =
              { system with inbox := rest, hub := (system.hub.handle msg).1, pc := .pop true } := by
            simp [Machine.runFrom, machine, System.step, matcherStep, pc, inbox, Fifo.pop]
          refine ⟨1, by decide, ?_⟩
          rw [List.replicate_one, after]
          exact ⟨rfl, bounded⟩
      | loadStop =>
          cases flag : system.stopFlag with
          | false =>
              have after : ((machine inboxCapacity).runFrom (system, []) [.matcher, .matcher]).1 =
                  { system with inbox := rest, hub := (system.hub.handle msg).1,
                                pc := .pop true } := by
                simp [Machine.runFrom, machine, System.step, matcherStep, pc, flag, inbox, Fifo.pop]
              refine ⟨2, Nat.le_refl 2, ?_⟩
              rw [List.replicate_succ, List.replicate_one, after]
              exact ⟨rfl, bounded⟩
          | true =>
              refine ⟨0, Nat.zero_le 2, rfl, lt_of_le_of_ne accounts.inbox.bounded ?_⟩
              exact fun full => free ⟨full, by rw [pc]; rfl, flag⟩
      | returned matcher =>
          refine ⟨0, Nat.zero_le 2, rfl, lt_of_le_of_ne accounts.inbox.bounded ?_⟩
          exact fun full => free ⟨full, by rw [pc]; rfl, (accounts.returned matcher pc).2⟩

/-- A call of `register` or `submit` in progress can return after two steps of the matcher
thread at most, in every state but one: once the inbox is full and the thread has found it empty
before and is to leave, no call returns in any run. -/
theorem run_push_stuck (inboxCapacity : Nat) (moves : List Move) {call : Nat} {msg : Msg} :
    let system := ((machine inboxCapacity).run moves).1
    let runs (later : List Move) := (machine inboxCapacity).runFrom (system, []) later
    system.calls[call]? = some msg →
      (¬ system.Stuck (max inboxCapacity 8) → ∃ count ≤ 2,
        .inbox (.accepted msg) ∈ (runs (.replicate count .matcher ++ [.push call])).2) ∧
      (system.Stuck (max inboxCapacity 8) → ∀ later, (runs later).2.countP Mark.accepts = 0) := by
  intro system runs pending
  constructor
  · intro free
    rcases System.room (run_accounts inboxCapacity moves) free with ⟨count, few, calls, room⟩
    refine ⟨count, few, ?_⟩
    have split : runs (.replicate count .matcher ++ [.push call]) =
        (machine inboxCapacity).runFrom (runs (.replicate count .matcher)) [.push call] :=
      List.foldl_append
    have accepted := System.push_accepted (calls ▸ pending) room
    rw [split]
    refine List.mem_append_right _ ?_
    change _ ∈ (System.push _ _ call).2
    rw [accepted]
    exact List.mem_singleton_self _
  · intro stuck later
    have holds : (runs later).1.Stuck (max inboxCapacity 8) ∧
        (runs later).2.countP Mark.accepts = 0 := by
      apply (machine inboxCapacity).runFrom_invariant fun system trace =>
        system.Stuck (max inboxCapacity 8) ∧ trace.countP Mark.accepts = 0
      · exact ⟨stuck, rfl⟩
      · intro system trace move both
        rcases both with ⟨stuck, none⟩
        rcases stuck.step move with ⟨next, more⟩
        refine ⟨next, ?_⟩
        rw [List.countP_append, none]
        exact (Nat.zero_add _).trans more
    exact holds.2

/-- The flag is set when the thread is about to load it, and eight calls fill the inbox: the
ninth never returns. -/
theorem run_push_stuck_ninth :
    let moves : List Move := [.matcher, .stop] ++ .replicate 9 .register ++
      .replicate 8 (.push 0)
    let system := ((machine 8).run moves).1
    system.calls = [.connect ⟨9⟩] ∧
      ∀ later, ((machine 8).runFrom (system, []) later).2.countP Mark.accepts = 0 := by
  intro moves system
  have pending : system.calls = [.connect ⟨9⟩] := by decide +kernel
  have first : system.calls[0]? = some (.connect ⟨9⟩) := by rw [pending]; rfl
  have stuck : system.Stuck 8 := ⟨by decide +kernel, by decide +kernel, by decide +kernel⟩
  exact ⟨pending, (run_push_stuck 8 moves first).2 stuck⟩

end Hub

end Bourse
