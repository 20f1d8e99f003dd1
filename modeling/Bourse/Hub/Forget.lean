import Bourse.Hub.Stages

/-!
# Connections that the hub should forget

A connection ends twice: its last `Submitter` is dropped, which tries once to push a
`Disconnect`, and its receiver is dropped, which makes every later `send` to it fail.  The
matcher thread ignores the result of a `send`, so only the `Disconnect` takes the route away.
-/

namespace Bourse

namespace Hub

variable {conn : ConnId} {registered capacity : Nat} {system : System} {stage : Stage}

/-! ## Receivers and sends -/

/-- A hub, the receivers of its connections that are alive, and the connections to which the
matcher thread has yet to send an event of the message in hand, in order. -/
structure Tenants where
  system : System
  receivers : List ConnId
  outgoing : List ConnId

/-- A move of one of the parties, or the drop of a receiver. -/
inductive Turn where
  | hub (move : Move)
  | dropReceiver (conn : ConnId)
  deriving DecidableEq, Repr

/-- What a turn leaves behind. A `send` delivers if the receiver is alive. -/
inductive Note where
  | hub (mark : Mark)
  | receiverDropped (conn : ConnId)
  | dispatched (conn : ConnId) (delivered : Bool)
  deriving DecidableEq, Repr

namespace Tenants

/-- The hub when the matcher thread is spawned. -/
def start : Tenants := ⟨System.start, [], []⟩

/-- The receiver that `register` returns with the submitter. -/
def returnedReceivers : Mark → List ConnId
  | .inbox (.accepted msg) => System.returnedBy msg
  | .inbox (.rejected _) | .inbox (.popped _) | .inbox .empty | .stopped => []

/-- To whom the events of a message that was taken from the inbox go. -/
def targets (hub : Hub) : Mark → List ConnId
  | .inbox (.popped msg) => (hub.handle msg).2.flatMap Sent.targets
  | .inbox (.accepted _) | .inbox (.rejected _) | .inbox .empty | .stopped => []

/-- A move of the hub. -/
def move (capacity : Nat) (tenants : Tenants) (move : Move) : Tenants × List Note :=
  let (system, marks) := tenants.system.step capacity move
  let receivers := tenants.receivers ++ marks.flatMap returnedReceivers
  let outgoing := tenants.outgoing ++ marks.flatMap (targets tenants.system.hub)
  ({ system, receivers, outgoing }, marks.map .hub)

/-- One turn. The matcher thread sends what is due before it looks into the inbox again, and
ignores whether the event was delivered. -/
def step (capacity : Nat) (tenants : Tenants) : Turn → Tenants × List Note
  | .hub .matcher =>
      match tenants.outgoing with
      | [] => tenants.move capacity .matcher
      | target :: outgoing =>
          ({ tenants with outgoing }, [.dispatched target (target ∈ tenants.receivers)])
  | .hub move => tenants.move capacity move
  | .dropReceiver conn =>
      if conn ∈ tenants.receivers then
        let receivers := tenants.receivers.erase conn
        ({ tenants with receivers }, [.receiverDropped conn])
      else (tenants, [])

end Tenants

/-- A hub started with the given capacity of its inbox, and its tenants. -/
def tenancy (inboxCapacity : Nat) : Machine Tenants Turn Note :=
  ⟨Tenants.start, Tenants.step (max inboxCapacity 8)⟩

/-- What the turns left behind in the hub. -/
def marks : List Note → List Mark :=
  List.filterMap fun note =>
    match note with
    | .hub mark => some mark
    | .receiverDropped _ | .dispatched _ _ => none

/-- The last submitter was dropped, whether or not its `Disconnect` found room. -/
def SubmitterDropped (conn : ConnId) (trace : List Note) : Prop :=
  .hub (.inbox (.accepted (.disconnect conn))) ∈ trace ∨
    .hub (.inbox (.rejected (.disconnect conn))) ∈ trace

/-- An event was sent to the connection after both its ends were dropped. -/
def DispatchedAfterDrops (conn : ConnId) (trace : List Note) : Prop :=
  ∃ before delivered after, trace = before ++ .dispatched conn delivered :: after ∧
    SubmitterDropped conn before ∧ .receiverDropped conn ∈ before

/-- The connection has a submitter that is alive and none of whose calls is in progress. -/
def System.Droppable (system : System) (conn : ConnId) : Prop :=
  conn ∈ system.submitters ∧ ¬ system.calls.any (submittedBy conn)

/-- When the last submitter of the connection is dropped the inbox is not full. -/
def DropFindsRoom (inboxCapacity : Nat) (turns : List Turn) (conn : ConnId) : Prop :=
  ∀ earlier later, turns = earlier ++ .hub (.drop conn) :: later →
    ((tenancy inboxCapacity).run earlier).1.system.Droppable conn →
    ((tenancy inboxCapacity).run earlier).1.system.inbox.length < max inboxCapacity 8

@[simp] theorem marks_append (trace more : List Note) :
    marks (trace ++ more) = marks trace ++ marks more :=
  List.filterMap_append

theorem marks_map (hubMarks : List Mark) : marks (hubMarks.map .hub) = hubMarks := by
  simp [marks, List.filterMap_map]

theorem mem_marks {mark : Mark} {trace : List Note} : mark ∈ marks trace ↔ .hub mark ∈ trace := by
  apply Fifo.mem_filterMap_of_inverse
  intro note
  cases note <;> simp

/-- A turn is a move of the hub, or leaves the hub as it is. -/
theorem Tenants.step_cases (capacity : Nat) (tenants : Tenants) (turn : Turn) :
    (∃ move, turn = .hub move ∧ tenants.step capacity turn = tenants.move capacity move) ∨
      ((turn = .hub .matcher ∨ ∃ conn, turn = .dropReceiver conn) ∧
        (tenants.step capacity turn).1.system = tenants.system ∧
        marks (tenants.step capacity turn).2 = []) := by
  cases turn with
  | dropReceiver conn =>
      right
      simp only [step]
      split <;> exact ⟨.inr ⟨conn, rfl⟩, rfl, rfl⟩
  | hub move =>
      cases move with
      | matcher =>
          cases due : tenants.outgoing with
          | nil => exact .inl ⟨.matcher, rfl, by simp [step, due]⟩
          | cons target outgoing =>
              exact .inr ⟨.inl rfl, by simp [step, due], by simp [step, due, marks]⟩
      | register => exact .inl ⟨_, rfl, rfl⟩
      | submit conn command => exact .inl ⟨_, rfl, rfl⟩
      | push call => exact .inl ⟨_, rfl, rfl⟩
      | drop conn => exact .inl ⟨_, rfl, rfl⟩
      | stop => exact .inl ⟨_, rfl, rfl⟩

/-- What the tenants' hub does is a run of the hub. -/
theorem tenancy_run (inboxCapacity : Nat) (turns : List Turn) :
    ∃ moves, (machine inboxCapacity).run moves =
        (((tenancy inboxCapacity).run turns).1.system,
          marks ((tenancy inboxCapacity).run turns).2) ∧
      moves.count .register = turns.count (.hub .register) := by
  induction turns using List.reverseRecOn with
  | nil => exact ⟨[], rfl, rfl⟩
  | append_singleton turns turn ih =>
      rcases ih with ⟨moves, same, counted⟩
      rw [Machine.run_append]
      rcases Tenants.step_cases (max inboxCapacity 8) ((tenancy inboxCapacity).run turns).1 turn
        with ⟨move, rfl, moved⟩ | ⟨other, system, silent⟩
      · refine ⟨moves ++ [move], ?_, ?_⟩
        · rw [Machine.run_append, same]
          simp only [Machine.runFrom, tenancy, machine, List.foldl_cons, List.foldl_nil] at moved ⊢
          rw [moved, marks_append, Tenants.move, marks_map]
        · rw [List.count_append, List.count_append, counted]
          simp [List.count_singleton]
      · refine ⟨moves, ?_, ?_⟩
        · rw [same]
          simp only [Machine.runFrom, tenancy, List.foldl_cons, List.foldl_nil] at system silent ⊢
          rw [system, marks_append, silent, List.append_nil]
        · have none : [turn].count (.hub .register) = 0 := by
            rcases other with rfl | ⟨conn, rfl⟩ <;> rfl
          rw [List.count_append, counted, none]
          rfl

/-- What holds of the hub of a run in which no id is handed out twice. -/
theorem tenancy_lives (inboxCapacity : Nat) {turns : List Turn}
    (few : turns.count (.hub .register) < 2 ^ 64) :
    let reached := (tenancy inboxCapacity).run turns
    Accounts (max inboxCapacity 8) reached.1.system (marks reached.2) ∧
      ∀ conn, ∃ stage, At conn (turns.count (.hub .register)) reached.1.system
        (marks reached.2) stage := by
  rcases tenancy_run inboxCapacity turns with ⟨moves, same, counted⟩
  have accounts := run_accounts inboxCapacity moves
  have lives := run_lives inboxCapacity (counted ▸ few)
  rw [same] at accounts lives
  rw [counted] at lives
  exact ⟨accounts, lives.stages⟩

/-- Only the drop of the last submitter can have its `Disconnect` refused. -/
theorem System.refused_mem_step (plain : .disconnect conn ∉ system.calls) (move : Move) :
    .inbox (.rejected (.disconnect conn)) ∈ (system.step capacity move).2 ↔
      move = .drop conn ∧ system.Droppable conn ∧ ¬ system.inbox.length < capacity := by
  cases move with
  | register => simp [System.step]
  | submit sender command =>
      simp only [System.step]
      split <;> simp
  | push call =>
      simp only [System.step, System.push]
      cases found : system.calls[call]? with
      | none => simp
      | some msg =>
          have other : msg ≠ .disconnect conn := by
            intro same
            exact plain (same ▸ List.mem_of_getElem? found)
          by_cases room : system.inbox.length < capacity
          · simp [Fifo.push, if_pos room]
          · simp [Fifo.push, if_neg room, Ne.symm other]
  | drop dropped =>
      simp only [System.step]
      split
      next ready =>
        by_cases room : system.inbox.length < capacity
        · simp [Fifo.push, room]
        · simp only [Fifo.push, if_neg room, List.mem_singleton, Mark.inbox.injEq,
            Fifo.Outcome.rejected.injEq, Msg.disconnect.injEq, Move.drop.injEq]
          constructor
          · intro same
            exact ⟨same.symm, same ▸ ready, room⟩
          · exact fun drops => drops.1.symm
      next other =>
        refine ⟨fun impossible => (by cases impossible), ?_⟩
        intro drops
        cases drops.1
        exact absurd drops.2.1 other
  | stop => simp [System.step]
  | matcher =>
      simp only [System.step, System.matcherStep]
      cases system.pc with
      | pop didWork => cases system.inbox <;> simp [Fifo.pop]
      | loadStop => simp
      | returned matcher => simp

theorem Tenants.refused_mem_step {tenants : Tenants}
    (plain : .disconnect conn ∉ tenants.system.calls) (turn : Turn) :
    .hub (.inbox (.rejected (.disconnect conn))) ∈ (tenants.step capacity turn).2 ↔
      turn = .hub (.drop conn) ∧ tenants.system.Droppable conn ∧
        ¬ tenants.system.inbox.length < capacity := by
  rw [← mem_marks]
  rcases Tenants.step_cases capacity tenants turn with ⟨move, rfl, moved⟩ | ⟨other, -, silent⟩
  · rw [moved, Tenants.move, marks_map, System.refused_mem_step plain, Turn.hub.injEq]
  · rw [silent]
    rcases other with rfl | ⟨dropped, rfl⟩ <;> simp

/-- The `Disconnect` of a drop is refused if and only if the inbox is full. -/
theorem dropFindsRoom_iff {inboxCapacity : Nat} {turns : List Turn}
    (few : turns.count (.hub .register) < 2 ^ 64) (conn : ConnId) :
    DropFindsRoom inboxCapacity turns conn ↔
      .hub (.inbox (.rejected (.disconnect conn))) ∉ ((tenancy inboxCapacity).run turns).2 := by
  rw [Machine.mem_run]
  have plain : ∀ earlier turn later, turns = earlier ++ turn :: later →
      .disconnect conn ∉ ((tenancy inboxCapacity).run earlier).1.system.calls := by
    intro earlier turn later split
    rw [split, List.count_append] at few
    rcases (tenancy_lives inboxCapacity (Nat.lt_of_le_of_lt (Nat.le_add_right _ _) few)).2 conn
      with ⟨stage, before⟩
    exact before.plain
  constructor
  · intro room refused
    rcases refused with ⟨earlier, turn, later, split, marked⟩
    rcases (Tenants.refused_mem_step (plain earlier turn later split) turn).mp marked with
      ⟨rfl, ready, full⟩
    exact full (room earlier later split ready)
  · intro never earlier later split ready
    by_contra full
    exact never ⟨earlier, _, later, split,
      (Tenants.refused_mem_step (plain earlier _ later split) _).mpr ⟨rfl, ready, full⟩⟩

theorem DispatchedAfterDrops.submitterDropped {trace : List Note}
    (dispatched : DispatchedAfterDrops conn trace) : SubmitterDropped conn trace := by
  rcases dispatched with ⟨before, delivered, after, rfl, dropped, -⟩
  exact dropped.imp (List.mem_append_left _) (List.mem_append_left _)

/-- A connection whose last submitter was dropped is gone or leaked. -/
theorem At.of_submitterDropped {notes : List Note}
    (before : At conn registered system (marks notes) stage)
    (dropped : SubmitterDropped conn notes) : stage = .gone ∨ stage = .leaked := by
  rcases dropped with taken | refused
  · have member : .disconnect conn ∈
        (Fifo.accepted (inboxOutcomes (marks notes))).filter (concerns conn) := by
      refine List.mem_filter.mpr ⟨?_, by simp [concerns]⟩
      exact Fifo.mem_accepted.mpr (mem_inboxOutcomes.mpr (mem_marks.mpr taken))
    rw [before.messages] at member
    cases stage <;> simp [Stage.messages] at member ⊢
  · exact .inr (before.refused.mp (mem_marks.mpr refused))

/-- In every run with fewer than `2 ^ 64` registrations: a connection to which an event was
sent after both its ends were dropped has no route once the inbox is empty, if and only if
the inbox was not full at the drop of its last submitter. A connection with a live submitter
has its route from the handling of its `Connect` on. -/
theorem run_forgets_iff_room (inboxCapacity : Nat) (turns : List Turn)
    (few : turns.count (.hub .register) < 2 ^ 64) (conn : ConnId) :
    (((tenancy inboxCapacity).run turns).1.system.inbox = [] →
      DispatchedAfterDrops conn ((tenancy inboxCapacity).run turns).2 →
      (((tenancy inboxCapacity).run turns).1.system.hub.routes.get? conn = none ↔
        DropFindsRoom inboxCapacity turns conn)) ∧
    (conn ∈ ((tenancy inboxCapacity).run turns).1.system.submitters →
      .hub (.inbox (.popped (.connect conn))) ∈ ((tenancy inboxCapacity).run turns).2 →
      ((tenancy inboxCapacity).run turns).1.system.hub.routes.get? conn = some ⟨conn⟩) := by
  rcases tenancy_lives inboxCapacity few with ⟨accounts, stages⟩
  rcases stages conn with ⟨stage, before⟩
  refine ⟨?_, ?_⟩
  · intro empty dispatched
    rw [before.route accounts empty, dropFindsRoom_iff few, ← mem_marks, before.refused]
    rcases before.of_submitterDropped dispatched.submitterDropped with rfl | rfl
    · simp
    · simp
  · intro alive handled
    have live := before.eq_live alive
    subst live
    exact before.live_route accounts
      (Fifo.mem_popped.mpr (mem_inboxOutcomes.mpr (mem_marks.mpr handled)))

/-- A drop that finds room: the events of the last order are sent to nobody, and then the
route is removed. -/
theorem run_forgets_iff_room_market :
    let command : Command := .new ⟨⟨1⟩, .buy, ⟨5⟩, .market, ⟨0⟩⟩
    let turns : List Turn := List.flatten [[.hub .register, .hub (.push 0),
      .hub (.submit ⟨1⟩ command), .hub (.push 0), .hub (.drop ⟨1⟩), .dropReceiver ⟨1⟩],
      List.replicate 5 (.hub .matcher)]
    turns.count (.hub .register) < 2 ^ 64 ∧ ((tenancy 8).run turns).1.system.inbox = [] ∧
      DispatchedAfterDrops ⟨1⟩ ((tenancy 8).run turns).2 ∧
      (((tenancy 8).run turns).1.system.hub.routes.get? ⟨1⟩ = none ↔
        DropFindsRoom 8 turns ⟨1⟩) := by
  intro command turns
  have few : turns.count (.hub .register) < 2 ^ 64 := by decide
  have empty : ((tenancy 8).run turns).1.system.inbox = [] := by decide +kernel
  have dispatched : DispatchedAfterDrops ⟨1⟩ ((tenancy 8).run turns).2 := by
    refine ⟨((tenancy 8).run turns).2.take 6, false, ((tenancy 8).run turns).2.drop 7,
      by decide +kernel, .inl ?_, ?_⟩
    · decide +kernel
    · decide +kernel
  exact ⟨few, empty, dispatched, (run_forgets_iff_room 8 turns few ⟨1⟩).1 empty dispatched⟩

/-- A connection that fills the inbox and is dropped. Two events are sent to its closed channel
afterwards and the inbox is drained, but its route stays. -/
theorem run_keeps_leaked_route :
    let command : Command := .new ⟨⟨1⟩, .buy, ⟨5⟩, .market, ⟨0⟩⟩
    let turns : List Turn := List.flatten [[.hub .register, .hub (.push 0),
      .hub (.submit ⟨1⟩ command)], List.replicate 6 (.hub (.submit ⟨1⟩ (.cancel ⟨9⟩))),
      List.replicate 7 (.hub (.push 0)), [.hub (.drop ⟨1⟩), .dropReceiver ⟨1⟩],
      List.replicate 10 (.hub .matcher)]
    let reached := (tenancy 8).run turns
    reached.1.system.inbox = [] ∧ reached.1.outgoing = [] ∧
      DispatchedAfterDrops ⟨1⟩ reached.2 ∧
      reached.1.system.hub.routes.get? ⟨1⟩ = some ⟨⟨1⟩⟩ := by
  intro command turns reached
  refine ⟨by decide +kernel, by decide +kernel, ?_, by decide +kernel⟩
  refine ⟨reached.2.take 12, false, reached.2.drop 13, by decide +kernel, .inr ?_, ?_⟩
  · decide +kernel
  · decide +kernel

end Hub

end Bourse
