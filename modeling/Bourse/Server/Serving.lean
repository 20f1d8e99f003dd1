import Bourse.Server.Writing

/-!
# The server is one sequential hub

In every interleaving of clients, tasks and the matcher thread, what the clients receive is
what one hub sends that handles their commands one after the other, in the order of the inbox.
A client's commands are in that order as its bytes have them.
-/

namespace Bourse

namespace Server

/-- A server whose hub is started with the given capacity. -/
def machine (inboxCapacity : Nat) : Machine Server Move Mark :=
  ⟨start, step (max inboxCapacity 8)⟩

variable {server : Server} {trace : List Mark} {id : ConnId} {capacity registered : Nat}

/-! ## The hub of a server -/

/-- What a step of the server does to its hub: one move, or nothing. Only `register` hands out
an id, and only `dropHub` stops the matcher thread. -/
inductive HubStep (capacity : Nat) (server : Server) (move : Move) : Server × List Mark → Prop
  | moved {after : Server} {marks : List Mark} (hubMove : Hub.Move)
      (hub : after.hub = (server.hub.step capacity hubMove).1)
      (left : hubMarks marks = (server.hub.step capacity hubMove).2)
      (registers : hubMove = .register → move = .register)
      (stops : hubMove = .stop → move = .dropHub) :
      HubStep capacity server move (after, marks)
  | still {after : Server} {marks : List Mark} (hub : after.hub = server.hub)
      (left : hubMarks marks = []) : HubStep capacity server move (after, marks)

theorem foldl_resume_hub (marks : List Hub.Mark) (server : Server) :
    (marks.foldl resume server).hub = server.hub := by
  induction marks generalizing server with
  | nil => rfl
  | cons mark marks ih =>
      rw [List.foldl_cons, ih]
      unfold resume
      split <;> rfl

theorem readerEnds_hub (move : Move) (id : ConnId) (reader : Reader) :
    HubStep capacity server move (server.readerEnds capacity id reader) :=
  .moved (.drop id) rfl (hubMarks_map _) (fun impossible => (by cases impossible))
    fun impossible => (by cases impossible)

theorem read_hub (move : Move) (id : ConnId) :
    HubStep capacity server move (server.read capacity id) := by
  unfold Server.read
  dsimp only
  split
  · split
    · split
      next command unread _ =>
        exact .moved (.submit id command) rfl (hubMarks_map _)
          (fun impossible => (by cases impossible)) fun impossible => (by cases impossible)
      · exact readerEnds_hub move id _
      · exact readerEnds_hub move id _
    · exact .still rfl rfl
  all_goals exact .still rfl rfl

theorem step_hub (capacity : Nat) (server : Server) (move : Move) :
    HubStep capacity server move (server.step capacity move) := by
  cases move with
  | accept | acceptFails | shutdown | expire | arrive | abort | abortSpawned | endHandler =>
      simp only [step]
      split <;> exact .still rfl rfl
  | finish =>
      simp only [step]
      split
      · split <;> exact .still rfl rfl
      all_goals exact .still rfl rfl
  | dropHub =>
      simp only [step]
      split
      · split
        · exact .moved .stop rfl (hubMarks_map _) (fun impossible => (by cases impossible))
            fun _ => rfl
        · exact .still rfl rfl
      all_goals exact .still rfl rfl
  | register =>
      simp only [step]
      split
      · exact .still rfl rfl
      · exact .moved .register rfl (hubMarks_map _) (fun _ => rfl)
          fun impossible => (by cases impossible)
  | push call =>
      refine .moved (.push call) ?_ (hubMarks_map _) (fun impossible => (by cases impossible))
        fun impossible => (by cases impossible)
      rw [foldl_resume_hub]
      rfl
  | matcher =>
      simp only [step]
      split
      · exact .still rfl rfl
      · exact .moved .matcher rfl (hubMarks_map _) (fun impossible => (by cases impossible))
          fun impossible => (by cases impossible)
  | close => exact .still rfl rfl
  | read conn => exact read_hub _ conn
  | readFails conn =>
      simp only [step]
      split
      · exact readerEnds_hub _ conn _
      all_goals exact .still rfl rfl
  | receive conn =>
      simp only [step, receive]
      split
      · exact .still rfl rfl
      · split <;> exact .still rfl rfl
      all_goals exact .still rfl rfl
  | write conn count =>
      simp only [step, write]
      split <;> exact .still rfl rfl
  | writeFails conn =>
      simp only [step]
      split <;> exact .still rfl rfl

/-! ## Whole runs -/

/-- The hub accounts for what went through it, and every connection for what went through
its tasks. -/
structure Serving (capacity registered : Nat) (server : Server) (trace : List Mark) : Prop where
  accounts : Hub.Accounts capacity server.hub (hubMarks trace)
  lives : Hub.Lives registered server.hub (hubMarks trace)
  paired : server.Paired
  takes : ∀ id, TakesAt server trace id
  gives : ∀ id, GivesAt server trace id

/-- A connection that is being registered was not registered before. -/
theorem Serving.fresh (serving : Serving capacity registered server trace)
    (called : .connect id ∈ server.hub.calls) : .connect id ∉ pushed trace := by
  rcases serving.lives.stages id with ⟨stage, staged⟩
  have one := List.count_pos_iff.mpr called
  rw [staged.calls] at one
  have registering : stage = .registering := by
    cases stage <;> first | rfl | cases one
  subst registering
  intro member
  have none : .connect id ∈ (Fifo.accepted (Hub.inboxOutcomes (hubMarks trace))).filter
      (Hub.concerns id) := List.mem_filter.mpr ⟨member, by simp [Hub.concerns]⟩
  rw [staged.messages] at none
  cases none

theorem Serving.step (serving : Serving capacity registered server trace) (move : Move)
    (few : move = .register → registered + 1 < 2 ^ 64) :
    ∃ next, next ≤ registered + [move].count .register ∧
      Serving capacity next (server.step capacity move).1
        (trace ++ (server.step capacity move).2) := by
  have takes : ∀ id, TakesAt (server.step capacity move).1
      (trace ++ (server.step capacity move).2) id :=
    fun id => (serving.takes id).step move serving.fresh
  have gives : ∀ id, GivesAt (server.step capacity move).1
      (trace ++ (server.step capacity move).2) id :=
    fun id => (serving.gives id).step serving.paired serving.takes (fun _ => serving.fresh)
      serving.accounts.hub move
  have paired := serving.paired.step capacity move
  have hub := step_hub capacity server move
  generalize server.step capacity move = result at takes gives paired hub ⊢
  cases hub with
  | @moved after marks hubMove hub left registers stops =>
      have accounts := serving.accounts.step hubMove
      by_cases register : hubMove = .register
      · have lives := serving.lives.register (few (registers register)) capacity
        refine ⟨registered + 1, by simp [registers register], ?_, ?_, paired, takes, gives⟩
        · rw [hubMarks_append, hub, left]
          exact accounts
        · rw [hubMarks_append, hub, left, register]
          exact lives
      · have lives : Hub.Lives registered (server.hub.step capacity hubMove).1
            (hubMarks trace ++ (server.hub.step capacity hubMove).2) :=
          serving.lives.step register
        refine ⟨registered, Nat.le_add_right _ _, ?_, ?_, paired, takes, gives⟩
        · rw [hubMarks_append, hub, left]
          exact accounts
        · rw [hubMarks_append, hub, left]
          exact lives
  | @still after marks hub left =>
      refine ⟨registered, Nat.le_add_right _ _, ?_, ?_, paired, takes, gives⟩
      · rw [hubMarks_append, hub, left, List.append_nil]
        exact serving.accounts
      · rw [hubMarks_append, hub, left, List.append_nil]
        exact serving.lives

/-- What holds in every run in which no id is handed out twice. -/
theorem run_serving (inboxCapacity : Nat) {moves : List Move}
    (few : moves.count .register < 2 ^ 64) :
    ∃ registered, registered ≤ moves.count .register ∧
      Serving (max inboxCapacity 8) registered ((machine inboxCapacity).run moves).1
        ((machine inboxCapacity).run moves).2 := by
  induction moves using List.reverseRecOn with
  | nil =>
      have accounts := Hub.run_accounts inboxCapacity []
      have lives := @Hub.run_lives inboxCapacity [] (by decide)
      refine ⟨0, Nat.le_refl 0, accounts, lives, fun _ _ => rfl, ?_, fun _ => rfl⟩
      exact fun _ => ⟨List.not_mem_nil, rfl, rfl, rfl, rfl⟩
  | append_singleton moves move ih =>
      rw [List.count_append] at few ⊢
      rcases ih (Nat.lt_of_le_of_lt (Nat.le_add_right _ _) few) with
        ⟨registered, bound, serving⟩
      rw [Machine.run_append]
      have room : move = .register → registered + 1 < 2 ^ 64 := by
        intro registers
        rw [registers, List.count_singleton_self] at few
        omega
      rcases serving.step move room with ⟨next, within, served⟩
      exact ⟨next, Nat.le_trans within (Nat.add_le_add_right bound _), served⟩

/-- Every client is served by one sequential hub. The messages are handled in the order of the
inbox; a client's commands are in it as they are in its bytes, all of them once its reader has
returned; and what is written to a client are frames of the events that the hub sends it. -/
theorem run_serves (inboxCapacity : Nat) {moves : List Move}
    (few : moves.count .register < 2 ^ 64) :
    let server := ((machine inboxCapacity).run moves).1
    let trace := ((machine inboxCapacity).run moves).2
    handled trace <+: pushed trace ∧
    server.hub.hub = (Hub.run (handled trace)).1 ∧
    ∀ id,
      commandsOf id (pushed trace) <+: (Protocol.readerLoop (arrived id trace)).1 ∧
      (∀ result, (server.conns id).reader = .returned result →
        Protocol.readerLoop (arrived id trace) = (commandsOf id (pushed trace), result)) ∧
      written id trace <+: Protocol.writerLoop (eventsFor id (handled trace)) := by
  intro server trace
  rcases run_serving inboxCapacity few with ⟨registered, _, serving⟩
  refine ⟨⟨server.hub.inbox, serving.accounts.inbox.accounts.symm⟩, serving.accounts.hub, ?_⟩
  intro id
  refine ⟨Takes.within (serving.takes id), ?_, Gives.within (serving.gives id)⟩
  intro result returned
  exact Takes.returned (serving.takes id) returned

/-- A client whose order rests and who has been told so. -/
theorem run_serves_one_client :
    let order : NewOrder := ⟨.new 7, .sell, .new 5, .limit (.fromRaw 100), .fromNanos 0⟩
    let moves : List Move := [.accept, .register, .push 0,
      .arrive ⟨1⟩ (Protocol.encodeClient (.newOrder order) []), .read ⟨1⟩, .push 0, .matcher,
      .matcher, .matcher, .receive ⟨1⟩, .write ⟨1⟩ 40]
    moves.count .register < 2 ^ 64 ∧
      eventsFor ⟨1⟩ (handled ((machine 0).run moves).2) =
        [.accepted (.new 7) (.new 5) (.fromRaw 1)] ∧
      written ⟨1⟩ ((machine 0).run moves).2 <+:
        Protocol.writerLoop (eventsFor ⟨1⟩ (handled ((machine 0).run moves).2)) := by
  intro order moves
  have few : moves.count .register < 2 ^ 64 := by decide
  exact ⟨few, by decide +kernel, ((run_serves 0 few).2.2 ⟨1⟩).2.2⟩

end Server

end Bourse
