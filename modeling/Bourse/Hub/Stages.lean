import Bourse.Hub.Routing
import Bourse.Hub.Shutdown
import Mathlib.Algebra.Ring.Nat

/-!
# The stages of a connection

A connection is registered under an id of its own, is live until its last `Submitter` is
dropped, and is then gone, or leaked if the inbox was full.  Its stage decides which messages
about it went through the inbox, and these decide whether the matcher thread has its route.
-/

namespace Bourse

namespace Hub

/-- Where a connection is in its life. A leaked one was dropped while the inbox was full. -/
inductive Stage where
  | unregistered
  | registering
  | live
  | gone
  | leaked
  deriving DecidableEq, Repr

namespace Stage

/-- How many calls of `register` are in progress for the connection. -/
def calls : Stage → Nat
  | .registering => 1
  | .unregistered | .live | .gone | .leaked => 0

/-- How many submitters of the connection are alive. -/
def submitters : Stage → Nat
  | .live => 1
  | .unregistered | .registering | .gone | .leaked => 0

/-- What the inbox took about the connection. -/
def messages (conn : ConnId) : Stage → List Msg
  | .unregistered | .registering => []
  | .live | .leaked => [.connect conn]
  | .gone => [.connect conn, .disconnect conn]

end Stage

/-- The message inserts or removes the route of the connection. -/
def concerns (conn : ConnId) (msg : Msg) : Bool := msg = .connect conn ∨ msg = .disconnect conn

/-- The stage of a connection shows in the calls, in the inbox and in the submitters. The
first `registered` ids are handed out. -/
structure At (conn : ConnId) (registered : Nat) (system : System) (trace : List Mark)
    (stage : Stage) : Prop where
  calls : system.calls.count (.connect conn) = stage.calls
  plain : .disconnect conn ∉ system.calls
  messages : (Fifo.accepted (inboxOutcomes trace)).filter (concerns conn) = stage.messages conn
  submitters : system.submitters.count conn = stage.submitters
  refused : .inbox (.rejected (.disconnect conn)) ∈ trace ↔ stage = .leaked
  known : stage ≠ .unregistered → conn.get.toNat ≤ registered

variable {conn : ConnId} {registered capacity : Nat} {system : System} {trace : List Mark}
  {stage : Stage}

/-! ## One move -/

theorem At.messages_append (before : At conn registered system trace stage)
    (marks : List Mark) :
    (Fifo.accepted (inboxOutcomes (trace ++ marks))).filter (concerns conn) =
      stage.messages conn ++ (Fifo.accepted (inboxOutcomes marks)).filter (concerns conn) := by
  rw [inboxOutcomes_append, Fifo.accepted_append, List.filter_append, before.messages]

/-- A move that does not concern the connection. -/
theorem At.frame (before : At conn registered system trace stage) {after : System}
    {marks : List Mark}
    (calls : after.calls.count (.connect conn) = system.calls.count (.connect conn))
    (plain : .disconnect conn ∈ after.calls → .disconnect conn ∈ system.calls)
    (messages : (Fifo.accepted (inboxOutcomes marks)).filter (concerns conn) = [])
    (submitters : after.submitters.count conn = system.submitters.count conn)
    (refused : .inbox (.rejected (.disconnect conn)) ∉ marks) :
    At conn registered after (trace ++ marks) stage where
  calls := by rw [calls, before.calls]
  plain member := before.plain (plain member)
  messages := by rw [before.messages_append, messages, List.append_nil]
  submitters := by rw [submitters, before.submitters]
  refused := by
    rw [List.mem_append, ← before.refused]
    exact or_iff_left refused
  known := before.known

theorem At.mono (before : At conn registered system trace stage) :
    At conn (registered + 1) system trace stage :=
  { before with known := fun started => Nat.le_succ_of_le (before.known started) }

/-- `fetch_add` hands out an id that is in no stage yet. -/
theorem At.register (before : At conn registered system trace stage)
    (next : system.nextConn = UInt64.ofNat (registered + 1)) (few : registered + 1 < 2 ^ 64) :
    ∃ stage, At conn (registered + 1) (system.step capacity .register).1
      (trace ++ (system.step capacity .register).2) stage := by
  have handed : system.nextConn.toNat = registered + 1 := by
    rw [next, UInt64.toNat_ofNat']
    exact Nat.mod_eq_of_lt few
  by_cases mine : conn = ⟨system.nextConn⟩
  · have fresh : stage = .unregistered := by
      by_contra started
      have known := before.known started
      rw [mine, handed] at known
      omega
    subst fresh
    refine ⟨.registering, ?_, ?_, ?_, before.submitters, ?_, ?_⟩
    · have none := before.calls
      rw [mine] at none
      simp [System.step, List.count_append, none, mine, Stage.calls]
    · simpa [System.step] using before.plain
    · simpa [System.step, Stage.messages] using before.messages
    · simpa [System.step] using before.refused
    · intro _
      rw [mine, handed]
  · refine ⟨stage, (before.frame ?_ ?_ ?_ ?_ ?_).mono⟩
    · simp [System.step, List.count_append, Ne.symm mine]
    · simp [System.step]
    · rfl
    · rfl
    · exact List.not_mem_nil

theorem At.submit (before : At conn registered system trace stage) (other : ConnId)
    (command : Command) :
    At conn registered (system.step capacity (.submit other command)).1
      (trace ++ (system.step capacity (.submit other command)).2) stage := by
  simp only [System.step]
  split
  · refine before.frame ?_ ?_ ?_ ?_ ?_
    · simp [List.count_append]
    · simp
    · rfl
    · rfl
    · exact List.not_mem_nil
  · exact before.frame rfl id rfl rfl List.not_mem_nil

/-- A call of `register` that returns makes the connection live. -/
theorem At.accepted (before : At conn registered system trace stage) {call : Nat} {msg : Msg}
    {inbox : List Msg} (found : system.calls[call]? = some msg) :
    ∃ stage, At conn registered
      { system with
        inbox := inbox
        calls := system.calls.eraseIdx call
        submitters := system.submitters ++ System.returnedBy msg }
      (trace ++ [.inbox (.accepted msg)]) stage := by
  rcases List.getElem?_eq_some_iff.mp found with ⟨bound, isMsg⟩
  have split : (msg :: system.calls.eraseIdx call).Perm system.calls := by
    rw [← isMsg]
    exact List.getElem_cons_eraseIdx_perm bound
  have counted := split.count_eq (.connect conn)
  have plain : .disconnect conn ∈ system.calls.eraseIdx call → .disconnect conn ∈ system.calls :=
    fun member => List.mem_of_mem_eraseIdx member
  by_cases mine : msg = .connect conn
  · subst mine
    rw [List.count_cons_self, before.calls] at counted
    have registering : stage = .registering := by
      cases stage <;> first | rfl | cases counted
    subst registering
    refine ⟨.live, ?_, fun member => before.plain (plain member), ?_, ?_, ?_, ?_⟩
    · exact Nat.succ.inj counted
    · rw [before.messages_append]
      simp [inboxOutcomes, Fifo.accepted, concerns, Stage.messages]
    · simp [System.returnedBy, List.count_append, before.submitters, Stage.submitters]
    · simpa using before.refused
    · exact fun _ => before.known (by decide)
  · refine ⟨stage, before.frame ?_ plain ?_ ?_ ?_⟩
    · rw [List.count_cons_of_ne mine] at counted
      exact counted
    · have other : msg ≠ .disconnect conn := by
        intro same
        exact before.plain (same ▸ List.mem_of_getElem? found)
      simp [inboxOutcomes, Fifo.accepted, concerns, mine, other]
    · cases msg with
      | connect id =>
          have distinct : id ≠ conn := fun same => mine (by rw [same])
          simp [System.returnedBy, List.count_append, distinct]
      | disconnect id => simp [System.returnedBy]
      | cmd sender command => simp [System.returnedBy]
    · simp

theorem At.push (before : At conn registered system trace stage) (call : Nat) :
    ∃ stage, At conn registered (system.step capacity (.push call)).1
      (trace ++ (system.step capacity (.push call)).2) stage := by
  simp only [System.step, System.push]
  cases found : system.calls[call]? with
  | none => exact ⟨stage, before.frame rfl id rfl rfl List.not_mem_nil⟩
  | some msg =>
      by_cases room : system.inbox.length < capacity
      · simp only [Fifo.push, if_pos room]
        exact before.accepted found
      · simp only [Fifo.push, if_neg room]
        refine ⟨stage, before.frame rfl id rfl rfl ?_⟩
        intro refused
        rw [List.mem_singleton, Mark.inbox.injEq, Fifo.Outcome.rejected.injEq] at refused
        exact before.plain (refused ▸ List.mem_of_getElem? found)

/-- A connection with a submitter is live. -/
theorem At.eq_live (before : At conn registered system trace stage)
    (alive : conn ∈ system.submitters) : stage = .live := by
  have one := List.count_pos_iff.mpr alive
  rw [before.submitters] at one
  cases stage <;> first | rfl | cases one

/-- The drop of the last submitter. -/
theorem At.drop (before : At conn registered system trace stage) (other : ConnId) :
    ∃ stage, At conn registered (system.step capacity (.drop other)).1
      (trace ++ (system.step capacity (.drop other)).2) stage := by
  simp only [System.step]
  split
  next ready =>
    by_cases mine : other = conn
    · subst mine
      have live := before.eq_live ready.1
      subst live
      by_cases room : system.inbox.length < capacity
      · simp only [Fifo.push, if_pos room]
        refine ⟨.gone, before.calls, before.plain, ?_, ?_, ?_, fun _ => before.known (by decide)⟩
        · rw [before.messages_append]
          simp [inboxOutcomes, Fifo.accepted, concerns, Stage.messages]
        · simp [List.count_erase_self, before.submitters, Stage.submitters]
        · simpa using before.refused
      · simp only [Fifo.push, if_neg room]
        refine ⟨.leaked, before.calls, before.plain, ?_, ?_, ?_, fun _ => before.known (by decide)⟩
        · rw [before.messages_append]
          simp [inboxOutcomes, Fifo.accepted, Stage.messages]
        · simp [List.count_erase_self, before.submitters, Stage.submitters]
        · simp
    · refine ⟨stage, before.frame rfl id ?_ ?_ ?_⟩
      · simp only [Fifo.push]
        split <;> simp [inboxOutcomes, Fifo.accepted, concerns, mine]
      · exact List.count_erase_of_ne (Ne.symm mine)
      · simp only [Fifo.push]
        split <;> simp [Ne.symm mine]
  next => exact ⟨stage, before.frame rfl id rfl rfl List.not_mem_nil⟩

theorem At.matcher (before : At conn registered system trace stage) :
    At conn registered (system.step capacity .matcher).1
      (trace ++ (system.step capacity .matcher).2) stage := by
  simp only [System.step, System.matcherStep]
  cases system.pc with
  | pop didWork =>
      cases system.inbox with
      | nil => exact before.frame rfl id rfl rfl (by simp [Fifo.pop])
      | cons msg rest => exact before.frame rfl id rfl rfl (by simp [Fifo.pop])
  | loadStop => exact before.frame rfl id rfl rfl List.not_mem_nil
  | returned matcher => exact before.frame rfl id rfl rfl List.not_mem_nil

/-! ## Whole runs -/

/-- Every connection is in a stage, and the next id is the first that was not handed out. -/
structure Lives (registered : Nat) (system : System) (trace : List Mark) : Prop where
  next : system.nextConn = UInt64.ofNat (registered + 1)
  stages : ∀ conn, ∃ stage, At conn registered system trace stage

theorem Lives.register (lives : Lives registered system trace) (few : registered + 1 < 2 ^ 64)
    (capacity : Nat) :
    Lives (registered + 1) (system.step capacity .register).1
      (trace ++ (system.step capacity .register).2) := by
  refine ⟨?_, ?_⟩
  · simp only [System.step, lives.next]
    exact UInt64.toNat_inj.mp (by simp [Nat.add_assoc])
  · intro conn
    rcases lives.stages conn with ⟨stage, before⟩
    exact before.register lives.next few

/-- No other move hands out an id. -/
theorem System.step_nextConn {move : Move} (other : move ≠ .register) :
    (system.step capacity move).1.nextConn = system.nextConn := by
  cases move with
  | register => exact absurd rfl other
  | submit conn command =>
      simp only [System.step]
      split <;> rfl
  | push call =>
      simp only [System.step, System.push]
      split
      · rfl
      · split <;> rfl
  | drop conn =>
      simp only [System.step]
      split <;> rfl
  | stop => rfl
  | matcher =>
      simp only [System.step, System.matcherStep]
      split
      · split <;> rfl
      · rfl
      · rfl

theorem Lives.step (lives : Lives registered system trace) {move : Move}
    (other : move ≠ .register) :
    Lives registered (system.step capacity move).1 (trace ++ (system.step capacity move).2) := by
  refine ⟨(System.step_nextConn other).trans lives.next, ?_⟩
  intro conn
  rcases lives.stages conn with ⟨stage, before⟩
  cases move with
  | register => exact absurd rfl other
  | submit sender command => exact ⟨stage, before.submit sender command⟩
  | push call => exact before.push call
  | drop dropped => exact before.drop dropped
  | stop => exact ⟨stage, before.frame rfl id rfl rfl (by simp [System.step])⟩
  | matcher => exact ⟨stage, before.matcher⟩

/-- In a run with fewer than `2 ^ 64` registrations no id is handed out twice. -/
theorem run_lives (inboxCapacity : Nat) {moves : List Move}
    (few : moves.count .register < 2 ^ 64) :
    Lives (moves.count .register) ((machine inboxCapacity).run moves).1
      ((machine inboxCapacity).run moves).2 := by
  induction moves using List.reverseRecOn with
  | nil =>
      refine ⟨rfl, fun conn => ⟨.unregistered, rfl, List.not_mem_nil, rfl, rfl, ?_, ?_⟩⟩
      · exact ⟨fun marked => (by cases marked), fun leaked => (by cases leaked)⟩
      · exact fun started => absurd rfl started
  | append_singleton moves move ih =>
      rw [Machine.run_append]
      by_cases registers : move = .register
      · subst registers
        rw [List.count_append, List.count_singleton_self] at few ⊢
        have before := ih (Nat.lt_of_succ_lt few)
        exact before.register few (max inboxCapacity 8)
      · rw [List.count_append, List.count_singleton, if_neg (by simpa using registers)] at few ⊢
        exact (ih few).step registers

/-! ## Routes -/

/-- The route of a connection is decided by the messages that concern it. -/
theorem connected_filter (msgs : List Msg) (conn : ConnId) :
    connected (msgs.filter (concerns conn)) conn = connected msgs conn := by
  induction msgs using List.reverseRecOn with
  | nil => rfl
  | append_singleton msgs msg ih =>
      rw [List.filter_append, connected_concat]
      by_cases mine : concerns conn msg = true
      · rw [List.filter_cons_of_pos mine, List.filter_nil, connected_concat, ih]
      · rw [List.filter_cons_of_neg mine, List.filter_nil, List.append_nil, ih]
        cases msg with
        | connect id => simp_all [concerns]
        | disconnect id => simp_all [concerns]
        | cmd sender command => rfl

theorem Stage.connected_messages (stage : Stage) (conn : ConnId) :
    connected (stage.messages conn) conn = decide (stage = .live ∨ stage = .leaked) := by
  cases stage <;> simp [connected, Stage.messages]

/-- Once the inbox is empty, the connections with a route are the live and the leaked ones. -/
theorem At.route (before : At conn registered system trace stage)
    (accounts : Accounts capacity system trace) (empty : system.inbox = []) :
    system.hub.routes.get? conn =
      if stage = .live ∨ stage = .leaked then some ⟨conn⟩ else none := by
  have all := accounts.inbox.accounts
  rw [empty, List.append_nil] at all
  rw [accounts.hub, run_routes, ← all, ← connected_filter, before.messages,
    stage.connected_messages]
  simp

/-- A live connection has its route once its `Connect` was handled. -/
theorem At.live_route (before : At conn registered system trace .live)
    (accounts : Accounts capacity system trace)
    (handled : .connect conn ∈ Fifo.popped (inboxOutcomes trace)) :
    system.hub.routes.get? conn = some ⟨conn⟩ := by
  have all := before.messages
  rw [accounts.inbox.accounts, List.filter_append] at all
  have nonempty : (Fifo.popped (inboxOutcomes trace)).filter (concerns conn) ≠ [] :=
    List.ne_nil_of_mem (List.mem_filter.mpr ⟨handled, by simp [concerns]⟩)
  have first : (Fifo.popped (inboxOutcomes trace)).filter (concerns conn) = [.connect conn] := by
    rcases List.append_eq_singleton_iff.mp all with none | one
    · exact absurd none.1 nonempty
    · exact one.1
  rw [accounts.hub, run_routes, ← connected_filter, first]
  simp [connected]

end Hub

end Bourse
