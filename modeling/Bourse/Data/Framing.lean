import Bourse.Data.Bytes
import Bourse.Data.Loop

/-!
# Length-prefixed frames over a byte stream

A frame is a 32-bit little-endian length and a body of that length.  A reader takes the
length, then the body, and decodes the body; it ends where no length is left and fails
where a body is cut short or does not decode.  Frames written one after the other are read
back from every prefix of the stream as far as they lie in it.
-/

namespace Bourse

namespace Framing

/-- A body behind its length. -/
def frame (body : Bytes) : Bytes := Bytes.ofU32 (UInt32.ofNat body.length) ++ body

section Reader

variable {ε α : Type} (eof : ε) (decode : Bytes → Except ε α)

/-- Read one frame. Without a whole length the stream has ended; `eof` is the error for a
body that is cut short. -/
def readFrame (input : Bytes) : Except ε (Option (α × Bytes)) :=
  match input.readExact 4 with
  | none => .ok none
  | some (len, input) =>
      match input.readExact (Bytes.toU32 len).toNat with
      | none => .error eof
      | some (body, rest) =>
          match decode body with
          | .error error => .error error
          | .ok message => .ok (some (message, rest))

theorem readFrame_shorter {input rest : Bytes} {message : α}
    (read : readFrame eof decode input = .ok (some (message, rest))) :
    rest.length < input.length := by
  unfold readFrame at read
  split at read
  · cases read
  next len tail lenRead =>
    rcases Bytes.readExact_eq_some lenRead with ⟨split, size⟩
    split at read
    · cases read
    next body left bodyRead =>
      rcases Bytes.readExact_eq_some bodyRead with ⟨bodySplit, -⟩
      split at read
      · cases read
      · cases read
        rw [split, List.length_append, size, bodySplit, List.length_append]
        omega

/-- The state of a reader: what is left of the stream, the messages delivered, and the
error that ended the reading. -/
structure Reading (ε α : Type) where
  rest : Bytes
  delivered : List α
  error : Option ε

/-- One iteration of reading. -/
def readBody (reading : Reading ε α) : Option (Reading ε α) :=
  match reading.error with
  | some _ => none
  | none =>
      match readFrame eof decode reading.rest with
      | .ok none => none
      | .ok (some (message, rest)) => some ⟨rest, reading.delivered ++ [message], none⟩
      | .error error => some { reading with error := some error }

/-- Reading until the stream ends or an error occurs. -/
def readLoop : Loop (Reading ε α) where
  body := readBody eof decode
  variant reading := reading.rest.length + if reading.error.isNone then 1 else 0
  decreases := by
    intro reading next step
    unfold readBody at step
    split at step
    · cases step
    next running =>
      split at step
      · cases step
      next message rest read =>
        cases step
        have shorter := readFrame_shorter eof decode read
        simp only [running, Option.isNone_none, if_true]
        omega
      next error read =>
        cases step
        simp [running]

/-- The messages that a stream delivers, and how its reading ends. -/
def readAll (input : Bytes) : List α × Except ε Unit :=
  let final := (readLoop eof decode).run ⟨input, [], none⟩
  (final.delivered,
    match final.error with
    | none => .ok ()
    | some error => .error error)

variable {eof decode} {input rest : Bytes} {message : α} {error : ε}

/-- What was delivered before does not matter to the reading. -/
theorem run_delivered (eof : ε) (decode : Bytes → Except ε α) (input : Bytes)
    (delivered : List α) :
    let final := (readLoop eof decode).run ⟨input, [], none⟩
    (readLoop eof decode).run ⟨input, delivered, none⟩ =
      { final with delivered := delivered ++ final.delivered } := by
  apply (readLoop eof decode).run_simulation (readLoop eof decode)
    fun left right => left = { right with delivered := delivered ++ right.delivered }
  · intro left right same
    subst same
    simp only [readLoop, readBody]
    cases right.error with
    | some error => exact .none
    | none =>
        rcases readFrame eof decode right.rest with error | _ | ⟨message, rest⟩
        · exact .some rfl
        · exact .none
        · exact .some (by rw [List.append_assoc])
  · rw [List.append_nil]

theorem readAll_of_end (read : readFrame eof decode input = .ok none) :
    readAll eof decode input = ([], .ok ()) := by
  have stop : (readLoop eof decode).body ⟨input, [], none⟩ = none := by
    simp only [readLoop, readBody, read]
  rw [readAll, (readLoop eof decode).run_of_break stop]

theorem readAll_of_error (read : readFrame eof decode input = .error error) :
    readAll eof decode input = ([], .error error) := by
  have step : (readLoop eof decode).body ⟨input, [], none⟩ =
      some ⟨input, [], some error⟩ := by
    simp only [readLoop, readBody, read]
  have stop : (readLoop eof decode).body ⟨input, [], some error⟩ = none := rfl
  rw [readAll, (readLoop eof decode).run_of_continue step,
    (readLoop eof decode).run_of_break stop]

theorem readAll_of_message (read : readFrame eof decode input = .ok (some (message, rest))) :
    readAll eof decode input =
      (message :: (readAll eof decode rest).1, (readAll eof decode rest).2) := by
  have step : (readLoop eof decode).body ⟨input, [], none⟩ =
      some ⟨rest, [message], none⟩ := by
    simp only [readLoop, readBody, read, List.nil_append]
  rw [readAll, (readLoop eof decode).run_of_continue step, run_delivered]
  rfl

/-! ## One frame -/

theorem readFrame_ended (short : input.length < 4) :
    readFrame eof decode input = .ok none := by
  rw [readFrame, Bytes.readExact_short short]

theorem readFrame_cut {len : UInt32} {body : Bytes} (short : body.length < len.toNat) :
    readFrame eof decode (Bytes.ofU32 len ++ body) = .error eof := by
  simp only [readFrame, Bytes.readExact_append (Bytes.length_ofU32 len), Bytes.toU32_ofU32,
    Bytes.readExact_short short]

theorem readFrame_frame {body : Bytes} (fits : body.length < 2 ^ 32) (rest : Bytes) :
    readFrame eof decode (frame body ++ rest) =
      match decode body with
      | .error error => .error error
      | .ok message => .ok (some (message, rest)) := by
  have size : body.length = (UInt32.ofNat body.length).toNat := by
    rw [UInt32.toNat_ofNat', Nat.mod_eq_of_lt fits]
  simp only [readFrame, frame, List.append_assoc,
    Bytes.readExact_append (Bytes.length_ofU32 _), Bytes.toU32_ofU32,
    Bytes.readExact_append size]

/-- The length and the whole body of a frame are there. -/
def complete (input : Bytes) : Bool :=
  match input.readExact 4 with
  | none => false
  | some (len, rest) => (Bytes.toU32 len).toNat ≤ rest.length

/-! ## Arbitrary streams -/

/-- What a stream contains: the messages of its leading frames, and how it ends. -/
inductive Contains (eof : ε) (decode : Bytes → Except ε α) :
    Bytes → List α → Except ε Unit → Prop where
  | ended {tail : Bytes} (short : tail.length < 4) : Contains eof decode tail [] (.ok ())
  | cut {len : UInt32} {body : Bytes} (short : body.length < len.toNat) :
      Contains eof decode (Bytes.ofU32 len ++ body) [] (.error eof)
  | refused {body rest : Bytes} {error : ε} (fits : body.length < 2 ^ 32)
      (bad : decode body = .error error) :
      Contains eof decode (frame body ++ rest) [] (.error error)
  | message {body rest : Bytes} {message : α} {messages : List α} {result : Except ε Unit}
      (fits : body.length < 2 ^ 32) (good : decode body = .ok message)
      (later : Contains eof decode rest messages result) :
      Contains eof decode (frame body ++ rest) (message :: messages) result

/-- A reader delivers what the stream contains. -/
theorem Contains.readAll {stream : Bytes} {messages : List α} {result : Except ε Unit}
    (contains : Contains eof decode stream messages result) :
    readAll eof decode stream = (messages, result) := by
  induction contains with
  | ended short => exact readAll_of_end (readFrame_ended short)
  | cut short => exact readAll_of_error (readFrame_cut short)
  | refused fits bad =>
      apply readAll_of_error
      rw [readFrame_frame fits, bad]
  | @message body rest message messages result fits good later ih =>
      have read : readFrame eof decode (frame body ++ rest) = .ok (some (message, rest)) := by
        rw [readFrame_frame fits, good]
      rw [readAll_of_message read, ih]

/-- A stream has ended, breaks off inside a body, or starts with a frame. -/
theorem stream_cases (stream : Bytes) :
    stream.length < 4 ∨
      (∃ len body, body.length < (len : UInt32).toNat ∧ stream = Bytes.ofU32 len ++ body) ∨
      ∃ body rest, body.length < 2 ^ 32 ∧ stream = frame body ++ rest := by
  rcases Nat.lt_or_ge stream.length 4 with short | long
  · exact .inl short
  · have split := List.take_append_drop 4 stream
    have size : (stream.take 4).length = 4 := List.length_take_of_le long
    generalize stream.take 4 = len at split size
    generalize stream.drop 4 = tail at split
    rcases Nat.lt_or_ge tail.length (Bytes.toU32 len).toNat with short | enough
    · refine .inr (.inl ⟨Bytes.toU32 len, tail, short, ?_⟩)
      rw [Bytes.ofU32_toU32 size, split]
    · have whole := List.length_take_of_le enough
      refine .inr (.inr ⟨tail.take (Bytes.toU32 len).toNat, tail.drop (Bytes.toU32 len).toNat,
        ?_, ?_⟩)
      · rw [whole]
        exact UInt32.toNat_lt _
      · rw [frame, whole, UInt32.ofNat_toNat, Bytes.ofU32_toU32 size, List.append_assoc,
          List.take_append_drop, split]

theorem length_frame (body : Bytes) : (frame body).length = 4 + body.length := by
  rw [frame, List.length_append, Bytes.length_ofU32]

theorem complete_of_short {input : Bytes} (short : input.length < 4) : complete input = false := by
  rw [complete, Bytes.readExact_short short]

theorem complete_of_cut {len : UInt32} {body : Bytes} (short : body.length < len.toNat) :
    complete (Bytes.ofU32 len ++ body) = false := by
  simpa only [complete, Bytes.readExact_append (Bytes.length_ofU32 len), Bytes.toU32_ofU32,
    decide_eq_false_iff_not, Nat.not_le] using short

theorem complete_iff {input : Bytes} :
    complete input = true ↔ ∃ body rest, body.length < 2 ^ 32 ∧ input = frame body ++ rest := by
  constructor
  · intro whole
    rcases stream_cases input with short | ⟨len, body, short, rfl⟩ | found
    · rw [complete_of_short short] at whole
      cases whole
    · rw [complete_of_cut short] at whole
      cases whole
    · exact found
  · intro split
    rcases split with ⟨body, rest, fits, rfl⟩
    simp only [complete, frame, List.append_assoc, Bytes.readExact_append (Bytes.length_ofU32 _),
      Bytes.toU32_ofU32, UInt32.toNat_ofNat', Nat.mod_eq_of_lt fits, List.length_append,
      Nat.le_add_right, decide_true]

/-- Nothing is delivered from a stream without a whole frame. -/
theorem readAll_incomplete {input : Bytes} (waits : complete input = false) :
    (readAll eof decode input).1 = [] := by
  rcases stream_cases input with short | ⟨len, body, short, rfl⟩ | ⟨body, rest, fits, split⟩
  · rw [readAll_of_end (readFrame_ended short)]
  · rw [readAll_of_error (readFrame_cut short)]
  · rw [complete_iff.mpr ⟨body, rest, fits, split⟩] at waits
    cases waits

/-! ## Streams that are still arriving -/

/-- A reader that was given the bytes has delivered the messages and is at the start of a
frame, whatever follows. -/
def Consumes (eof : ε) (decode : Bytes → Except ε α) (consumed : Bytes) (messages : List α) :
    Prop :=
  ∀ rest, readAll eof decode (consumed ++ rest) =
    (messages ++ (readAll eof decode rest).1, (readAll eof decode rest).2)

theorem Consumes.nil : Consumes eof decode [] [] := fun _ => rfl

section Consumes

variable {consumed : Bytes} {messages : List α}

theorem Consumes.concat (consumes : Consumes eof decode consumed messages) {body : Bytes}
    {message : α} (fits : body.length < 2 ^ 32) (good : decode body = .ok message) :
    Consumes eof decode (consumed ++ frame body) (messages ++ [message]) := by
  intro rest
  have read : readFrame eof decode (frame body ++ rest) = .ok (some (message, rest)) := by
    rw [readFrame_frame fits, good]
  rw [List.append_assoc, consumes, readAll_of_message read, List.append_assoc]
  rfl

/-- A frame that does not decode ends the reading, whatever follows. -/
theorem Consumes.refused (consumes : Consumes eof decode consumed messages) {body : Bytes}
    {error : ε} (fits : body.length < 2 ^ 32) (bad : decode body = .error error)
    (more : Bytes) :
    readAll eof decode (consumed ++ (frame body ++ more)) = (messages, .error error) := by
  have read : readFrame eof decode (frame body ++ more) = .error error := by
    rw [readFrame_frame fits, bad]
  rw [consumes, readAll_of_error read, List.append_nil]

theorem Consumes.prefix_readAll (consumes : Consumes eof decode consumed messages)
    (rest : Bytes) : messages <+: (readAll eof decode (consumed ++ rest)).1 := by
  rw [consumes]
  exact List.prefix_append _ _

end Consumes

/-! ## Prefixes of written streams -/

section Written

variable {μ : Type} {body : μ → Bytes} {deliver : μ → α}

/-- The frames of a list of messages. -/
def frames (body : μ → Bytes) (messages : List μ) : Bytes :=
  messages.flatMap fun message => frame (body message)

theorem frames_cons (body : μ → Bytes) (message : μ) (messages : List μ) :
    frames body (message :: messages) = frame (body message) ++ frames body messages :=
  List.flatMap_cons

/-- The part of a frame in front of its end delivers nothing. It is an error if the length
is complete. -/
theorem readAll_partial {block part : Bytes} (fits : block.length < 2 ^ 32)
    (start : part <+: frame block) (proper : part.length < (frame block).length) :
    readAll eof decode part = ([], if part.length < 4 then .ok () else .error eof) := by
  split
  next short => exact readAll_of_end (readFrame_ended short)
  next long =>
    have sized : (Bytes.ofU32 (UInt32.ofNat block.length)).length ≤ part.length := by
      rw [Bytes.length_ofU32]
      exact Nat.le_of_not_lt long
    rcases List.prefix_of_prefix_length_le (List.prefix_append _ block) start sized with
      ⟨rest, rfl⟩
    apply readAll_of_error
    apply readFrame_cut
    rw [List.length_append, Bytes.length_ofU32, length_frame] at proper
    rw [UInt32.toNat_ofNat', Nat.mod_eq_of_lt fits]
    omega

/-- A prefix of a written stream delivers the messages whose frames lie wholly inside it. It
ends without an error if fewer than four bytes of the next frame are present. -/
theorem readAll_prefix (fits : ∀ message, (body message).length < 2 ^ 32)
    (decoded : ∀ message, decode (body message) = .ok (deliver message)) (messages : List μ)
    {part : Bytes} (start : part <+: frames body messages) :
    ∃ whole, whole ≤ messages.length ∧
      (∀ count, count ≤ messages.length →
        (count ≤ whole ↔ (frames body (messages.take count)).length ≤ part.length)) ∧
      readAll eof decode part = ((messages.take whole).map deliver,
        if part.length - (frames body (messages.take whole)).length < 4 then .ok ()
        else .error eof) := by
  induction messages generalizing part with
  | nil =>
      have nothing : part = [] := List.prefix_nil.mp start
      refine ⟨0, Nat.le_refl 0, ?_, ?_⟩
      · intro count within
        rw [nothing, List.take_nil]
        exact ⟨fun _ => Nat.le_refl _, fun _ => within⟩
      · rw [nothing]
        exact readAll_of_end (readFrame_ended (by decide))
  | cons message messages ih =>
      rw [frames_cons] at start
      rcases Nat.lt_or_ge part.length (frame (body message)).length with short | long
      · have inside : part <+: frame (body message) :=
          List.prefix_of_prefix_length_le start (List.prefix_append _ _) (Nat.le_of_lt short)
        refine ⟨0, Nat.zero_le _, ?_, ?_⟩
        · intro count within
          cases count with
          | zero => exact ⟨fun _ => Nat.zero_le _, fun _ => Nat.le_refl 0⟩
          | succ count =>
              rw [List.take_succ_cons, frames_cons, List.length_append]
              omega
        · exact readAll_partial (fits message) inside short
      · rcases List.prefix_of_prefix_length_le (List.prefix_append _ _) start long with
          ⟨rest, rfl⟩
        rw [List.prefix_append_right_inj] at start
        rcases ih start with ⟨whole, within, counted, read⟩
        have first : readFrame eof decode (frame (body message) ++ rest) =
            .ok (some (deliver message, rest)) := by
          rw [readFrame_frame (fits message), decoded]
        refine ⟨whole + 1, Nat.succ_le_succ within, ?_, ?_⟩
        · intro count few
          cases count with
          | zero => exact ⟨fun _ => Nat.zero_le _, fun _ => Nat.zero_le _⟩
          | succ count =>
              rw [Nat.add_le_add_iff_right, counted count (Nat.le_of_succ_le_succ few),
                List.take_succ_cons, frames_cons, List.length_append, List.length_append,
                Nat.add_le_add_iff_left]
        · rw [readAll_of_message first, read, List.take_succ_cons, frames_cons,
            List.length_append, List.length_append, Nat.add_sub_add_left, List.map_cons]

end Written

end Reader

end Framing

end Bourse
