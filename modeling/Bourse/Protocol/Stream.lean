import Bourse.Protocol.Codec

/-!
# Messages over a connection

The frame readers of `bourse-server/src/lib.rs`: `reader_loop` turns the bytes of a client
into commands, and `read_one_server_message`, called until it returns nothing, turns the
bytes of the server into messages.  A stream is the bytes that arrive before it ends.
-/

namespace Bourse

namespace Protocol

/-- The I/O errors of a reader: the stream ends inside a body, or a body does not decode. -/
inductive ReadError where
  | unexpectedEof
  | invalidData (text : String)
  deriving DecidableEq, Repr

/-- The command that `reader_loop` submits for a message. -/
def ClientMessage.command : ClientMessage → Command
  | .newOrder order => .new order
  | .cancel id => .cancel id

/-- What `reader_loop` makes of a body. -/
def decodeCommand (body : Bytes) : Except ReadError Command :=
  match decodeClient body with
  | .ok message => .ok message.command
  | .error error => .error (.invalidData ("decode: " ++ error.text))

/-- `reader_loop` on a stream: the commands it submits, and its result. -/
def readerLoop (stream : Bytes) : List Command × Except ReadError Unit :=
  Framing.readAll .unexpectedEof decodeCommand stream

/-- What `read_one_server_message` makes of a body. -/
def decodeReply (body : Bytes) : Except ReadError ServerMessage :=
  match decodeServer body with
  | .ok message => .ok message
  | .error error => .error (.invalidData error.text)

/-- `read_one_server_message`, with the stream behind the message. -/
def readOneServerMessage (stream : Bytes) : Except ReadError (Option (ServerMessage × Bytes)) :=
  Framing.readFrame .unexpectedEof decodeReply stream

/-- `read_one_server_message` until it returns nothing or fails. -/
def readServerMessages (stream : Bytes) : List ServerMessage × Except ReadError Unit :=
  Framing.readAll .unexpectedEof decodeReply stream

/-- `writer_loop`: what it sends for the events it receives. -/
def writerLoop (events : List Event) : Bytes :=
  events.foldl (fun sent event => sent ++ encodeServer (.execution event) []) []

/-- Messages encoded one after the other into one buffer. -/
def encodeAll {μ : Type} (encode : μ → Bytes → Bytes) (messages : List μ) : Bytes :=
  messages.foldl (fun out message => encode message out) []

/-- A client takes the messages one by one. -/
theorem readServerMessages_eq (stream : Bytes) :
    readServerMessages stream =
      match readOneServerMessage stream with
      | .ok none => ([], .ok ())
      | .ok (some (message, rest)) =>
          (message :: (readServerMessages rest).1, (readServerMessages rest).2)
      | .error error => ([], .error error) := by
  cases read : readOneServerMessage stream with
  | error error => exact Framing.readAll_of_error read
  | ok next =>
      cases next with
      | none => exact Framing.readAll_of_end read
      | some next => exact Framing.readAll_of_message read

section Encoder

variable {μ : Type} {encode : μ → Bytes → Bytes} {body : μ → Bytes}

/-- An encoder that appends frames fills a buffer with the frames of its messages. -/
theorem encodeAll_eq_frames
    (appends : ∀ message out, encode message out = out ++ Framing.frame (body message))
    (messages : List μ) : encodeAll encode messages = Framing.frames body messages := by
  have filled : ∀ out, messages.foldl (fun out message => encode message out) out =
      out ++ Framing.frames body messages := by
    induction messages with
    | nil => exact fun out => (List.append_nil out).symm
    | cons message messages ih =>
        intro out
        rw [List.foldl_cons, ih, appends, Framing.frames_cons, List.append_assoc]
  exact filled []

end Encoder

theorem serverBody_fits (message : ServerMessage) : (serverBody message).length < 2 ^ 32 :=
  Nat.lt_of_le_of_lt (length_serverBody message) (by decide)

theorem encodeServer_eq (message : ServerMessage) (out : Bytes) :
    encodeServer message out = out ++ Framing.frame (serverBody message) :=
  encodeFrame_eq (serverBody_fits message) out

/-- The server sends what encoding its events into one buffer gives. -/
theorem writerLoop_eq (events : List Event) :
    writerLoop events = encodeAll encodeServer (events.map .execution) := by
  rw [writerLoop, encodeAll, List.foldl_map]
  simp only [encodeServer_eq, List.nil_append]

example : readerLoop ((encodeAll encodeClient [.cancel (.new 7), .cancel (.new 8)]).take 20) =
    ([.cancel (.new 7)], .error .unexpectedEof) := by
  decide

end Protocol

end Bourse
