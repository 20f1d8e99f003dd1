import Bourse.Data.Fallible
import Bourse.Data.Framing
import Bourse.Matcher.Run

/-!
# The wire protocol

The codec of `bourse-protocol/src/lib.rs`: messages of the client and of the server, their
frames, and the decoders of frame bodies.  An encoder appends to a buffer; it leaves room
for the length and fills it in once the body is there.
-/

namespace Bourse

namespace Protocol

def protocolVersion : UInt8 := 1

def msgNewOrder : UInt8 := 0x01
def msgCancel : UInt8 := 0x02
def msgExecution : UInt8 := 0x10

def sideBuy : UInt8 := 1
def sideSell : UInt8 := 2

def kindLimit : UInt8 := 1
def kindMarket : UInt8 := 2
def kindIoc : UInt8 := 3
def kindPostOnly : UInt8 := 4
def kindFok : UInt8 := 5

def execAccepted : UInt8 := 1
def execTrade : UInt8 := 2
def execDone : UInt8 := 3

def reasonFilled : UInt8 := 1
def reasonCancelled : UInt8 := 2
def reasonExpired : UInt8 := 3
def reasonNoLiquidity : UInt8 := 4
def reasonRejected : UInt8 := 5

/-- Errors from decoding a frame body. -/
inductive ProtocolError where
  | truncated
  | unknownVersion (version : UInt8)
  | unknownMessage (tag : UInt8)
  | unknownSide (side : UInt8)
  | unknownKindTag (tag : UInt8)
  | unknownExecType (tag : UInt8)
  | unknownReason (reason : UInt8)
  | trailingBytes
  deriving DecidableEq, Repr

/-- The text of an error. -/
def ProtocolError.text : ProtocolError → String
  | .truncated => "frame body truncated"
  | .unknownVersion version => "protocol version " ++ toString version ++ " unknown"
  | .unknownMessage tag => "message type " ++ toString tag ++ " unknown"
  | .unknownSide side => "side byte " ++ toString side ++ " unknown"
  | .unknownKindTag tag => "order kind tag " ++ toString tag ++ " unknown"
  | .unknownExecType tag => "exec type " ++ toString tag ++ " unknown"
  | .unknownReason reason => "done reason " ++ toString reason ++ " unknown"
  | .trailingBytes => "frame body had trailing bytes"

/-- Messages the client sends to the server. -/
inductive ClientMessage where
  | newOrder (order : NewOrder)
  | cancel (id : OrderId)
  deriving DecidableEq, Repr

/-- Messages the server sends back. -/
inductive ServerMessage where
  | execution (event : Event)
  deriving DecidableEq, Repr

/-! ## Encoding -/

def encodeSide : Side → UInt8
  | .buy => sideBuy
  | .sell => sideSell

def encodeKind : OrderKind → Bytes
  | .limit price => kindLimit :: Bytes.ofI64 price.raw
  | .market => [kindMarket]
  | .ioc price => kindIoc :: Bytes.ofI64 price.raw
  | .postOnly price => kindPostOnly :: Bytes.ofI64 price.raw
  | .fok price => kindFok :: Bytes.ofI64 price.raw

/-- The bytes `encode_new_order` appends. -/
def encodeNewOrder (order : NewOrder) : Bytes :=
  Bytes.ofU64 order.id.get ++ encodeSide order.side :: (Bytes.ofU64 order.qty.get ++
    (encodeKind order.kind ++ Bytes.ofI64 order.timestamp.nanos))

def encodeReason : DoneReason → UInt8
  | .filled => reasonFilled
  | .cancelled => reasonCancelled
  | .expired => reasonExpired
  | .noLiquidity => reasonNoLiquidity
  | .rejected => reasonRejected

/-- The bytes `encode_event` appends. -/
def encodeEvent : Event → Bytes
  | .accepted id qty seq =>
      execAccepted :: (Bytes.ofU64 id.get ++ (Bytes.ofU64 qty.get ++ Bytes.ofU64 seq.get))
  | .trade taker maker price qty seq =>
      execTrade :: (Bytes.ofU64 taker.get ++ (Bytes.ofU64 maker.get ++
        (Bytes.ofI64 price.raw ++ (Bytes.ofU64 qty.get ++ Bytes.ofU64 seq.get))))
  | .done id leavesQty reason seq =>
      execDone :: (Bytes.ofU64 id.get ++ (Bytes.ofU64 leavesQty.get ++
        encodeReason reason :: Bytes.ofU64 seq.get))

/-- What a client message puts behind the length. -/
def clientBody : ClientMessage → Bytes
  | .newOrder order => protocolVersion :: msgNewOrder :: encodeNewOrder order
  | .cancel id => protocolVersion :: msgCancel :: Bytes.ofU64 id.get

/-- What a server message puts behind the length. -/
def serverBody : ServerMessage → Bytes
  | .execution event => protocolVersion :: msgExecution :: encodeEvent event

/-- `u32::try_from(len).unwrap_or(u32::MAX)`. -/
def clampU32 (len : Nat) : UInt32 :=
  if len < 2 ^ 32 then UInt32.ofNat len else UInt32.ofNat (2 ^ 32 - 1)

/-- Append a frame: a placeholder, the body, and then the length in place of the
placeholder. -/
def encodeFrame (body out : Bytes) : Bytes :=
  let frameStart := out.length
  let out := out ++ [0, 0, 0, 0] ++ body
  let bodyLen := out.length - frameStart - 4
  let lenBytes := Bytes.ofU32 (clampU32 bodyLen)
  out.take frameStart ++ lenBytes ++ out.drop (frameStart + 4)

def encodeClient (message : ClientMessage) (out : Bytes) : Bytes :=
  encodeFrame (clientBody message) out

def encodeServer (message : ServerMessage) (out : Bytes) : Bytes :=
  encodeFrame (serverBody message) out

/-! ## Decoding -/

/-- A cursor is the part of the body that has not been read. A read beyond its end is
`Truncated`. -/
def Cursor.read {α : Type} (taken : Option (α × Bytes)) : Except ProtocolError (α × Bytes) :=
  match taken with
  | some read => .ok read
  | none => .error .truncated

def decodeSide (byte : UInt8) : Except ProtocolError Side :=
  if byte = sideBuy then .ok .buy
  else if byte = sideSell then .ok .sell
  else .error (.unknownSide byte)

/-- The price of a priced order kind. -/
def decodePriced (kind : Price → OrderKind) (cursor : Bytes) :
    Except ProtocolError (OrderKind × Bytes) := do
  let (price, cursor) ← Cursor.read cursor.readI64
  return (kind (.fromRaw price), cursor)

def decodeKind (tag : UInt8) (cursor : Bytes) : Except ProtocolError (OrderKind × Bytes) :=
  if tag = kindLimit then decodePriced .limit cursor
  else if tag = kindMarket then .ok (.market, cursor)
  else if tag = kindIoc then decodePriced .ioc cursor
  else if tag = kindPostOnly then decodePriced .postOnly cursor
  else if tag = kindFok then decodePriced .fok cursor
  else .error (.unknownKindTag tag)

/-- `decode_new_order`, with the cursor behind it. -/
def decodeNewOrder (cursor : Bytes) : Except ProtocolError (NewOrder × Bytes) := do
  let (id, cursor) ← Cursor.read cursor.readU64
  let (sideByte, cursor) ← Cursor.read cursor.readU8
  let side ← decodeSide sideByte
  let (qty, cursor) ← Cursor.read cursor.readU64
  let (kindTag, cursor) ← Cursor.read cursor.readU8
  let (kind, cursor) ← decodeKind kindTag cursor
  let (nanos, cursor) ← Cursor.read cursor.readI64
  return (⟨.new id, side, .new qty, kind, .fromNanos nanos⟩, cursor)

def decodeReason (byte : UInt8) : Except ProtocolError DoneReason :=
  if byte = reasonFilled then .ok .filled
  else if byte = reasonCancelled then .ok .cancelled
  else if byte = reasonExpired then .ok .expired
  else if byte = reasonNoLiquidity then .ok .noLiquidity
  else if byte = reasonRejected then .ok .rejected
  else .error (.unknownReason byte)

/-- `decode_event`, with the cursor behind it. -/
def decodeEvent (cursor : Bytes) : Except ProtocolError (Event × Bytes) := do
  let (tag, cursor) ← Cursor.read cursor.readU8
  if tag = execAccepted then
    let (id, cursor) ← Cursor.read cursor.readU64
    let (qty, cursor) ← Cursor.read cursor.readU64
    let (seq, cursor) ← Cursor.read cursor.readU64
    return (.accepted (.new id) (.new qty) (.fromRaw seq), cursor)
  else if tag = execTrade then
    let (taker, cursor) ← Cursor.read cursor.readU64
    let (maker, cursor) ← Cursor.read cursor.readU64
    let (price, cursor) ← Cursor.read cursor.readI64
    let (qty, cursor) ← Cursor.read cursor.readU64
    let (seq, cursor) ← Cursor.read cursor.readU64
    return (.trade (.new taker) (.new maker) (.fromRaw price) (.new qty) (.fromRaw seq), cursor)
  else if tag = execDone then
    let (id, cursor) ← Cursor.read cursor.readU64
    let (leavesQty, cursor) ← Cursor.read cursor.readU64
    let (reasonByte, cursor) ← Cursor.read cursor.readU8
    let reason ← decodeReason reasonByte
    let (seq, cursor) ← Cursor.read cursor.readU64
    return (.done (.new id) (.new leavesQty) reason (.fromRaw seq), cursor)
  else throw (.unknownExecType tag)

/-- A client message of a known type, with the cursor behind it. -/
def decodeClientTag (tag : UInt8) (cursor : Bytes) :
    Except ProtocolError (ClientMessage × Bytes) := do
  if tag = msgNewOrder then
    let (order, cursor) ← decodeNewOrder cursor
    return (.newOrder order, cursor)
  else if tag = msgCancel then
    let (id, cursor) ← Cursor.read cursor.readU64
    return (.cancel (.new id), cursor)
  else throw (.unknownMessage tag)

/-- A server message of a known type, with the cursor behind it. -/
def decodeServerTag (tag : UInt8) (cursor : Bytes) :
    Except ProtocolError (ServerMessage × Bytes) := do
  if tag = msgExecution then
    let (event, cursor) ← decodeEvent cursor
    return (.execution event, cursor)
  else throw (.unknownMessage tag)

/-- Version, type, payload, and nothing behind it. -/
def decodeBody {α : Type} (decodeTag : UInt8 → Bytes → Except ProtocolError (α × Bytes))
    (body : Bytes) : Except ProtocolError α := do
  let (version, cursor) ← Cursor.read body.readU8
  if version ≠ protocolVersion then throw (.unknownVersion version)
  let (tag, cursor) ← Cursor.read cursor.readU8
  let (message, cursor) ← decodeTag tag cursor
  if cursor ≠ [] then throw .trailingBytes
  return message

def decodeClient (body : Bytes) : Except ProtocolError ClientMessage :=
  decodeBody decodeClientTag body

def decodeServer (body : Bytes) : Except ProtocolError ServerMessage :=
  decodeBody decodeServerTag body

/-! ## Round trips -/

@[simp] theorem Cursor.read_some {α : Type} (read : α × Bytes) :
    Cursor.read (some read) = .ok read := rfl

@[simp] theorem decodeSide_encodeSide (side : Side) :
    decodeSide (encodeSide side) = .ok side := by
  cases side <;> rfl

@[simp] theorem decodeReason_encodeReason (reason : DoneReason) :
    decodeReason (encodeReason reason) = .ok reason := by
  cases reason <;> rfl

@[simp] theorem decodePriced_append (kind : Price → OrderKind) (price : Price)
    (rest : Bytes) :
    decodePriced kind (Bytes.ofI64 price.raw ++ rest) = .ok (kind price, rest) := by
  simp [decodePriced]

/-- What is read of an encoded kind. -/
theorem decodeKind_encodeKind (kind : OrderKind) (rest : Bytes) :
    ∃ tag payload, encodeKind kind = tag :: payload ∧
      decodeKind tag (payload ++ rest) = .ok (kind, rest) := by
  cases kind with
  | limit price => exact ⟨_, _, rfl, decodePriced_append ..⟩
  | market => exact ⟨_, _, rfl, rfl⟩
  | ioc price => exact ⟨_, _, rfl, decodePriced_append ..⟩
  | postOnly price => exact ⟨_, _, rfl, decodePriced_append ..⟩
  | fok price => exact ⟨_, _, rfl, decodePriced_append ..⟩

/-- An encoded order is read back, up to what follows it. -/
theorem decodeNewOrder_encodeNewOrder (order : NewOrder) (rest : Bytes) :
    decodeNewOrder (encodeNewOrder order ++ rest) = .ok (order, rest) := by
  rcases decodeKind_encodeKind order.kind
    (Bytes.ofI64 order.timestamp.nanos ++ rest) with ⟨tag, payload, encoded, decoded⟩
  simp [decodeNewOrder, encodeNewOrder, encoded, decoded]

/-- An encoded event is read back, up to what follows it. -/
theorem decodeEvent_encodeEvent (event : Event) (rest : Bytes) :
    decodeEvent (encodeEvent event ++ rest) = .ok (event, rest) := by
  cases event with
  | accepted id qty seq => simp [decodeEvent, encodeEvent]
  | trade taker maker price qty seq =>
      have notAccepted : execTrade ≠ execAccepted := by decide
      simp [decodeEvent, encodeEvent, notAccepted]
  | done id leavesQty reason seq =>
      have notAccepted : execDone ≠ execAccepted := by decide
      have notTrade : execDone ≠ execTrade := by decide
      simp [decodeEvent, encodeEvent, notAccepted, notTrade]

/-- A body that ends with its message. -/
theorem decodeBody_of_tag {α : Type}
    {decodeTag : UInt8 → Bytes → Except ProtocolError (α × Bytes)} {tag : UInt8}
    {payload : Bytes} {message : α} (decoded : decodeTag tag payload = .ok (message, [])) :
    decodeBody decodeTag (protocolVersion :: tag :: payload) = .ok message := by
  simp only [decodeBody, Bytes.readU8_cons, Cursor.read_some, ok_bind, decoded]
  rfl

theorem decodeClient_clientBody (message : ClientMessage) :
    decodeClient (clientBody message) = .ok message := by
  cases message with
  | newOrder order =>
      have decoded := decodeNewOrder_encodeNewOrder order []
      rw [List.append_nil] at decoded
      apply decodeBody_of_tag
      simp [decodeClientTag, decoded]
  | cancel id =>
      have decoded := Bytes.readU64_append id.get []
      have notNew : msgCancel ≠ msgNewOrder := by decide
      rw [List.append_nil] at decoded
      apply decodeBody_of_tag
      simp [decodeClientTag, decoded, notNew]

theorem decodeServer_serverBody (message : ServerMessage) :
    decodeServer (serverBody message) = .ok message := by
  cases message with
  | execution event =>
      have decoded := decodeEvent_encodeEvent event []
      rw [List.append_nil] at decoded
      apply decodeBody_of_tag
      simp [decodeServerTag, decoded]

/-! ## Frames -/

theorem length_clientBody (message : ClientMessage) : (clientBody message).length ≤ 36 := by
  cases message with
  | newOrder order =>
      cases kind : order.kind <;> simp [clientBody, encodeNewOrder, encodeKind, kind]
  | cancel id => simp [clientBody]

theorem length_serverBody (message : ServerMessage) : (serverBody message).length ≤ 43 := by
  cases message with
  | execution event => cases event <;> simp [serverBody, encodeEvent]

/-- The length is that of the body, and what was in the buffer stays. -/
theorem encodeFrame_eq {body : Bytes} (fits : body.length < 2 ^ 32) (out : Bytes) :
    encodeFrame body out = out ++ Framing.frame body := by
  have size : (out ++ [0, 0, 0, 0] ++ body).length - out.length - 4 = body.length := by
    simp only [List.length_append, List.length_cons, List.length_nil]
    omega
  have front : (out ++ [0, 0, 0, 0] ++ body).take out.length = out := by
    rw [List.append_assoc, List.take_left]
  have back : (out ++ [0, 0, 0, 0] ++ body).drop (out.length + 4) = body :=
    List.drop_left' (by simp)
  simp only [encodeFrame, size, front, back, clampU32, if_pos fits]
  rw [Framing.frame, List.append_assoc]

end Protocol

end Bourse
