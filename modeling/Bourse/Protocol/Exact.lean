import Bourse.Protocol.Codec

/-!
# What the decoders of the wire protocol accept

Every decoder reads what the encoder of its type writes and nothing else: if it succeeds,
the bytes it consumed are the encoding of the value it returns.  With the round trips this
makes a body acceptable exactly when it is the body of the decoded message.
-/

namespace Bourse

namespace Protocol

variable {cursor rest body : Bytes}

theorem Cursor.read_eq_ok {α : Type} {taken : Option (α × Bytes)} {read : α × Bytes}
    (ok : Cursor.read taken = .ok read) : taken = some read := by
  cases taken with
  | none => cases ok
  | some taken =>
      cases ok
      rfl

theorem Cursor.readU8_eq_ok {byte : UInt8}
    (ok : Cursor.read cursor.readU8 = .ok (byte, rest)) : cursor = byte :: rest :=
  Bytes.readU8_eq_some (Cursor.read_eq_ok ok)

theorem Cursor.readU64_eq_ok {value : UInt64}
    (ok : Cursor.read cursor.readU64 = .ok (value, rest)) :
    cursor = Bytes.ofU64 value ++ rest :=
  Bytes.readU64_eq_some (Cursor.read_eq_ok ok)

theorem Cursor.readI64_eq_ok {value : Int64}
    (ok : Cursor.read cursor.readI64 = .ok (value, rest)) :
    cursor = Bytes.ofI64 value ++ rest :=
  Bytes.readI64_eq_some (Cursor.read_eq_ok ok)

/-! ## Single bytes -/

theorem decodeSide_eq_ok {byte : UInt8} {side : Side} (ok : decodeSide byte = .ok side) :
    byte = encodeSide side := by
  unfold decodeSide at ok
  split at ok
  next buy =>
    cases ok
    exact buy
  next =>
    split at ok
    next sell =>
      cases ok
      exact sell
    next => cases ok

theorem decodeReason_eq_ok {byte : UInt8} {reason : DoneReason}
    (ok : decodeReason byte = .ok reason) : byte = encodeReason reason := by
  unfold decodeReason at ok
  repeat' split at ok
  all_goals
    cases ok
    try assumption

/-! ## Orders and events -/

theorem decodePriced_eq_ok {kind : Price → OrderKind} {value : OrderKind}
    (ok : decodePriced kind cursor = .ok (value, rest)) :
    ∃ price : Price, value = kind price ∧ cursor = Bytes.ofI64 price.raw ++ rest := by
  rcases bind_eq_ok.mp ok with ⟨⟨price, after⟩, priceRead, done⟩
  cases done
  exact ⟨.fromRaw price, rfl, Cursor.readI64_eq_ok priceRead⟩

theorem decodeKind_eq_ok {tag : UInt8} {kind : OrderKind}
    (ok : decodeKind tag cursor = .ok (kind, rest)) :
    tag :: cursor = encodeKind kind ++ rest := by
  unfold decodeKind at ok
  split at ok
  next limit =>
    rcases decodePriced_eq_ok ok with ⟨price, rfl, rfl⟩
    rw [limit]
    rfl
  split at ok
  next market =>
    cases ok
    rw [market]
    rfl
  split at ok
  next ioc =>
    rcases decodePriced_eq_ok ok with ⟨price, rfl, rfl⟩
    rw [ioc]
    rfl
  split at ok
  next postOnly =>
    rcases decodePriced_eq_ok ok with ⟨price, rfl, rfl⟩
    rw [postOnly]
    rfl
  split at ok
  next fok =>
    rcases decodePriced_eq_ok ok with ⟨price, rfl, rfl⟩
    rw [fok]
    rfl
  next => cases ok

theorem decodeNewOrder_eq_ok {order : NewOrder}
    (ok : decodeNewOrder cursor = .ok (order, rest)) :
    cursor = encodeNewOrder order ++ rest := by
  rcases bind_eq_ok.mp ok with ⟨⟨id, behindId⟩, idRead, ok⟩
  rcases bind_eq_ok.mp ok with ⟨⟨sideByte, behindSide⟩, sideRead, ok⟩
  rcases bind_eq_ok.mp ok with ⟨side, sideDecoded, ok⟩
  rcases bind_eq_ok.mp ok with ⟨⟨qty, behindQty⟩, qtyRead, ok⟩
  rcases bind_eq_ok.mp ok with ⟨⟨kindTag, behindTag⟩, tagRead, ok⟩
  rcases bind_eq_ok.mp ok with ⟨⟨kind, behindKind⟩, kindDecoded, ok⟩
  rcases bind_eq_ok.mp ok with ⟨⟨nanos, behindNanos⟩, nanosRead, ok⟩
  cases ok
  have kindBytes := decodeKind_eq_ok kindDecoded
  rw [Cursor.readI64_eq_ok nanosRead] at kindBytes
  rw [Cursor.readU64_eq_ok idRead, Cursor.readU8_eq_ok sideRead,
    Cursor.readU64_eq_ok qtyRead, Cursor.readU8_eq_ok tagRead, kindBytes,
    decodeSide_eq_ok sideDecoded]
  simp [encodeNewOrder]

theorem decodeEvent_eq_ok {event : Event} (ok : decodeEvent cursor = .ok (event, rest)) :
    cursor = encodeEvent event ++ rest := by
  rcases bind_eq_ok.mp ok with ⟨⟨tag, behindTag⟩, tagRead, ok⟩
  rw [Cursor.readU8_eq_ok tagRead]
  change ite _ _ _ = _ at ok
  split at ok
  next accepted =>
    rcases bind_eq_ok.mp ok with ⟨⟨id, behindId⟩, idRead, ok⟩
    rcases bind_eq_ok.mp ok with ⟨⟨qty, behindQty⟩, qtyRead, ok⟩
    rcases bind_eq_ok.mp ok with ⟨⟨seq, behindSeq⟩, seqRead, ok⟩
    cases ok
    rw [accepted, Cursor.readU64_eq_ok idRead, Cursor.readU64_eq_ok qtyRead,
      Cursor.readU64_eq_ok seqRead]
    simp [encodeEvent]
  split at ok
  next trade =>
    rcases bind_eq_ok.mp ok with ⟨⟨taker, behindTaker⟩, takerRead, ok⟩
    rcases bind_eq_ok.mp ok with ⟨⟨maker, behindMaker⟩, makerRead, ok⟩
    rcases bind_eq_ok.mp ok with ⟨⟨price, behindPrice⟩, priceRead, ok⟩
    rcases bind_eq_ok.mp ok with ⟨⟨qty, behindQty⟩, qtyRead, ok⟩
    rcases bind_eq_ok.mp ok with ⟨⟨seq, behindSeq⟩, seqRead, ok⟩
    cases ok
    rw [trade, Cursor.readU64_eq_ok takerRead, Cursor.readU64_eq_ok makerRead,
      Cursor.readI64_eq_ok priceRead, Cursor.readU64_eq_ok qtyRead,
      Cursor.readU64_eq_ok seqRead]
    simp [encodeEvent]
  split at ok
  next done =>
    rcases bind_eq_ok.mp ok with ⟨⟨id, behindId⟩, idRead, ok⟩
    rcases bind_eq_ok.mp ok with ⟨⟨leavesQty, behindQty⟩, qtyRead, ok⟩
    rcases bind_eq_ok.mp ok with ⟨⟨reasonByte, behindReason⟩, reasonRead, ok⟩
    rcases bind_eq_ok.mp ok with ⟨reason, reasonDecoded, ok⟩
    rcases bind_eq_ok.mp ok with ⟨⟨seq, behindSeq⟩, seqRead, ok⟩
    cases ok
    rw [done, Cursor.readU64_eq_ok idRead, Cursor.readU64_eq_ok qtyRead,
      Cursor.readU8_eq_ok reasonRead, Cursor.readU64_eq_ok seqRead,
      decodeReason_eq_ok reasonDecoded]
    simp [encodeEvent]
  next => cases ok

/-! ## Bodies -/

/-- An accepted body is a version, a tag and all that the tag's decoder consumes. -/
theorem decodeBody_eq_ok {α : Type}
    {decodeTag : UInt8 → Bytes → Except ProtocolError (α × Bytes)} {message : α}
    (ok : decodeBody decodeTag body = .ok message) :
    ∃ tag payload, body = protocolVersion :: tag :: payload ∧
      decodeTag tag payload = .ok (message, []) := by
  rcases bind_eq_ok.mp ok with ⟨⟨version, behindVersion⟩, versionRead, ok⟩
  simp only at ok
  split at ok
  · cases ok
  next known =>
    rcases bind_eq_ok.mp ok with ⟨⟨tag, payload⟩, tagRead, ok⟩
    rcases bind_eq_ok.mp ok with ⟨⟨value, left⟩, decoded, ok⟩
    simp only at ok
    split at ok
    · cases ok
    next nothing =>
      cases ok
      rw [not_not.mp nothing] at decoded
      refine ⟨tag, payload, ?_, decoded⟩
      rw [Cursor.readU8_eq_ok versionRead, Cursor.readU8_eq_ok tagRead, not_not.mp known]

/-- A client body is accepted exactly if it is the body of its message. -/
theorem decodeClient_eq_ok {message : ClientMessage} :
    decodeClient body = .ok message ↔ body = clientBody message := by
  constructor
  · intro ok
    rcases decodeBody_eq_ok ok with ⟨tag, payload, rfl, decoded⟩
    unfold decodeClientTag at decoded
    split at decoded
    next newOrder =>
      rcases bind_eq_ok.mp decoded with ⟨⟨order, left⟩, orderDecoded, decoded⟩
      cases decoded
      rw [decodeNewOrder_eq_ok orderDecoded, newOrder, List.append_nil]
      rfl
    split at decoded
    next cancel =>
      rcases bind_eq_ok.mp decoded with ⟨⟨id, left⟩, idRead, decoded⟩
      cases decoded
      rw [Cursor.readU64_eq_ok idRead, cancel, List.append_nil]
      rfl
    next => cases decoded
  · intro encoded
    rw [encoded]
    exact decodeClient_clientBody message

/-- A server body is accepted exactly if it is the body of its message. -/
theorem decodeServer_eq_ok {message : ServerMessage} :
    decodeServer body = .ok message ↔ body = serverBody message := by
  constructor
  · intro ok
    rcases decodeBody_eq_ok ok with ⟨tag, payload, rfl, decoded⟩
    unfold decodeServerTag at decoded
    split at decoded
    next execution =>
      rcases bind_eq_ok.mp decoded with ⟨⟨event, left⟩, eventDecoded, decoded⟩
      cases decoded
      rw [decodeEvent_eq_ok eventDecoded, execution, List.append_nil]
      rfl
    next => cases decoded
  · intro encoded
    rw [encoded]
    exact decodeServer_serverBody message

/-! ## Encoders and decoders together -/

/-- What a codec promises: encoding appends a length and a body of that length to the
buffer, and a body is decoded as the message exactly if it is this one. -/
def Codec.Exact {α : Type} (encode : α → Bytes → Bytes)
    (decode : Bytes → Except ProtocolError α) : Prop :=
  ∀ message out, ∃ len : UInt32, ∃ body : Bytes,
    encode message out = out ++ (Bytes.ofU32 len ++ body) ∧ len.toNat = body.length ∧
    ∀ other, decode other = .ok message ↔ other = body

/-- Appending a frame makes a codec exact, if its bodies are short and its decoder accepts
nothing else. -/
theorem Codec.Exact.ofBody {α : Type} {toBody : α → Bytes}
    {decode : Bytes → Except ProtocolError α}
    (short : ∀ message, (toBody message).length < 2 ^ 32)
    (accepts : ∀ message other, decode other = .ok message ↔ other = toBody message) :
    Codec.Exact (fun message out => encodeFrame (toBody message) out) decode := by
  intro message out
  refine ⟨UInt32.ofNat (toBody message).length, toBody message, ?_, ?_, accepts message⟩
  · exact encodeFrame_eq (short message) out
  · rw [UInt32.toNat_ofNat', Nat.mod_eq_of_lt (short message)]

/-- Both decoders accept exactly what the encoders write, and every message has exactly one
accepted encoding. -/
theorem decoders_accept_encodings :
    Codec.Exact encodeClient decodeClient ∧ Codec.Exact encodeServer decodeServer ∧
    (∀ message, ∃! body, decodeClient body = .ok message) ∧
    (∀ message, ∃! body, decodeServer body = .ok message) := by
  refine ⟨?_, ?_, ?_, ?_⟩
  · apply Codec.Exact.ofBody
    · intro message
      exact (length_clientBody message).trans_lt (by decide)
    · exact fun message other => decodeClient_eq_ok
  · apply Codec.Exact.ofBody
    · intro message
      exact (length_serverBody message).trans_lt (by decide)
    · exact fun message other => decodeServer_eq_ok
  · intro message
    exact ⟨clientBody message, decodeClient_clientBody message,
      fun other ok => decodeClient_eq_ok.mp ok⟩
  · intro message
    exact ⟨serverBody message, decodeServer_serverBody message,
      fun other ok => decodeServer_eq_ok.mp ok⟩

-- A byte behind an encoded cancel is refused.
example : decodeClient (clientBody (.cancel ⟨7⟩) ++ [0]) = .error .trailingBytes := by decide

end Protocol

end Bourse
