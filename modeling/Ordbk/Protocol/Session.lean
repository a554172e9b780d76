import Ordbk.Protocol.Codec

/-!
# Protocol/Session — framing a byte stream, and the state of one connection

`Framer` cuts the inbound stream into messages (`framer.cpp`); `Session` adds the log-on state and
the outbound queue (`session.cpp`).
-/

namespace Ordbk

/-- `Framer::Error`; `None` is `none` here. -/
inductive FramerError
  | badVersion
  | oversizeBody
  | badBody
  deriving DecidableEq, Repr

/-- The bytes that are not a message yet. -/
structure Framer where
  /-- `buf_`, from the first byte not consumed yet. -/
  buf : List Byte := []
  /-- Once set it stays. -/
  error : Option FramerError := none
  deriving DecidableEq, Repr

namespace Framer

/-- After an error all further input is dropped. -/
def feed (f : Framer) (data : List Byte) : Framer :=
  if f.error.isSome then f else { f with buf := f.buf ++ data }

/-- The next message, if a whole one is buffered. -/
def next (f : Framer) : Framer × Option DecodedMessage :=
  if f.error.isSome then (f, none)
  else if f.buf.length < kHeaderSize then (f, none)
  else match decodeHeader.run' (f.buf.take kHeaderSize) with
    | none => (f, none)
    | some header =>
      if header.protocolVersion ≠ kProtocolVersion then ({ f with error := some .badVersion }, none)
      else if header.bodyLength.toNat > kMaxBodySize then
        ({ f with error := some .oversizeBody }, none)
      else
        let total := kHeaderSize + header.bodyLength.toNat
        if f.buf.length < total then (f, none)
        else match decodeBody header ((f.buf.drop kHeaderSize).take header.bodyLength.toNat) with
          | none => ({ f with error := some .badBody }, none)
          | some body => ({ f with buf := f.buf.drop total }, some ⟨header, body⟩)

/-- **All that `next` can do**: wait, refuse, or take the bytes of one message off the buffer. -/
theorem next_cases (f : Framer) :
    f.next = (f, none)
      ∨ (∃ err, f.next = ({ f with error := some err }, none))
      ∨ ∃ n msg, kHeaderSize ≤ n ∧ n ≤ f.buf.length
        ∧ f.next = ({ f with buf := f.buf.drop n }, some msg) := by
  unfold next
  split
  · exact .inl rfl
  split
  · exact .inl rfl
  split
  · exact .inl rfl
  split
  · exact .inr (.inl ⟨_, rfl⟩)
  split
  · exact .inr (.inl ⟨_, rfl⟩)
  simp only
  split
  · exact .inl rfl
  rename_i hlen
  split
  · exact .inr (.inl ⟨_, rfl⟩)
  · exact .inr (.inr ⟨_, _, Nat.le_add_right _ _, Nat.le_of_not_lt hlen, rfl⟩)

/-- **A message costs its bytes**: at least a header's worth. -/
theorem length_next {f f' : Framer} {msg : DecodedMessage} (h : f.next = (f', some msg)) :
    f'.buf.length + kHeaderSize ≤ f.buf.length := by
  obtain hn | ⟨err, hn⟩ | ⟨n, msg', hle, hlen, hn⟩ := f.next_cases
  · simp [hn] at h
  · simp [hn] at h
  · rw [hn] at h
    obtain ⟨rfl, -⟩ := Prod.mk.inj h
    simp only [List.length_drop]
    omega

/-- Without new bytes there is still no message. -/
theorem next_next {f f' : Framer} (h : f.next = (f', none)) : f'.next.2 = none := by
  obtain hn | ⟨err, hn⟩ | ⟨n, msg, -, -, hn⟩ := f.next_cases
  · rw [hn] at h
    obtain ⟨rfl, -⟩ := Prod.mk.inj h
    rw [hn]
  · rw [hn] at h
    obtain ⟨rfl, -⟩ := Prod.mk.inj h
    rfl
  · simp [hn] at h

end Framer

/-- `Session::State`. -/
inductive SessionState
  | notLoggedOn
  | active
  | closing
  deriving DecidableEq, Repr

/-- One connection.  `sent` is ghost: every body ever given to `emit`, in order. -/
structure Session where
  /-- Given by the server, in the order of the connections. -/
  sessionId : UInt64
  /-- Only `Logon` and `Logout` change it. -/
  state : SessionState := .notLoggedOn
  /-- From the `Logon`; it is written into every order. -/
  clientId : ClientId := 0
  /-- The number of the last frame queued. -/
  outSeq : UInt32 := 0
  /-- What has come in and is no message yet. -/
  framer : Framer := {}
  /-- Encoded, and not taken to be sent yet. -/
  outbound : List Byte := []
  sent : List MessageBody := []

namespace Session

def onBytes (s : Session) (data : List Byte) : Session := { s with framer := s.framer.feed data }

def nextInbound (s : Session) : Session × Option DecodedMessage :=
  ({ s with framer := s.framer.next.1 }, s.framer.next.2)

/-- `emit`, with the next outbound sequence number. -/
def emit (s : Session) (body : MessageBody) : Session :=
  { s with
    outSeq := s.outSeq + 1
    outbound := s.outbound ++ encode (s.outSeq + 1) body
    sent := s.sent ++ [body] }

/-- Move all queued outbound bytes out. -/
def takeOutbound (s : Session) : Session × List Byte := ({ s with outbound := [] }, s.outbound)

variable (s : Session) (body : MessageBody)

@[simp] theorem state_emit : (s.emit body).state = s.state := rfl

@[simp] theorem clientId_emit : (s.emit body).clientId = s.clientId := rfl

@[simp] theorem framer_emit : (s.emit body).framer = s.framer := rfl

@[simp] theorem sent_emit : (s.emit body).sent = s.sent ++ [body] := rfl

end Session

end Ordbk
