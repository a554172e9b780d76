import Ordbk.Gateway.Net
import Ordbk.Refinement.Phases
import Ordbk.Theorems.Conversation

/-!
# Refinement/Net — both directions of a connection

In each direction the bytes that have come out, those on the way and those still to be handed over
are the frames of what was said, and the framer at the far end has taken the first of them
(`Upward`, `Downward`).  Every move keeps this for every connection (`talks_step`).
-/

namespace Ordbk

namespace Pipe

variable {p p' : Pipe} {room n : ℕ} {data : List Byte}

/-- Handing bytes to the socket moves them along the pipe, -/
theorem send_eq_some (h : p.send room n = some p') : p'.stream = p.stream ∧ p'.read = p.read := by
  rw [send, Option.ite_none_right_eq_some] at h
  obtain ⟨-, h⟩ := h
  obtain rfl := Option.some.inj h
  refine ⟨?_, rfl⟩
  simp only [stream, List.append_assoc, List.take_append_drop]

/-- and so does taking them out at the other end. -/
theorem recvSome_eq_some (h : p.recvSome n = some (p', data)) :
    p'.stream = p.stream ∧ p'.read = p.read ++ data ∧ p'.unsent = p.unsent := by
  rw [recvSome, Option.ite_none_right_eq_some] at h
  obtain ⟨-, h⟩ := h
  obtain ⟨rfl, rfl⟩ := Prod.mk.inj (Option.some.inj h)
  refine ⟨?_, rfl, rfl⟩
  simp only [stream, List.append_assoc, List.take_append_drop]

/-- A new message goes behind the others, if they are all handed over. -/
theorem stream_sendAll (h : p.unsent = []) : (p.sendAll data).stream = p.stream ++ data := by
  simp only [stream, sendAll, h, List.append_nil]

/-- What has come out is the first part. -/
theorem read_prefix (p : Pipe) : p.read <+: p.stream := by
  rw [stream, List.append_assoc]
  exact List.prefix_append _ _

end Pipe

/-! ## A framer at the far end

The framer does not see messages, only bytes as they come. `Hears read ms f`: of the bytes `read` it
has delivered the messages `ms`, and has the rest in its buffer. -/

namespace Framer

variable {read data : List Byte} {ms : List DecodedMessage} {f : Framer}
  {bodies : List MessageBody}

/-- **A framer in the middle of a stream**: what it has delivered is off the front, the rest is
buffered, and it has nothing to complain about. -/
structure Hears (read : List Byte) (ms : List DecodedMessage) (f : Framer) : Prop where
  /-- It has met no error, -/
  error : f.error = none
  /-- and the messages it has taken are the first of what it was given. -/
  takes : cutter.Takes read ms f.buf

/-- Nothing given, nothing taken. -/
theorem hears_new : Hears [] [] {} := ⟨rfl, .nil []⟩

/-- More bytes go behind the others. -/
theorem Hears.feed (h : Hears read ms f) (data : List Byte) :
    Hears (read ++ data) ms (f.feed data) := by
  have hfeed : f.feed data = { f with buf := f.buf ++ data } := by
    simp only [Framer.feed, h.error, Option.isSome_none, Bool.false_eq_true, if_false]
  rw [hfeed]
  exact ⟨h.error, h.takes.append data⟩

/-- **What `next` does in a conversation**: it waits, or delivers one more message. -/
theorem Hears.next (h : Hears read ms f) (hpre : read <+: (Session.frames bodies).flatten) :
    (f.next = (f, none) ∧ look f.buf = .wait)
      ∨ ∃ f' msg, f.next = (f', some msg) ∧ Hears read (ms ++ [msg]) f' := by
  obtain ⟨more, hmore⟩ := hpre
  have hcuts : cutter.Cuts (read ++ more) (Session.received bodies) [] none := by
    rw [hmore]
    exact cuts_frames _
  have hnext := next_eq h.error
  cases hl : look f.buf with
  | wait => exact .inl ⟨by rw [hnext, hl], rfl⟩
  | bad err => exact absurd hl (h.takes.look_ne_bad hcuts)
  | took msg =>
    refine .inr ⟨{ f with buf := f.buf.drop (frameSize msg) }, msg, ?_, h.error, h.takes.concat hl⟩
    rw [hnext, hl]

/-- **Whole messages, in order.** -/
theorem Hears.prefix_received (h : Hears read ms f)
    (hpre : read <+: (Session.frames bodies).flatten) : ms <+: Session.received bodies := by
  obtain ⟨more, hmore⟩ := hpre
  have htakes := h.takes.append more
  rw [hmore] at htakes
  obtain ⟨ms', hms', -⟩ := htakes.cuts_rest (cuts_frames _)
  exact ⟨ms', hms'.symm⟩

/-- With all bytes in and the framer waiting, all messages are delivered. -/
theorem Hears.eq_received (h : Hears read ms f) (hread : read = (Session.frames bodies).flatten)
    (hl : look f.buf = .wait) : ms = Session.received bodies := by
  have htakes := h.takes
  rw [hread] at htakes
  exact (htakes.eq_of_wait hl (cuts_frames _)).symm

end Framer

/-- A block of replies is queued. -/
theorem Session.Queued.emitAll {s : Session} {bodies : List MessageBody} {taken : List Byte}
    (h : Queued bodies (s, taken)) (block : List MessageBody) :
    Queued (bodies ++ block) (s.emitAll block, taken) := by
  induction block generalizing s bodies with
  | nil =>
    rw [List.append_nil]
    exact h
  | cons b block ih =>
    rw [List.append_cons]
    exact ih (h.out (.emit b))

/-! ## Upward

From the client's `send` through the socket and the session's framer to the messages that were
handled. -/

open Framer (Hears hears_new)

/-- **From a client to its session.**  After a `send` that failed and another one, nothing is
promised: the bytes of a frame may be missing. -/
structure Upward (client : Client) (up : Pipe) (handled : List DecodedMessage) (f : Framer)
    (loop : Loop) : Prop where
  /-- The sequence number is the number of messages said. -/
  outSeq : client.outSeq = UInt32.ofNat client.said.length
  /-- A client none of whose sends failed has not gone astray. -/
  failed : client.failed = false → client.astray = false
  /-- What the socket has been given is the frames of what was said. -/
  said : client.astray = false → up.stream = (Session.frames client.said).flatten
  /-- Between the sends nothing is left to hand over, -/
  unsent : client.call ≠ .sending → client.failed = false → up.unsent = []
  /-- and in the middle of one something is. -/
  sending : client.call = .sending → up.unsent ≠ []
  /-- The session's framer has delivered the messages that were handled. -/
  hears : client.astray = false → Hears up.read handled f
  /-- Unless `pump` is at it, the framer holds no complete message. -/
  waits : client.astray = false → loop ≠ .pumping → loop ≠ .closed → Framer.look f.buf = .wait

/-- **From a session to its client.** -/
structure Downward (s : Session) (loop : Loop) (down : Pipe) (client : Client) : Prop where
  /-- Every message said by the session is in its buffer or in the socket, in order. -/
  queued : Session.Queued s.sent (s, down.stream)
  /-- Only in `pump` are there messages not yet taken to be sent. -/
  outbound : loop ≠ .pumping → loop ≠ .closed → s.outbound = []
  /-- Only in `send_all` are there bytes to hand over, -/
  unsent : loop ≠ .writing → loop ≠ .closed → down.unsent = []
  /-- and then there are. -/
  writing : loop = .writing → down.unsent ≠ []
  /-- The client's framer has delivered what `recv` has returned. -/
  hears : Hears down.read client.returned client.framer
  /-- A client that is waiting for bytes has no complete message to return. -/
  waits : client.call = .receiving → Framer.look client.framer.buf = .wait

/-- Both directions of a connection. -/
structure Talks (c : Connection) (s : Session) : Prop where
  /-- From the client to the session, -/
  up : Upward c.client c.up c.handled s.framer c.loop
  /-- and back. -/
  down : Downward s c.loop c.down c.client

/-- A new connection. -/
theorem talks_start (id : UInt64) : Talks {} { sessionId := id } where
  up := ⟨rfl, fun _ => rfl, fun _ => rfl, fun _ _ => rfl, fun h => (by cases h), fun _ => hears_new,
    fun _ _ _ => rfl⟩
  down := ⟨⟨rfl, rfl⟩, fun _ _ => rfl, fun _ _ => rfl, fun h => (by cases h), hears_new,
    fun h => (by cases h)⟩

/-! ## The moves of a client

`send` writes a frame and hands it over bit by bit, `recv` takes bytes until a message is complete;
either may fail. -/

section Client

variable {c : Connection} {s : Session} {room n : ℕ}

/-- Fields that the session's side of a connection does not look at. -/
theorem Upward.congr {client client' : Client} {up : Pipe} {handled : List DecodedMessage}
    {f : Framer} {loop : Loop} (h : Upward client up handled f loop)
    (hseq : client'.outSeq = client.outSeq) (hsaid : client'.said = client.said)
    (hfailed : client'.failed = client.failed) (hastray : client'.astray = client.astray)
    (hcall : client'.call = .sending ↔ client.call = .sending) :
    Upward client' up handled f loop where
  outSeq := by rw [hseq, hsaid]; exact h.outSeq
  failed := by rw [hfailed, hastray]; exact h.failed
  said := by rw [hastray, hsaid]; exact h.said
  unsent hc hf := h.unsent (mt hcall.mpr hc) (hfailed ▸ hf)
  sending hc := h.sending (hcall.mp hc)
  hears := by rw [hastray]; exact h.hears
  waits := by rw [hastray]; exact h.waits

/-- A `send` begins, -/
theorem Talks.send (h : Talks c s) (hidle : c.client.call = .idle) (body : MessageBody) :
    Talks { c with
      client := (c.client.send body).1
      up := c.up.sendAll (c.client.send body).2 } s := by
  have hnot : c.client.call ≠ .sending := by rw [hidle]; decide
  have hand : (c.client.send body).1.astray = false →
      c.client.astray = false ∧ c.client.failed = false := Bool.or_eq_false_iff.mp
  refine ⟨⟨?_, fun hf => ?_, fun ha => ?_, fun hc => absurd rfl hc, fun _ hnil => ?_, fun ha => ?_,
      fun ha => ?_⟩,
    { h.down with waits := fun hc => (by cases hc) }⟩
  · change c.client.outSeq + 1 = UInt32.ofNat (c.client.said ++ [body]).length
    rw [h.up.outSeq, List.length_append, UInt32.ofNat_add]
    rfl
  · exact Bool.or_eq_false_iff.mpr ⟨h.up.failed hf, hf⟩
  · obtain ⟨ha, hf⟩ := hand ha
    change (c.up.sendAll _).stream = (Session.frames (c.client.said ++ [body])).flatten
    rw [Pipe.stream_sendAll (h.up.unsent hnot hf), h.up.said ha, Session.frames_concat,
      List.flatten_append, List.flatten_singleton, ← h.up.outSeq]
    rfl
  · have hlen := length_encode (c.client.outSeq + 1) body
    rw [show encode (c.client.outSeq + 1) body = [] from hnil] at hlen
    exact absurd hlen (by simp [Framer.frameSize, kHeaderSize]; omega)
  · exact h.up.hears (hand ha).1
  · exact h.up.waits (hand ha).1

/-- goes on, -/
theorem Talks.sent (h : Talks c s) {up : Pipe} (hsend : c.up.send room n = some up) :
    Talks { c with up, client.call := if up.unsent.isEmpty then .idle else .sending } s := by
  obtain ⟨hstream, hread⟩ := Pipe.send_eq_some hsend
  refine ⟨⟨h.up.outSeq, h.up.failed, fun ha => ?_, fun hc hf => ?_, fun hc hnil => ?_, fun ha => ?_,
      h.up.waits⟩,
    { h.down with waits := fun hc => ?_ }⟩
  · exact hstream.trans (h.up.said ha)
  · by_contra hne
    exact hc (if_neg (mt List.isEmpty_iff.mp hne))
  · change (if up.unsent.isEmpty then Client.Call.idle else .sending) = .sending at hc
    rw [if_pos (List.isEmpty_iff.mpr hnil)] at hc
    cases hc
  · change Hears up.read _ _
    rw [hread]
    exact h.up.hears ha
  · change (if up.unsent.isEmpty then Client.Call.idle else .sending) = .receiving at hc
    split_ifs at hc

/-- or fails. -/
theorem Talks.sendFails (h : Talks c s) :
    Talks { c with client := { c.client with call := .idle, failed := true } } s where
  up := { h.up with
    failed := fun hf => (by cases hf)
    unsent := fun _ hf => (by cases hf)
    sending := fun hc => (by cases hc) }
  down := { h.down with waits := fun hc => (by cases hc) }

/-- **The loop of `recv`** ends in `recv_some` or with the next message. -/
theorem Downward.recv {loop : Loop} {down : Pipe} {client : Client}
    (h : Downward s loop down { client with call := .idle }) :
    Downward s loop down client.recv := by
  have hpre : down.read <+: (Session.frames s.sent).flatten := by
    rw [← h.queued.bytes]
    exact down.read_prefix.trans (List.prefix_append _ _)
  have hhears : Hears down.read client.returned client.framer := h.hears
  rcases hhears.next hpre with ⟨hnext, hwait⟩ | ⟨f, msg, hnext, hmore⟩
  · have hrecv : client.recv = { client with call := .receiving } := by
      simp only [Client.recv, hnext, hhears.error, Option.isSome_none, Bool.false_eq_true, if_false]
    rw [hrecv]
    exact { h with waits := fun _ => hwait }
  · have hrecv : client.recv = { client with
        framer := f, call := .idle, returned := client.returned ++ [msg] } := by
      simp only [Client.recv, hnext]
    rw [hrecv]
    exact { h with hears := hmore, waits := fun hc => (by cases hc) }

/-- A look for a message never leaves the client in a `send`, -/
theorem Client.call_recv (client : Client) : client.recv.call ≠ .sending := by
  unfold Client.recv
  split
  · exact Client.Call.noConfusion
  · change (if _ then Client.Call.idle else .receiving) ≠ _
    split_ifs <;> exact Client.Call.noConfusion

/-- is no failure, -/
theorem Client.failed_recv (client : Client) : client.recv.failed = client.failed := by
  unfold Client.recv
  split <;> rfl

/-- and says nothing. -/
theorem Client.same_recv (client : Client) : client.recv.outSeq = client.outSeq
    ∧ client.recv.said = client.said ∧ client.recv.astray = client.astray := by
  unfold Client.recv
  split <;> exact ⟨rfl, rfl, rfl⟩

/-- The session's side does not see it. -/
theorem Upward.recv {client : Client} {up : Pipe} {handled : List DecodedMessage} {f : Framer}
    {loop : Loop} (h : Upward client up handled f loop) (hcall : client.call ≠ .sending) :
    Upward client.recv up handled f loop := by
  obtain ⟨hseq, hsaid, hastray⟩ := client.same_recv
  exact h.congr hseq hsaid client.failed_recv hastray (iff_of_false client.call_recv hcall)

/-- A `recv` begins, -/
theorem Talks.recv (h : Talks c s) (hcall : c.client.call = .idle) :
    Talks { c with client := c.client.recv } s where
  up := h.up.recv (by rw [hcall]; decide)
  down := Downward.recv { h.down with waits := fun hc => (by cases hc) }

/-- gets bytes, -/
theorem Talks.received (h : Talks c s) (hcall : c.client.call = .receiving) {down : Pipe}
    {data : List Byte} (hrecv : c.down.recvSome n = some (down, data)) :
    Talks { c with
      down
      client := { c.client with framer := c.client.framer.feed data }.recv } s := by
  obtain ⟨hstream, hread, hunsent⟩ := Pipe.recvSome_eq_some hrecv
  refine ⟨Upward.recv (h.up.congr rfl rfl rfl rfl .rfl) (by rw [hcall]; decide), Downward.recv ?_⟩
  refine ⟨?_, h.down.outbound, fun hw hc => ?_, fun hw => ?_, ?_, fun hc => (by cases hc)⟩
  · rw [hstream]
    exact h.down.queued
  · rw [hunsent]
    exact h.down.unsent hw hc
  · rw [hunsent]
    exact h.down.writing hw
  · rw [hread]
    exact h.down.hears.feed data

/-- or fails. -/
theorem Talks.recvFails (h : Talks c s) (hcall : c.client.call = .receiving) :
    Talks { c with client := { c.client with call := .idle } } s where
  up := h.up.congr rfl rfl rfl rfl (iff_of_false Client.Call.noConfusion (by rw [hcall]; decide))
  down := { h.down with waits := fun hc => (by cases hc) }

end Client

/-! ## The moves of a session

The loop of `run_session`: read, pump, write, and test whether to go on. -/

section Session

variable {c : Connection} {s : Session} {room n : ℕ}

/-- Testing the condition of the loop. -/
theorem Talks.test (h : Talks c s) (hloop : c.loop = .testing) {loop : Loop}
    (hnext : loop ≠ .writing) : Talks { c with loop } s := by
  have hp : c.loop ≠ .pumping := by rw [hloop]; decide
  have hw : c.loop ≠ .writing := by rw [hloop]; decide
  have hc : c.loop ≠ .closed := by rw [hloop]; decide
  exact ⟨{ h.up with waits := fun ha _ _ => h.up.waits ha hp hc },
    { h.down with
      outbound := fun _ _ => h.down.outbound hp hc
      unsent := fun _ _ => h.down.unsent hw hc
      writing := fun hw => absurd hw hnext }⟩

/-- The loop is left. -/
theorem Talks.closed (h : Talks c s) : Talks { c with loop := .closed } s where
  up := { h.up with waits := fun _ _ hc => absurd rfl hc }
  down := { h.down with
    outbound := fun _ hc => absurd rfl hc
    unsent := fun _ hc => absurd rfl hc
    writing := fun hw => (by cases hw) }

/-- Bytes are read and fed to the framer. -/
theorem Talks.read (h : Talks c s) (hloop : c.loop = .reading) {up : Pipe} {data : List Byte}
    (hrecv : c.up.recvSome n = some (up, data)) {loop : Loop}
    (hnext : loop = .pumping ∨ loop = .closed) : Talks { c with up, loop } (s.onBytes data) := by
  obtain ⟨hstream, hread, hunsent⟩ := Pipe.recvSome_eq_some hrecv
  have hover : loop ≠ .pumping → loop ≠ .closed → False := fun hp hc =>
    hnext.elim hp hc
  refine ⟨⟨h.up.outSeq, h.up.failed, fun ha => ?_, fun hc hf => ?_, fun hc => ?_, fun ha => ?_,
      fun _ hp hc => (hover hp hc).elim⟩,
    ⟨⟨h.down.queued.outSeq, h.down.queued.bytes⟩, fun hp hc => (hover hp hc).elim, fun _ _ => ?_,
      fun hw => ?_, h.down.hears, h.down.waits⟩⟩
  · exact hstream.trans (h.up.said ha)
  · exact hunsent.trans (h.up.unsent hc hf)
  · rw [hunsent]
    exact h.up.sending hc
  · rw [hread]
    exact (h.up.hears ha).feed data
  · exact h.down.unsent (by rw [hloop]; decide) (by rw [hloop]; decide)
  · change loop = .writing at hw
    subst hw
    simp at hnext

/-- A message is handled: it comes off the buffer, and a block of replies is queued. -/
theorem Talks.handle (h : Talks c s) (hloop : c.loop = .pumping) {f : Framer} {msg : DecodedMessage}
    (hnext : s.framer.next = (f, some msg)) (d : Dispatcher) :
    Talks { c with handled := c.handled ++ [msg] }
      (d.dispatch { s with framer := f } msg.body).2 := by
  obtain ⟨block, hblock⟩ := d.dispatch_session { s with framer := f } msg.body
  refine ⟨{ h.up with hears := fun ha => ?_, waits := fun _ hp _ => absurd hloop hp },
    ⟨?_, fun hp _ => absurd hloop hp, h.down.unsent, h.down.writing, h.down.hears, h.down.waits⟩⟩
  · rw [Dispatcher.framer_dispatch]
    have hpre : c.up.read <+: (Session.frames c.client.said).flatten := by
      rw [← h.up.said ha]
      exact c.up.read_prefix
    rcases (h.up.hears ha).next hpre with ⟨hwait, -⟩ | ⟨f', msg', hsome, hmore⟩
    · rw [hwait] at hnext
      simp at hnext
    · rw [hsome] at hnext
      obtain ⟨rfl, hmsg⟩ := Prod.mk.inj hnext
      rw [← Option.some.inj hmsg]
      exact hmore
  · obtain ⟨hsent, hout, hseq⟩ := Session.quiet_enter { s with framer := f } msg.body
    have hqueued : Session.Queued s.sent
        (Session.enter { s with framer := f } msg.body, c.down.stream) := by
      refine ⟨?_, ?_⟩
      · rw [hseq]
        exact h.down.queued.outSeq
      · rw [hout]
        exact h.down.queued.bytes
    rw [hblock, Session.sent_emitAll, hsent]
    exact hqueued.emitAll block

/-- `pump` is over, and what it queued is taken to be sent. -/
theorem Talks.flush (h : Talks c s) (hloop : c.loop = .pumping) {f : Framer}
    (hnext : s.framer.next = (f, none)) :
    Talks (if s.outbound.isEmpty then { c with loop := .testing }
      else { c with down := c.down.sendAll s.outbound, loop := .writing })
      { s with framer := f, outbound := [] } := by
  have hunsent : c.down.unsent = [] :=
    h.down.unsent (by rw [hloop]; decide) (by rw [hloop]; decide)
  have hwait : c.client.astray = false → f = s.framer ∧ Framer.look s.framer.buf = .wait := by
    intro ha
    have hpre : c.up.read <+: (Session.frames c.client.said).flatten := by
      rw [← h.up.said ha]
      exact c.up.read_prefix
    rcases (h.up.hears ha).next hpre with ⟨hsame, hl⟩ | ⟨f', msg', hsome, -⟩
    · rw [hsame] at hnext
      exact ⟨(congrArg Prod.fst hnext).symm, hl⟩
    · rw [hsome] at hnext
      simp at hnext
  have hup : ∀ loop, Upward c.client c.up c.handled f loop := fun loop =>
    { h.up with
      hears := fun ha => (hwait ha).1 ▸ h.up.hears ha
      waits := fun ha _ _ => (hwait ha).1 ▸ (hwait ha).2 }
  have hbytes : c.down.stream ++ s.outbound = (Session.frames s.sent).flatten := h.down.queued.bytes
  split_ifs with hempty
  · rw [List.isEmpty_iff] at hempty
    rw [hempty] at hbytes
    exact ⟨hup _, ⟨⟨h.down.queued.outSeq, hbytes⟩, fun _ _ => rfl, fun _ _ => hunsent,
      fun hw => (by cases hw), h.down.hears, h.down.waits⟩⟩
  · refine ⟨hup _, ⟨⟨h.down.queued.outSeq, ?_⟩, fun _ _ => rfl, fun hw _ => absurd rfl hw,
      fun _ hnil => hempty (List.isEmpty_iff.mpr hnil), h.down.hears, h.down.waits⟩⟩
    change (c.down.sendAll s.outbound).stream ++ [] = (Session.frames s.sent).flatten
    rw [List.append_nil, Pipe.stream_sendAll hunsent, hbytes]

/-- `send_all` hands over some more bytes. -/
theorem Talks.written (h : Talks c s) (hloop : c.loop = .writing) {down : Pipe}
    (hsend : c.down.send room n = some down) :
    Talks { c with down, loop := if down.unsent.isEmpty then .testing else .writing } s := by
  obtain ⟨hstream, hread⟩ := Pipe.send_eq_some hsend
  have hp : c.loop ≠ .pumping := by rw [hloop]; decide
  have hc : c.loop ≠ .closed := by rw [hloop]; decide
  refine ⟨{ h.up with waits := fun ha _ _ => h.up.waits ha hp hc },
    ⟨?_, fun _ _ => h.down.outbound hp hc, fun hw _ => ?_, fun hw hnil => ?_, ?_, h.down.waits⟩⟩
  · rw [hstream]
    exact h.down.queued
  · by_contra hne
    exact hw (if_neg (mt List.isEmpty_iff.mp hne))
  · change (if down.unsent.isEmpty then Loop.testing else .writing) = .writing at hw
    rw [if_pos (List.isEmpty_iff.mpr hnil)] at hw
    cases hw
  · rw [hread]
    exact h.down.hears

end Session

end Ordbk
