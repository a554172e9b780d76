import Ordbk.Refinement.Net
import Ordbk.Theorems.Replies

/-!
# Theorems/EndToEnd — from one client to the gateway and back

The connections do nothing but carry messages: behind them is the gateway of `Exchange`
(`Happens.exchange`), every session handles the first of the messages its client sent, and every
client gets the first of the replies its session gave, whole, in order and once each
(`conversing_of_trace`).  A run is watched from outside by what it handles, each message with the
state of the gateway it is handled in; these are the states the run goes through, and so the replies
to one client are about what all of them have done so far.
-/

namespace Ordbk

/-- **The gateway's answer** to a message, in the state it is handled in. -/
def Handling.Answered (h : Handling) (block : List MessageBody) : Prop :=
  Dispatcher.Answered (h.gateway.dispatcher, (h.gateway.sessions h.session).nextInbound.1)
    (h.body, block) (h.gateway.dispatcher.turn (h.gateway.sessions h.session))

namespace Net

variable {x x' : Net} {k room : ℕ} {c : Connection} {r : Dispatcher × Session} {H : List Handling}

/-- The message a move handles. -/
def handles (x : Net) : Move → List Handling
  | .turn k => x.exchange.handles (.turn k)
  | _ => []

/-- Every connection carries what it should. -/
def Talking (x : Net) : Prop := ∀ k, Talks (x.connections k) (x.sessions k)

theorem Talking.setConnection (h : x.Talking) (hc : Talks c (x.sessions k)) :
    (x.setConnection k c).Talking := by
  intro j
  by_cases hj : j = k
  · subst hj
    simpa using hc
  · rw [connections_setConnection_of_ne hj]
    exact h j

theorem Talking.setSession (h : x.Talking) (hc : Talks c r.2) : (x.setSession k r c).Talking := by
  intro j
  by_cases hj : j = k
  · subst hj
    simpa using hc
  · rw [connections_setSession_of_ne hj, sessions_setSession_of_ne hj]
    exact h j

/-- **What a move can do**, with the message it handles: something to one connection that neither
its session nor the bytes taken from it see, deliver bytes to a session, a turn of `pump`, or
something to the engine. -/
inductive Happens (x : Net) : List Handling → Net → Prop
  | moved {k : ℕ} {c : Connection} : Talks c (x.sessions k) →
      c.down.stream = (x.connections k).down.stream → c.handled = (x.connections k).handled →
      Happens x [] (x.setConnection k c)
  | heard {k : ℕ} {data : List Byte} {c : Connection} : Talks c ((x.sessions k).onBytes data) →
      c.down.stream = (x.connections k).down.stream → c.handled = (x.connections k).handled →
      Happens x [] (x.setSession k (x.dispatcher, (x.sessions k).onBytes data) c)
  | handled {k : ℕ} {f : Framer} {msg : DecodedMessage} :
      (x.sessions k).framer.next = (f, some msg) →
      Talks { x.connections k with handled := (x.connections k).handled ++ [msg] }
        (x.dispatcher.dispatch { x.sessions k with framer := f } msg.body).2 →
      Happens x [⟨k, x.exchange, msg.body⟩]
        (x.setSession k (x.dispatcher.dispatch { x.sessions k with framer := f } msg.body)
          { x.connections k with handled := (x.connections k).handled ++ [msg] })
  | flushed {k : ℕ} {f : Framer} {c : Connection} : (x.sessions k).framer.next = (f, none) →
      Talks c { x.sessions k with framer := f, outbound := [] } →
      c.down.stream = (x.connections k).down.stream ++ (x.sessions k).outbound →
      c.handled = (x.connections k).handled →
      Happens x []
        (x.setSession k (x.dispatcher, { x.sessions k with framer := f, outbound := [] }) c)
  | stopped : Happens x [] { x with running := false }
  | expired (i : InstrumentId) : Happens x [] { x with
      dispatcher := ⟨(x.dispatcher.engine.expireInstrument x.dispatcher.pool i).1,
        (x.dispatcher.engine.expireInstrument x.dispatcher.pool i).2.1⟩ }

theorem turn_handled {f : Framer} {msg : DecodedMessage}
    (hn : (x.sessions k).framer.next = (f, some msg)) :
    x.turn k = x.setSession k (x.dispatcher.dispatch { x.sessions k with framer := f } msg.body)
      { x.connections k with handled := (x.connections k).handled ++ [msg] } := by
  simp only [Net.turn, Session.nextInbound, hn]

theorem turn_flushed {f : Framer} (hn : (x.sessions k).framer.next = (f, none)) :
    x.turn k = x.setSession k (x.dispatcher, { x.sessions k with framer := f, outbound := [] })
      (if (x.sessions k).outbound.isEmpty then { x.connections k with loop := .testing }
      else { x.connections k with
        down := (x.connections k).down.sendAll (x.sessions k).outbound, loop := .writing }) := by
  simp only [Net.turn, Session.nextInbound, hn]
  rfl

/-- The turn of a message handles it. -/
theorem handles_turn {f : Framer} {msg : Option DecodedMessage}
    (hn : (x.sessions k).framer.next = (f, msg)) :
    x.handles (.turn k) = msg.toList.map fun msg => ⟨k, x.exchange, msg.body⟩ := by
  have hpending : x.exchange.pending k = msg.map (·.body) := by
    change (x.sessions k).framer.next.2.map (·.body) = _
    rw [hn]
  rw [handles, Exchange.handles, hpending]
  cases msg <;> rfl

theorem Talking.turn (h : x.Talking) (hloop : (x.connections k).loop = .pumping) :
    x.Happens (x.handles (.turn k)) (x.turn k) := by
  cases hn : (x.sessions k).framer.next with
  | mk f msg =>
    rw [handles_turn hn]
    cases msg with
    | some msg =>
      rw [turn_handled hn]
      exact .handled hn ((h k).handle hloop hn x.dispatcher)
    | none =>
      have hflush := (h k).flush hloop hn
      rw [turn_flushed hn]
      by_cases hempty : (x.sessions k).outbound.isEmpty
      · rw [if_pos hempty] at hflush ⊢
        refine .flushed hn hflush ?_ rfl
        rw [List.isEmpty_iff.mp hempty, List.append_nil]
      · rw [if_neg hempty] at hflush ⊢
        refine .flushed hn hflush (Pipe.stream_sendAll ?_) rfl
        exact (h k).down.unsent (by rw [hloop]; decide) (by rw [hloop]; decide)

/-- **Every move does one of these things**, and leaves its connection true. -/
theorem Talking.happens (h : x.Talking) {a : Move} (hs : x.step room a = some x') :
    x.Happens (x.handles a) x' := by
  cases a with
  | send k body =>
    simp only [Net.step, Option.ite_none_right_eq_some, Option.some.injEq] at hs
    obtain ⟨hcall, rfl⟩ := hs
    exact .moved ((h k).send hcall body) rfl rfl
  | sent k n =>
    simp only [Net.step, Option.ite_none_right_eq_some, Option.map_eq_some_iff] at hs
    obtain ⟨-, up, hup, rfl⟩ := hs
    exact .moved ((h k).sent hup) rfl rfl
  | sendFails k =>
    simp only [Net.step, Option.ite_none_right_eq_some, Option.some.injEq] at hs
    obtain ⟨-, rfl⟩ := hs
    exact .moved (h k).sendFails rfl rfl
  | recv k =>
    simp only [Net.step, Option.ite_none_right_eq_some, Option.some.injEq] at hs
    obtain ⟨hcall, rfl⟩ := hs
    exact .moved ((h k).recv hcall) rfl rfl
  | received k n =>
    simp only [Net.step, Option.ite_none_right_eq_some, Option.map_eq_some_iff] at hs
    obtain ⟨hcall, ⟨down, data⟩, hdown, rfl⟩ := hs
    exact .moved ((h k).received hcall hdown) (Pipe.recvSome_eq_some hdown).1 rfl
  | recvFails k =>
    simp only [Net.step, Option.ite_none_right_eq_some, Option.some.injEq] at hs
    obtain ⟨hcall, rfl⟩ := hs
    exact .moved ((h k).recvFails hcall) rfl rfl
  | test k =>
    simp only [Net.step, Option.ite_none_right_eq_some, Option.some.injEq] at hs
    obtain ⟨hloop, rfl⟩ := hs
    refine .moved ((h k).test hloop ?_) rfl rfl
    split_ifs <;> decide
  | read k n =>
    simp only [Net.step, Option.ite_none_right_eq_some, Option.map_eq_some_iff] at hs
    obtain ⟨hloop, ⟨up, data⟩, hup, rfl⟩ := hs
    refine .heard ((h k).read hloop hup ?_) rfl rfl
    split_ifs
    · exact .inr rfl
    · exact .inl rfl
  | readFails k =>
    simp only [Net.step, Option.ite_none_right_eq_some, Option.some.injEq] at hs
    obtain ⟨-, rfl⟩ := hs
    exact .moved (h k).closed rfl rfl
  | turn k =>
    simp only [Net.step, Option.ite_none_right_eq_some, Option.some.injEq] at hs
    obtain ⟨hloop, rfl⟩ := hs
    exact h.turn hloop
  | written k n =>
    simp only [Net.step, Option.ite_none_right_eq_some, Option.map_eq_some_iff] at hs
    obtain ⟨hloop, down, hdown, rfl⟩ := hs
    exact .moved ((h k).written hloop hdown) (Pipe.send_eq_some hdown).1 rfl
  | writeFails k =>
    simp only [Net.step, Option.ite_none_right_eq_some, Option.some.injEq] at hs
    obtain ⟨-, rfl⟩ := hs
    exact .moved (h k).closed rfl rfl
  | stop =>
    obtain rfl := Option.some.inj hs
    exact .stopped
  | expire i =>
    obtain rfl := Option.some.inj hs
    exact .expired i

theorem Talking.of_happens (h : x.Talking) (hh : x.Happens H x') : x'.Talking := by
  cases hh with
  | moved hc => exact h.setConnection hc
  | heard hc => exact h.setSession hc
  | handled _ hc => exact h.setSession hc
  | flushed _ hc => exact h.setSession hc
  | stopped => exact h
  | expired => exact h

theorem talking_of_reach {e : Engine} {capacity : ℕ}
    (h : Guarded.Reach (step room) (fun _ _ => True) (start e capacity) x) : x.Talking :=
  h.invariant (I := Talking) (fun _ => talks_start _) fun _ _ _ hx _ hs =>
    hx.of_happens (hx.happens hs)

/-! ## The gateway behind the connections

With the sockets and the clients left out there remains the gateway, to which a chunk that comes in
and a message that is handled are events. Nothing else that moves is one. -/

theorem exchange_setConnection (hdown : c.down.stream = (x.connections k).down.stream) :
    (x.setConnection k c).exchange = x.exchange := by
  refine congrArg (Exchange.mk x.dispatcher) (funext fun j => ?_)
  change ({ x.sessions j with
    outbound := (Function.update x.connections k c j).down.stream ++ (x.sessions j).outbound }
      : Session) = _
  by_cases hj : j = k
  · subst hj
    rw [Function.update_self, hdown]
  · rw [Function.update_of_ne hj]

theorem exchange_setSession : (x.setSession k r c).exchange
    = x.exchange.withSession k
        (r.1, { r.2 with outbound := c.down.stream ++ r.2.outbound }) := by
  refine congrArg (Exchange.mk r.1) (funext fun j => ?_)
  change ({ Function.update x.sessions k r.2 j with
    outbound := (Function.update x.connections k c j).down.stream
      ++ (Function.update x.sessions k r.2 j).outbound } : Session)
    = Function.update x.exchange.sessions k _ j
  by_cases hj : j = k
  · subst hj
    rw [Function.update_self, Function.update_self, Function.update_self]
  · rw [Function.update_of_ne hj, Function.update_of_ne hj, Function.update_of_ne hj]
    rfl

/-- A handler sees neither the bytes taken nor those on their way. -/
theorem dispatch_exchange (k : ℕ) (f : Framer) (body : MessageBody) :
    x.dispatcher.dispatch { x.exchange.sessions k with framer := f } body
      = ((x.dispatcher.dispatch { x.sessions k with framer := f } body).1,
        { (x.dispatcher.dispatch { x.sessions k with framer := f } body).2 with
          outbound := (x.connections k).down.stream
            ++ (x.dispatcher.dispatch { x.sessions k with framer := f } body).2.outbound }) := by
  have hrebase := x.dispatcher.dispatch_rebase { x.sessions k with framer := f } f
    (x.connections k).down.stream body
  rw [Session.rebase_of_framer (x.dispatcher.framer_dispatch _ body)] at hrebase
  exact hrebase

theorem turn_exchange_handled {f : Framer} {msg : DecodedMessage}
    (hn : (x.sessions k).framer.next = (f, some msg)) :
    x.dispatcher.turn (x.exchange.sessions k)
      = ((x.dispatcher.dispatch { x.sessions k with framer := f } msg.body).1,
        { (x.dispatcher.dispatch { x.sessions k with framer := f } msg.body).2 with
          outbound := (x.connections k).down.stream
            ++ (x.dispatcher.dispatch { x.sessions k with framer := f }
              msg.body).2.outbound }) := by
  have hn' : (x.exchange.sessions k).framer.next = (f, some msg) := hn
  rw [← dispatch_exchange]
  simp only [Dispatcher.turn, Session.nextInbound, hn']

theorem turn_exchange_flushed {f : Framer} (hn : (x.sessions k).framer.next = (f, none)) :
    x.dispatcher.turn (x.exchange.sessions k)
      = (x.dispatcher, { x.sessions k with
          framer := f, outbound := (x.connections k).down.stream ++ (x.sessions k).outbound }) := by
  have hn' : (x.exchange.sessions k).framer.next = (f, none) := hn
  simp only [Dispatcher.turn, Session.nextInbound, hn']
  rfl

/-- **Refinement**: a move of the net is an event at the gateway, or none, and handles the same. -/
theorem Happens.exchange (hh : x.Happens H x') :
    (H = [] ∧ x'.exchange = x.exchange)
      ∨ ∃ ev, x.exchange.step ev = some x'.exchange ∧ x.exchange.handles ev = H := by
  cases hh with
  | moved _ hdown => exact .inl ⟨rfl, exchange_setConnection hdown⟩
  | @heard k data c _ hdown =>
    refine .inr ⟨.bytes k data, ?_, rfl⟩
    rw [exchange_setSession, hdown]
    rfl
  | @handled k f msg hn =>
    refine .inr ⟨.turn k, ?_, handles_turn hn⟩
    rw [exchange_setSession]
    exact congrArg (fun r => some (x.exchange.withSession k r)) (turn_exchange_handled hn)
  | @flushed k f c hn _ hdown =>
    refine .inr ⟨.turn k, ?_, handles_turn hn⟩
    rw [exchange_setSession, hdown, List.append_nil]
    exact congrArg (fun r => some (x.exchange.withSession k r)) (turn_exchange_flushed hn)
  | stopped => exact .inl ⟨rfl, rfl⟩
  | expired i => exact .inr ⟨.expire i, rfl, rfl⟩

/-! ## What is answered

A run handles a list of messages, each in a state of the gateway it goes through; the messages of
one session are a sublist.  A session has sent one block of replies for each of its own, in their
order, and the block is the gateway's answer in that very state. -/

/-- The messages handled on session `k`. -/
def onSession (k : ℕ) (H : List Handling) : List Handling := H.filter fun h => h.session = k

theorem onSession_append_of_ne {j : ℕ} (hj : k ≠ j) (y : Exchange) (b : MessageBody) :
    onSession j (H ++ [⟨k, y, b⟩]) = onSession j H := by
  simp [onSession, hj]

theorem onSession_append_self (y : Exchange) (b : MessageBody) :
    onSession k (H ++ [⟨k, y, b⟩]) = onSession k H ++ [⟨k, y, b⟩] := by
  simp [onSession]

/-- **A block of replies for every message handled** on session `k`. -/
structure Answers (H : List Handling) (k : ℕ) (handled : List DecodedMessage)
    (sent : List MessageBody) : Prop where
  /-- The messages are those the run has handled on this session. -/
  bodies : (onSession k H).map (·.body) = handled.map (·.body)
  /-- Each is answered in the state it was handled in, and nothing else is sent. -/
  blocks : ∃ blocks, List.Forall₂ Handling.Answered (onSession k H) blocks ∧ sent = blocks.flatten

/-- Every session has answered what it has handled. -/
def Answering (H : List Handling) (x : Net) : Prop :=
  ∀ k, Answers H k (x.connections k).handled (x.sessions k).sent

theorem Answering.setConnection (h : x.Answering H)
    (hhandled : c.handled = (x.connections k).handled) : (x.setConnection k c).Answering H := by
  intro j
  by_cases hj : j = k
  · subst hj
    rw [connections_setConnection_self, hhandled]
    exact h j
  · rw [connections_setConnection_of_ne hj]
    exact h j

theorem Answering.setSession (h : x.Answering H) (hhandled : c.handled = (x.connections k).handled)
    (hsent : r.2.sent = (x.sessions k).sent) : (x.setSession k r c).Answering H := by
  intro j
  by_cases hj : j = k
  · subst hj
    rw [connections_setSession_self, sessions_setSession_self, hhandled, hsent]
    exact h j
  · rw [connections_setSession_of_ne hj, sessions_setSession_of_ne hj]
    exact h j

/-- **The turn of a message adds its block.** -/
theorem Answering.handled (h : x.Answering H) {q : InstrumentId → QueueBook} {lost : List Slot}
    (hinv : x.dispatcher.Inv q lost) {f : Framer} {msg : DecodedMessage}
    (hn : (x.sessions k).framer.next = (f, some msg)) :
    (x.setSession k (x.dispatcher.dispatch { x.sessions k with framer := f } msg.body)
      { x.connections k with handled := (x.connections k).handled ++ [msg] }).Answering
      (H ++ [⟨k, x.exchange, msg.body⟩]) := by
  intro j
  by_cases hj : j = k
  · subst hj
    obtain ⟨hbodies, blocks, hanswered, hsent⟩ := h j
    obtain ⟨block, -, -, -, hblock⟩ :=
      hinv.answered { x.exchange.sessions j with framer := f } msg.body
    -- it is the answer of the gateway, whose session has other bytes around it
    have hanswer : Handling.Answered ⟨j, x.exchange, msg.body⟩ block := by
      have hn' : (x.exchange.sessions j).framer.next = (f, some msg) := hn
      unfold Handling.Answered
      simp only [Dispatcher.turn, Session.nextInbound, hn']
      exact hblock
    have hsame : (x.dispatcher.dispatch { x.sessions j with framer := f } msg.body).2.sent
        = (x.sessions j).sent ++ block := by
      have hsession := hblock.session
      rw [dispatch_exchange] at hsession
      have hquiet := Session.quiet_enter { x.exchange.sessions j with framer := f } msg.body
      exact (congrArg Session.sent hsession).trans
        ((Session.sent_emitAll _ _).trans (congrArg (· ++ block) hquiet.1))
    rw [connections_setSession_self, sessions_setSession_self, hsame]
    refine ⟨?_, blocks ++ [block], ?_, ?_⟩
    · rw [onSession_append_self, List.map_append, List.map_append, hbodies]
      rfl
    · rw [onSession_append_self]
      exact List.rel_append hanswered (.cons hanswer .nil)
    · rw [hsent, List.flatten_append, List.flatten_singleton]
  · obtain ⟨hbodies, hblocks⟩ := h j
    rw [connections_setSession_of_ne hj, sessions_setSession_of_ne hj]
    refine ⟨?_, ?_⟩ <;> rwa [onSession_append_of_ne (Ne.symm hj)]

/-- A move answers what it handles. -/
theorem Happens.answering {L : List Handling} (hh : x.Happens L x') (h : x.Answering H)
    {q : InstrumentId → QueueBook} {lost : List Slot} (hinv : x.dispatcher.Inv q lost) :
    x'.Answering (H ++ L) := by
  cases hh with
  | moved _ _ hhandled =>
    rw [List.append_nil]
    exact h.setConnection hhandled
  | heard _ _ hhandled =>
    rw [List.append_nil]
    exact h.setSession hhandled rfl
  | handled hn _ => exact h.handled hinv hn
  | flushed _ _ _ hhandled =>
    rw [List.append_nil]
    exact h.setSession hhandled rfl
  | stopped | expired =>
    rw [List.append_nil]
    exact h

end Net

/-! ## The result

Where a client waits in `recv` and nothing is on the way, it has been told all there was to tell. -/

/-- A client waits in `recv`, its session in the `recv_some` of its loop, and nothing is on the way.
-/
structure Connection.Settled (c : Connection) : Prop where
  /-- All that was sent has been handed over. -/
  failed : c.client.failed = false
  /-- The client waits, -/
  call : c.client.call = .receiving
  /-- and so does its session. -/
  loop : c.loop = .reading
  /-- Nothing is on the way up, -/
  up : c.up.wire = []
  /-- nor down. -/
  down : c.down.wire = []

instance (c : Connection) : Decidable c.Settled :=
  decidable_of_iff (c.client.failed = false ∧ c.client.call = .receiving ∧ c.loop = .reading
      ∧ c.up.wire = [] ∧ c.down.wire = [])
    ⟨fun h => ⟨h.1, h.2.1, h.2.2.1, h.2.2.2.1, h.2.2.2.2⟩,
      fun h => ⟨h.failed, h.call, h.loop, h.up, h.down⟩⟩

/-- **A conversation between a client and the gateway**, on connection `k` of a run that has handled
`H`. After a `send` that failed and another one nothing is said of what the session makes of it. -/
structure Net.Conversing (H : List Handling) (x : Net) (k : ℕ) : Prop where
  /-- The first messages the client was given to send have been handled, and the session's framer
  has no error. -/
  handled : (x.connections k).client.astray = false →
    (x.connections k).handled <+: Session.received (x.connections k).client.said
      ∧ (x.sessions k).framer.error = none
  /-- Each is answered. -/
  answered : Net.Answers H k (x.connections k).handled (x.sessions k).sent
  /-- The first replies are returned, and the client's framer has no error. -/
  returned : (x.connections k).client.returned <+: Session.received (x.sessions k).sent
    ∧ (x.connections k).client.framer.error = none
  /-- When both ends wait for the other, all has been handled and returned. -/
  settled : (x.connections k).Settled →
    (x.connections k).handled = Session.received (x.connections k).client.said
      ∧ (x.connections k).client.returned = Session.received (x.sessions k).sent

/-- What both directions of a connection carry is a conversation. -/
theorem Talks.settled {c : Connection} {s : Session} (h : Talks c s) (hc : c.Settled) :
    c.handled = Session.received c.client.said ∧ c.client.returned = Session.received s.sent := by
  have hastray := h.up.failed hc.failed
  have hp : c.loop ≠ .pumping := by rw [hc.loop]; decide
  have hw : c.loop ≠ .writing := by rw [hc.loop]; decide
  have hcl : c.loop ≠ .closed := by rw [hc.loop]; decide
  have hs : c.client.call ≠ .sending := by rw [hc.call]; decide
  refine ⟨(h.up.hears hastray).eq_received ?_ (h.up.waits hastray hp hcl),
    h.down.hears.eq_received ?_ (h.down.waits hc.call)⟩
  · rw [← h.up.said hastray, Pipe.stream, hc.up, h.up.unsent hs hc.failed, List.append_nil,
      List.append_nil]
  · have hbytes : c.down.stream ++ s.outbound = (Session.frames s.sent).flatten :=
      h.down.queued.bytes
    rw [← hbytes, Pipe.stream, hc.down, h.down.unsent hw hcl, h.down.outbound hp hcl]
    simp only [List.append_nil]

open Net in
/-- **End to end.**  Whatever the clients say and the sockets do, and however their threads take
turns: behind the connections is a run of the gateway that handles the same messages in the same
states, and every client is in conversation with it. -/
theorem Net.conversing_of_trace {r : InstrumentRegistry} {filter : InstrumentId → Bool} {e : Engine}
    {capacity room : ℕ} {H : List Handling} {x : Net} (hnew : Engine.new r filter = .ok e)
    (h : Guarded.Trace (step room) (fun _ _ => True) handles (start e capacity) H x) :
    Guarded.Trace Exchange.step (fun _ _ => True) Exchange.handles (Exchange.start e capacity) H
        x.exchange
      ∧ ∀ k, x.Conversing H k := by
  obtain ⟨hgateway, htalks, hanswers⟩ : Guarded.Trace Exchange.step (fun _ _ => True)
      Exchange.handles (Exchange.start e capacity) H x.exchange ∧ x.Talking ∧ x.Answering H := by
    refine h.invariant (I := fun H x => Guarded.Trace Exchange.step (fun _ _ => True)
      Exchange.handles (Exchange.start e capacity) H x.exchange ∧ x.Talking ∧ x.Answering H) ?_ ?_
    · exact ⟨.init, fun _ => talks_start _, fun _ => ⟨rfl, [], .nil, rfl⟩⟩
    · rintro H x a x' ⟨hx, htalks, hanswers⟩ - hs
      have hh := htalks.happens hs
      obtain ⟨q, lost, hinv, -⟩ := Exchange.exists_inv (J := fun _ _ _ => True) hnew trivial
        (fun _ _ _ _ _ _ _ _ _ _ _ _ => trivial) hx.reach
      refine ⟨?_, htalks.of_happens hh, hh.answering hanswers hinv⟩
      rcases hh.exchange with ⟨hnone, hsame⟩ | ⟨ev, hev, hhandles⟩
      · rwa [hnone, hsame, List.append_nil]
      · rw [← hhandles]
        exact hx.step trivial hev
  refine ⟨hgateway, fun k => ⟨fun ha => ⟨?_, ((htalks k).up.hears ha).error⟩, hanswers k,
    ⟨?_, (htalks k).down.hears.error⟩, (htalks k).settled⟩⟩
  · refine ((htalks k).up.hears ha).prefix_received ?_
    rw [← (htalks k).up.said ha]
    exact Pipe.read_prefix _
  · refine (htalks k).down.hears.prefix_received ?_
    rw [← (htalks k).down.queued.bytes]
    exact (Pipe.read_prefix _).trans (List.prefix_append _ _)

open Net in
/-- Two clients, the second not logged on, and frames that arrive in pieces. -/
theorem Net.conversing_of_twoClients :
    ∃ x H, Guarded.Trace (step 64) (fun _ _ => True) handles
        (start ([⟨1⟩].foldl (Engine.addBook fun _ => true) {}) 2) H x
      ∧ H.map (·.session) = [1, 1, 2]
      ∧ (x.connections 1).client.returned.map (·.body) = [.logon ⟨42⟩, .orderAck ⟨5, 5⟩]
      ∧ (x.connections 2).client.returned.map (·.body) = [.orderReject ⟨6, .notLoggedOn⟩]
      ∧ (x.connections 1).Settled
      ∧ Guarded.Trace Exchange.step (fun _ _ => True) Exchange.handles
          (Exchange.start ([⟨1⟩].foldl (Engine.addBook fun _ => true) {}) 2) H x.exchange
      ∧ ∀ k, x.Conversing H k := by
  have hrun : (Guarded.record (step 64) (fun _ _ => True) handles
      (start ([⟨1⟩].foldl (Engine.addBook fun _ => true) {}) 2)
      [.send 1 (.logon ⟨42⟩), .sent 1 5, .test 1, .read 1 5, .turn 1, .sent 1 7,
        .send 1 (.newOrder ⟨5, 1, 1, 0, 0, 100, 10⟩), .sent 1 40, .test 1, .read 1 47, .turn 1,
        .turn 1, .send 2 (.newOrder ⟨6, 1, 0, 0, 1, 100, 4⟩), .sent 2 40, .test 2, .read 2 40,
        .recv 1, .turn 1, .turn 2, .turn 2, .written 1 30, .received 1 20, .written 1 6, .recv 1,
        .received 1 16, .recv 1, .test 1, .written 2 17, .recv 2, .received 2 17]).map
      (fun R => decide (R.1.map (·.session) = [1, 1, 2]
        ∧ (R.2.connections 1).client.returned.map (·.body) = [.logon ⟨42⟩, .orderAck ⟨5, 5⟩]
        ∧ (R.2.connections 2).client.returned.map (·.body) = [.orderReject ⟨6, .notLoggedOn⟩]
        ∧ (R.2.connections 1).Settled)) = some true := by decide +kernel
  obtain ⟨⟨H, x⟩, hx, hfacts⟩ := Option.map_eq_some_iff.mp hrun
  obtain ⟨hsessions, hfirst, hsecond, hsettled⟩ := of_decide_eq_true hfacts
  have htrace := Guarded.Trace.of_record hx
  exact ⟨x, H, htrace, hsessions, hfirst, hsecond, hsettled,
    conversing_of_trace (r := ⟨[⟨1⟩], true⟩) rfl htrace⟩

end Ordbk
