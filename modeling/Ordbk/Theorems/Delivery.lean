import Mathlib.Data.Prod.Lex
import Ordbk.Lib.Fair
import Ordbk.Theorems.EndToEnd

/-!
# Theorems/Delivery — nobody waits for what is on the way

A connection that is left alone settles: with sockets that do not fail and a scheduler that does not
forget a thread, every call of a client returns unless there is nothing left for it to wait for
(`returns_of_fair`).  Two weights carry the argument, the bytes on their way to be handled and, when
those stay, the bytes on their way back (`load`).

There is one way to get stuck, and it takes a client that goes on sending without a `recv`: the
buffers are full in both directions, and each end waits in `send_all` for the other to read
(`Jammed`).
-/

namespace Ordbk

/-- The places in the loop of a session, from `pump` on. -/
def Loop.phase : Loop → ℕ
  | .pumping => 3
  | .writing => 2
  | .testing => 1
  | .reading => 0
  | .closed => 0

namespace Connection

/-- What there is still to carry, to the session and back. -/
def load (c : Connection) (s : Session) : ℕ ×ₗ ℕ :=
  toLex (3 * c.up.unsent.length + 2 * c.up.wire.length + s.framer.buf.length,
    4 * s.outbound.length + 3 * c.down.unsent.length + 2 * c.down.wire.length + c.loop.phase)

end Connection

namespace Net

/-- Connection `k` is carried on with: bytes go in or out of a socket, or its loop proceeds. -/
def Move.Carries (k : ℕ) : Move → Prop
  | .sent j _ | .received j _ | .test j | .read j _ | .turn j | .written j _ => j = k
  | _ => False

/-- A socket of connection `k` fails. -/
def Move.Fails (k : ℕ) : Move → Prop
  | .sendFails j | .recvFails j | .readFails j | .writeFails j => j = k
  | _ => False

end Net

namespace Pipe

variable {p p' : Pipe} {room n : ℕ} {data : List Byte}

/-- What is sent leaves the one buffer for the other. -/
theorem lengths_send (h : p.send room n = some p') :
    0 < n ∧ p'.unsent.length + n = p.unsent.length ∧ p'.wire.length = p.wire.length + n := by
  rw [send, Option.ite_none_right_eq_some] at h
  obtain ⟨⟨hpos, hn, -⟩, h⟩ := h
  obtain rfl := Option.some.inj h
  refine ⟨hpos, ?_, ?_⟩
  · rw [List.length_drop]
    omega
  · rw [List.length_append, List.length_take_of_le hn]

/-- What is received has left the wire. -/
theorem lengths_recvSome (h : p.recvSome n = some (p', data)) :
    0 < n ∧ data.length = n ∧ p'.wire.length + n = p.wire.length ∧ p'.unsent = p.unsent := by
  rw [recvSome, Option.ite_none_right_eq_some] at h
  obtain ⟨⟨hpos, -, hn⟩, h⟩ := h
  obtain ⟨rfl, rfl⟩ := Prod.mk.inj (Option.some.inj h)
  refine ⟨hpos, List.length_take_of_le hn, ?_, rfl⟩
  rw [List.length_drop]
  omega

/-- A socket takes a byte that is there to be sent, if there is room for it. -/
theorem exists_send (h : p.unsent ≠ []) (hroom : p.wire.length < room) :
    ∃ p', p.send room 1 = some p' := by
  have hlen : 1 ≤ p.unsent.length := List.length_pos_iff.mpr h
  exact ⟨_, if_pos ⟨Nat.one_pos, hlen, hroom⟩⟩

/-- A socket can always deliver a byte that is on the way. -/
theorem exists_recvSome (h : p.wire ≠ []) : ∃ r, p.recvSome 1 = some r := by
  have hlen : 1 ≤ p.wire.length := List.length_pos_iff.mpr h
  exact ⟨_, if_pos ⟨Nat.one_pos, by decide, hlen⟩⟩

end Pipe

/-- The framer keeps no more than it is fed. -/
theorem Framer.length_feed_le (f : Framer) (data : List Byte) :
    (f.feed data).buf.length ≤ f.buf.length + data.length := by
  unfold feed
  split_ifs
  · exact Nat.le_add_right _ _
  · rw [List.length_append]

/-- Without a message the buffer stays as it is. -/
theorem Framer.buf_next_none {f f' : Framer} (h : f.next = (f', none)) : f'.buf = f.buf := by
  obtain hn | ⟨err, hn⟩ | ⟨n, msg, -, -, hn⟩ := f.next_cases
  · rw [hn] at h
    obtain ⟨rfl, -⟩ := Prod.mk.inj h
    rfl
  · rw [hn] at h
    obtain ⟨rfl, -⟩ := Prod.mk.inj h
    rfl
  · simp [hn] at h

namespace Net

variable {x x' : Net} {k room : ℕ}

/-- The load of a connection. -/
def load (x : Net) (k : ℕ) : ℕ ×ₗ ℕ := (x.connections k).load (x.sessions k)

/-- Fewer bytes to be handled. -/
theorem load_lt_of_up {c c' : Connection} {s s' : Session}
    (h : 3 * c'.up.unsent.length + 2 * c'.up.wire.length + s'.framer.buf.length
      < 3 * c.up.unsent.length + 2 * c.up.wire.length + s.framer.buf.length) :
    c'.load s' < c.load s := Prod.Lex.toLex_lt_toLex.mpr (.inl h)

/-- As many to be handled, and fewer to go back. -/
theorem load_lt_of_down {c c' : Connection} {s s' : Session} (hup : c'.up = c.up)
    (hbuf : s'.framer.buf = s.framer.buf)
    (h : 4 * s'.outbound.length + 3 * c'.down.unsent.length + 2 * c'.down.wire.length
        + c'.loop.phase
      < 4 * s.outbound.length + 3 * c.down.unsent.length + 2 * c.down.wire.length + c.loop.phase) :
    c'.load s' < c.load s := by
  refine Prod.Lex.toLex_lt_toLex.mpr (.inr ⟨?_, h⟩)
  rw [hup, hbuf]

theorem load_setConnection (c : Connection) :
    (x.setConnection k c).load k = c.load (x.sessions k) := by
  rw [load, connections_setConnection_self, sessions_setConnection]

theorem load_setSession (r : Dispatcher × Session) (c : Connection) :
    (x.setSession k r c).load k = c.load r.2 := by
  rw [load, connections_setSession_self, sessions_setSession_self]

/-- A turn of the loop takes what was read out of the load. -/
theorem load_turn_lt (hloop : (x.connections k).loop = .pumping) :
    (x.turn k).load k < x.load k := by
  cases hn : (x.sessions k).framer.next with
  | mk f msg =>
    cases msg with
    | some msg =>
      have hlen : f.buf.length + 8 ≤ (x.sessions k).framer.buf.length := Framer.length_next hn
      rw [turn_handled hn, load_setSession]
      refine load_lt_of_up ?_
      rw [Dispatcher.framer_dispatch]
      exact Nat.add_lt_add_left (Nat.lt_of_lt_of_le (Nat.lt_add_of_pos_right (by decide)) hlen) _
    | none =>
      rw [turn_flushed hn, load_setSession]
      split_ifs with hempty
      · refine load_lt_of_down rfl (Framer.buf_next_none hn) ?_
        simp only [hloop, List.length_nil, Loop.phase]
        omega
      · refine load_lt_of_down rfl (Framer.buf_next_none hn) ?_
        simp only [hloop, List.length_nil, Loop.phase, Pipe.sendAll]
        omega

/-- **Whatever carries a connection on makes its load less.** -/
theorem load_lt_of_carries {a : Move} (ha : a.Carries k) (hs : x.step room a = some x') :
    x'.load k < x.load k := by
  cases a with
  | sent j n =>
    obtain rfl : j = k := ha
    simp only [Net.step, Option.ite_none_right_eq_some, Option.map_eq_some_iff] at hs
    obtain ⟨-, up, hup, rfl⟩ := hs
    obtain ⟨hpos, hunsent, hwire⟩ := Pipe.lengths_send hup
    rw [load_setConnection]
    refine load_lt_of_up ?_
    change 3 * up.unsent.length + 2 * up.wire.length + _ < _
    omega
  | received j n =>
    obtain rfl : j = k := ha
    simp only [Net.step, Option.ite_none_right_eq_some, Option.map_eq_some_iff] at hs
    obtain ⟨-, ⟨down, data⟩, hdown, rfl⟩ := hs
    obtain ⟨hpos, -, hwire, hunsent⟩ := Pipe.lengths_recvSome hdown
    rw [load_setConnection]
    refine load_lt_of_down rfl rfl ?_
    simp only [hunsent]
    omega
  | test j =>
    obtain rfl : j = k := ha
    simp only [Net.step, Option.ite_none_right_eq_some, Option.some.injEq] at hs
    obtain ⟨hloop, rfl⟩ := hs
    rw [load_setConnection]
    refine load_lt_of_down rfl rfl ?_
    simp only [hloop]
    split_ifs <;> simp only [Loop.phase] <;> omega
  | read j n =>
    obtain rfl : j = k := ha
    simp only [Net.step, Option.ite_none_right_eq_some, Option.map_eq_some_iff] at hs
    obtain ⟨-, ⟨up, data⟩, hup, rfl⟩ := hs
    obtain ⟨hpos, hdata, hwire, hunsent⟩ := Pipe.lengths_recvSome hup
    have hfeed := (x.sessions j).framer.length_feed_le data
    rw [load_setSession]
    refine load_lt_of_up ?_
    change 3 * up.unsent.length + 2 * up.wire.length + ((x.sessions j).framer.feed data).buf.length
      < _
    rw [hunsent]
    omega
  | turn j =>
    obtain rfl : j = k := ha
    simp only [Net.step, Option.ite_none_right_eq_some, Option.some.injEq] at hs
    obtain ⟨hloop, rfl⟩ := hs
    exact load_turn_lt hloop
  | written j n =>
    obtain rfl : j = k := ha
    simp only [Net.step, Option.ite_none_right_eq_some, Option.map_eq_some_iff] at hs
    obtain ⟨hloop, down, hdown, rfl⟩ := hs
    obtain ⟨hpos, hunsent, hwire⟩ := Pipe.lengths_send hdown
    rw [load_setConnection]
    refine load_lt_of_down rfl rfl ?_
    simp only [hloop]
    split_ifs <;> simp only [Loop.phase] <;> omega
  | _ => exact ha.elim

/-- A step of one connection is none of another's. -/
theorem same_setSession {j : ℕ} {r : Dispatcher × Session} {c : Connection} (hj : ¬ j = k) :
    (x.setSession j r c).connections k = x.connections k
      ∧ (x.setSession j r c).sessions k = x.sessions k :=
  ⟨connections_setSession_of_ne (Ne.symm hj), sessions_setSession_of_ne (Ne.symm hj)⟩

/-- **What neither carries a connection on nor makes it fail** leaves it as it is, for as long as
its client is in a call. -/
theorem same_of_elsewhere {a : Move} (hcall : (x.connections k).client.call ≠ .idle)
    (ha : ¬ a.Carries k) (hf : ¬ a.Fails k) (hs : x.step room a = some x') :
    x'.connections k = x.connections k ∧ x'.sessions k = x.sessions k := by
  cases a with
  | send j _ | recv j =>
    simp only [Net.step, Option.ite_none_right_eq_some, Option.some.injEq] at hs
    obtain ⟨hidle, rfl⟩ := hs
    refine ⟨connections_setConnection_of_ne ?_, rfl⟩
    rintro rfl
    exact hcall hidle
  | sendFails j | recvFails j | readFails j | writeFails j =>
    simp only [Net.step, Option.ite_none_right_eq_some, Option.some.injEq] at hs
    obtain ⟨-, rfl⟩ := hs
    exact ⟨connections_setConnection_of_ne (Ne.symm hf), rfl⟩
  | test j =>
    simp only [Net.step, Option.ite_none_right_eq_some, Option.some.injEq] at hs
    obtain ⟨-, rfl⟩ := hs
    exact ⟨connections_setConnection_of_ne (Ne.symm ha), rfl⟩
  | sent j n | received j n | written j n =>
    simp only [Net.step, Option.ite_none_right_eq_some, Option.map_eq_some_iff] at hs
    obtain ⟨-, _, -, rfl⟩ := hs
    exact ⟨connections_setConnection_of_ne (Ne.symm ha), rfl⟩
  | read j n =>
    simp only [Net.step, Option.ite_none_right_eq_some, Option.map_eq_some_iff] at hs
    obtain ⟨-, _, -, rfl⟩ := hs
    exact same_setSession ha
  | turn j =>
    simp only [Net.step, Option.ite_none_right_eq_some, Option.some.injEq] at hs
    obtain ⟨-, rfl⟩ := hs
    unfold Net.turn
    split <;> exact same_setSession ha
  | stop =>
    obtain rfl := Option.some.inj hs
    exact ⟨rfl, rfl⟩
  | expire i =>
    obtain rfl := Option.some.inj hs
    exact ⟨rfl, rfl⟩

/-- The session is over, and the client waits for what will not come: there is nothing left to read,
or nobody to make room for what it says.  (The socket that is closed makes its calls fail then.) -/
structure Left (room : ℕ) (c : Connection) : Prop where
  /-- The server has closed the session. -/
  loop : c.loop = .closed
  /-- And the client waits for an answer that does not come, or for room that nobody makes. -/
  waits : c.client.call = .receiving ∧ c.down.wire = []
    ∨ c.client.call = .sending ∧ room ≤ c.up.wire.length

/-- **Both ends send**, and neither reads: there is no room in either direction. -/
structure Jammed (room : ℕ) (c : Connection) : Prop where
  /-- The client is in `send`, -/
  call : c.client.call = .sending
  /-- its session in `send_all`. -/
  loop : c.loop = .writing
  /-- What the client sends has no room. -/
  up : room ≤ c.up.wire.length
  /-- Nor has what it is to be sent. -/
  down : room ≤ c.down.wire.length

/-- Nothing is left for the client of connection `k` to wait for, or nothing will come of it. -/
def Rests (room k : ℕ) (x : Net) : Prop :=
  (x.connections k).client.call = .idle ∨ (x.connections k).Settled
    ∨ Left room (x.connections k) ∨ Jammed room (x.connections k)

/-- Whoever sends is not blocked while there is room. -/
theorem Talking.exists_sent (h : x.Talking) (hcall : (x.connections k).client.call = .sending)
    (hroom : (x.connections k).up.wire.length < room) : (x.step room (.sent k 1)).isSome := by
  obtain ⟨up, hup⟩ := Pipe.exists_send ((h k).up.sending hcall) hroom
  simp only [Net.step, if_pos hcall, hup, Option.map_some, Option.isSome_some]

/-- A session that is answering is not blocked while there is room. -/
theorem Talking.exists_written (h : x.Talking) (hloop : (x.connections k).loop = .writing)
    (hroom : (x.connections k).down.wire.length < room) : (x.step room (.written k 1)).isSome := by
  obtain ⟨down, hdown⟩ := Pipe.exists_send ((h k).down.writing hloop) hroom
  simp only [Net.step, if_pos hloop, hdown, Option.map_some, Option.isSome_some]

/-- The other steps of a loop are never blocked. -/
theorem exists_test (hloop : (x.connections k).loop = .testing) :
    (x.step room (.test k)).isSome := by
  simp only [Net.step, if_pos hloop, Option.isSome_some]

/-- A session that has read goes on by itself. -/
theorem exists_turn (hloop : (x.connections k).loop = .pumping) :
    (x.step room (.turn k)).isSome := by
  simp only [Net.step, if_pos hloop, Option.isSome_some]

/-- Whoever reads is not blocked while there is something to read. -/
theorem exists_received (hcall : (x.connections k).client.call = .receiving)
    (hdown : (x.connections k).down.wire ≠ []) : (x.step room (.received k 1)).isSome := by
  obtain ⟨r, hr⟩ := Pipe.exists_recvSome hdown
  simp only [Net.step, if_pos hcall, hr, Option.map_some, Option.isSome_some]

/-- A session that waits for bytes gets them when they are there. -/
theorem exists_read (hloop : (x.connections k).loop = .reading)
    (hup : (x.connections k).up.wire ≠ []) : (x.step room (.read k 1)).isSome := by
  obtain ⟨r, hr⟩ := Pipe.exists_recvSome hup
  simp only [Net.step, if_pos hloop, hr, Option.map_some, Option.isSome_some]

/-- A direction without room has something to read. -/
theorem wire_ne_nil {p : Pipe} (hpos : 0 < room) (hfull : room ≤ p.wire.length) : p.wire ≠ [] :=
  List.ne_nil_of_length_pos (hpos.trans_le hfull)

/-- **Somebody can always go on**: by where the client is, and then by where the loop is. -/
theorem Talking.exists_carries (h : x.Talking) (hpos : 0 < room)
    (hfailed : (x.connections k).client.failed = false) (hrests : ¬ Rests room k x) :
    ∃ a : Move, a.Carries k ∧ (x.step room a).isSome := by
  obtain ⟨hcall, hsettled, hleft, hjammed⟩ : (x.connections k).client.call ≠ .idle
      ∧ ¬ (x.connections k).Settled ∧ ¬ Left room (x.connections k)
      ∧ ¬ Jammed room (x.connections k) := by
    simpa only [Rests, not_or] using hrests
  cases hc : (x.connections k).client.call with
  | idle => exact absurd hc hcall
  | sending =>
    by_cases hup : (x.connections k).up.wire.length < room
    · exact ⟨.sent k 1, rfl, h.exists_sent hc hup⟩
    rw [not_lt] at hup
    cases hloop : (x.connections k).loop with
    | testing => exact ⟨.test k, rfl, exists_test hloop⟩
    | pumping => exact ⟨.turn k, rfl, exists_turn hloop⟩
    | reading => exact ⟨.read k 1, rfl, exists_read hloop (wire_ne_nil hpos hup)⟩
    | writing =>
      by_cases hdown : (x.connections k).down.wire.length < room
      · exact ⟨.written k 1, rfl, h.exists_written hloop hdown⟩
      · exact absurd ⟨hc, hloop, hup, not_lt.mp hdown⟩ hjammed
    | closed => exact absurd ⟨hloop, .inr ⟨hc, hup⟩⟩ hleft
  | receiving =>
    by_cases hdown : (x.connections k).down.wire = []
    · cases hloop : (x.connections k).loop with
      | testing => exact ⟨.test k, rfl, exists_test hloop⟩
      | pumping => exact ⟨.turn k, rfl, exists_turn hloop⟩
      | reading =>
        by_cases hup : (x.connections k).up.wire = []
        · exact absurd ⟨hfailed, hc, hloop, hup, hdown⟩ hsettled
        · exact ⟨.read k 1, rfl, exists_read hloop hup⟩
      | writing =>
        refine ⟨.written k 1, rfl, h.exists_written hloop ?_⟩
        rwa [hdown, List.length_nil]
      | closed => exact absurd ⟨hloop, .inl ⟨hc, hdown⟩⟩ hleft
    · exact ⟨.received k 1, rfl, exists_received hc hdown⟩

theorem failed_setConnection {j : ℕ} {c : Connection}
    (hc : c.client.failed = (x.connections j).client.failed) :
    ((x.setConnection j c).connections k).client.failed = (x.connections k).client.failed := by
  by_cases hk : k = j
  · subst hk
    rw [connections_setConnection_self, hc]
  · rw [connections_setConnection_of_ne hk]

theorem failed_setSession {j : ℕ} {r : Dispatcher × Session} {c : Connection}
    (hc : c.client = (x.connections j).client) :
    ((x.setSession j r c).connections k).client.failed = (x.connections k).client.failed :=
  failed_setConnection (congrArg Client.failed hc)

/-- Only a socket that fails makes a `send` return `false`. -/
theorem failed_step {a : Move} (hf : ¬ a.Fails k) (hs : x.step room a = some x') :
    (x'.connections k).client.failed = (x.connections k).client.failed := by
  cases a with
  | send j _ | recvFails j | readFails j | writeFails j | test j =>
    simp only [Net.step, Option.ite_none_right_eq_some, Option.some.injEq] at hs
    obtain ⟨-, rfl⟩ := hs
    exact failed_setConnection rfl
  | recv j =>
    simp only [Net.step, Option.ite_none_right_eq_some, Option.some.injEq] at hs
    obtain ⟨-, rfl⟩ := hs
    exact failed_setConnection (Client.failed_recv _)
  | sendFails j =>
    simp only [Net.step, Option.ite_none_right_eq_some, Option.some.injEq] at hs
    obtain ⟨-, rfl⟩ := hs
    rw [connections_setConnection_of_ne (Ne.symm hf)]
  | sent j n | written j n =>
    simp only [Net.step, Option.ite_none_right_eq_some, Option.map_eq_some_iff] at hs
    obtain ⟨-, _, -, rfl⟩ := hs
    exact failed_setConnection rfl
  | received j n =>
    simp only [Net.step, Option.ite_none_right_eq_some, Option.map_eq_some_iff] at hs
    obtain ⟨-, _, -, rfl⟩ := hs
    exact failed_setConnection (Client.failed_recv _)
  | read j n =>
    simp only [Net.step, Option.ite_none_right_eq_some, Option.map_eq_some_iff] at hs
    obtain ⟨-, _, -, rfl⟩ := hs
    exact failed_setSession rfl
  | turn j =>
    simp only [Net.step, Option.ite_none_right_eq_some, Option.some.injEq] at hs
    obtain ⟨-, rfl⟩ := hs
    unfold Net.turn
    split
    · exact failed_setSession rfl
    · refine failed_setSession ?_
      split_ifs <;> rfl
  | stop =>
    obtain rfl := Option.some.inj hs
    rfl
  | expire i =>
    obtain rfl := Option.some.inj hs
    rfl

end Net

open Net in
/-- **Every call returns, unless nothing is owed.**  In a run that is fair to a connection whose
sockets do not fail, its client is ever again in no call, or all it said is handled and all the
replies to it are returned, or its session is over and nothing more will come of the call, or both
ends wait in `send_all` with the buffers full. -/
theorem Net.returns_of_fair {e : Engine} {capacity room k : ℕ} {x : ℕ → Net} {a : ℕ → Move}
    (hroom : 0 < room) (h₀ : Guarded.Reach (step room) (fun _ _ => True) (start e capacity) (x 0))
    (hfailed : ((x 0).connections k).client.failed = false) (hruns : Guarded.Runs (step room) x a)
    (hfair : Guarded.Fair (step room) (Move.Carries k) x a) (hsockets : ∀ i, ¬ (a i).Fails k)
    (i : ℕ) :
    ∃ j, i ≤ j ∧ (((x j).connections k).client.call = .idle
      ∨ (((x j).connections k).handled = Session.received ((x j).connections k).client.said
        ∧ ((x j).connections k).client.returned = Session.received ((x j).sessions k).sent)
      ∨ Left room ((x j).connections k) ∨ Jammed room ((x j).connections k)) := by
  have htalking : ∀ i, (x i).Talking := fun i =>
    talking_of_reach (hruns.reach (fun _ => trivial) h₀ i)
  have hok : ∀ i, ((x i).connections k).client.failed = false := by
    intro i
    induction i with
    | zero => exact hfailed
    | succ i ih => exact (failed_step (hsockets i) (hruns i)).trans ih
  obtain ⟨j, hij, hrests⟩ := Guarded.Fair.eventually (fun x : Net => x.load k) (Rests room k) hfair
    (fun i hr => (htalking i).exists_carries hroom (hok i) hr)
    (fun i _ ha => load_lt_of_carries ha (hruns i))
    (fun i hr ha => by
      obtain ⟨hc, hs⟩ := same_of_elsewhere (fun hcall => hr (.inl hcall)) ha (hsockets i) (hruns i)
      simp only [load, hc, hs, le_refl]) i
  refine ⟨j, hij, hrests.imp_right (Or.imp_left fun hsettled => ?_)⟩
  exact (htalking j k).settled hsettled

namespace Net

/-- Nothing carries on a connection that is idle at both ends. -/
theorem not_isSome_of_idle {x : Net} {k room : ℕ} {a : Move}
    (hcall : (x.connections k).client.call = .idle) (hloop : (x.connections k).loop = .reading)
    (hup : (x.connections k).up.wire = []) (ha : a.Carries k) : ¬ (x.step room a).isSome := by
  have hread : ∀ n, (x.connections k).up.recvSome n = none := by
    intro n
    refine if_neg fun hn => ?_
    rw [hup] at hn
    exact absurd (hn.1.trans_le hn.2.2) (Nat.lt_irrefl 0)
  cases a with
  | sent j n | received j n | test j | turn j | written j n =>
    obtain rfl : j = k := ha
    simp [Net.step, hcall, hloop]
  | read j n =>
    obtain rfl : j = k := ha
    simp [Net.step, hloop, hread n]
  | _ => exact ha.elim

end Net

open Net in
/-- A heartbeat is on its way back while the server is told to stop. -/
theorem Net.returns_of_heartbeat :
    ∃ (x : ℕ → Net) (a : ℕ → Move), Guarded.Runs (step 8) x a
      ∧ Guarded.Fair (step 8) (Move.Carries 1) x a
      ∧ ((x 0).connections 1).client.call = .receiving
      ∧ ∃ j, 0 ≤ j ∧ (((x j).connections 1).client.call = .idle
        ∨ (((x j).connections 1).handled = Session.received ((x j).connections 1).client.said
          ∧ ((x j).connections 1).client.returned = Session.received ((x j).sessions 1).sent)
        ∨ Left 8 ((x j).connections 1) ∨ Jammed 8 ((x j).connections 1)) := by
  have hrun : (Guarded.run (step 8) (fun _ _ => True)
      (start ([⟨1⟩].foldl (Engine.addBook fun _ => true) {}) 2)
      [.send 1 .heartbeat, .sent 1 8, .test 1, .read 1 8, .turn 1, .turn 1, .written 1 8, .test 1,
        .recv 1]).map
      (fun x => (decide ((x.connections 1).client.call = .receiving
        ∧ (x.connections 1).client.failed = false), (x.step 8 (.received 1 8)).map fun y =>
          decide ((y.connections 1).client.call = .idle ∧ (y.connections 1).loop = .reading
            ∧ (y.connections 1).up.wire = []))) = some (true, some true) := by decide +kernel
  obtain ⟨x₀, hx₀, hfacts⟩ := Option.map_eq_some_iff.mp hrun
  obtain ⟨hstart, hnext⟩ := Prod.mk.inj hfacts
  obtain ⟨hcall, hfailed⟩ := of_decide_eq_true hstart
  obtain ⟨x₁, hx₁, hend⟩ := Option.map_eq_some_iff.mp hnext
  obtain ⟨hidle, hloop, hup⟩ := of_decide_eq_true hend
  have hruns : Guarded.Runs (step 8)
      (fun i => if i = 0 then x₀ else if i = 1 then x₁ else { x₁ with running := false })
      (fun i => if i = 0 then .received 1 8 else .stop) := by
    intro i
    cases i with
    | zero => exact hx₁
    | succ i =>
      cases i with
      | zero => rfl
      | succ i => rfl
  have hfair : Guarded.Fair (step 8) (Move.Carries 1)
      (fun i => if i = 0 then x₀ else if i = 1 then x₁ else { x₁ with running := false })
      (fun i => if i = 0 then .received 1 8 else .stop) := by
    intro i hi
    obtain ⟨b, hb, hsome⟩ := hi (i + 2) (Nat.le_add_right i 2)
    exact absurd hsome (not_isSome_of_idle (x := { x₁ with running := false }) hidle hloop hup hb)
  refine ⟨_, _, hruns, hfair, hcall,
    returns_of_fair (by decide) (Guarded.Reach.of_run hx₀) hfailed hruns hfair (fun i => ?_) 0⟩
  by_cases hi : i = 0
  · simp only [hi, if_true, Move.Fails, not_false_iff]
  · simp only [hi, if_false, Move.Fails, not_false_iff]

open Net in
/-- A client that sends heartbeats and never reads: the fourth one finds both buffers full. -/
example : (Guarded.run (step 8) (fun _ _ => True)
    (start ([⟨1⟩].foldl (Engine.addBook fun _ => true) {}) 2)
    [.send 1 .heartbeat, .sent 1 8, .test 1, .read 1 8, .turn 1, .turn 1, .written 1 8, .test 1,
      .send 1 .heartbeat, .sent 1 8, .read 1 8, .turn 1, .turn 1, .send 1 .heartbeat, .sent 1 8,
      .send 1 .heartbeat]).map
    (fun x => decide ((x.connections 1).client.call = .sending ∧ (x.connections 1).loop = .writing
      ∧ (x.connections 1).up.wire.length = 8 ∧ (x.connections 1).down.wire.length = 8))
    = some true := by decide +kernel

end Ordbk
