import Ordbk.Gateway.Dispatcher

/-!
# Refinement/Phases — what a message does to a session

A handler changes the log-on state, queues a block of replies, and nothing else
(`dispatch_session`). The state moves from `notLoggedOn` over `active` to `closing` and never back,
and only an active session lets an order through to the engine (`dispatch_idle`).
-/

namespace Ordbk

namespace Session

/-- Emit one after another. -/
def emitAll (s : Session) (bodies : List MessageBody) : Session := bodies.foldl emit s

theorem state_emitAll (s : Session) (bodies : List MessageBody) :
    (s.emitAll bodies).state = s.state := by
  induction bodies generalizing s with
  | nil => rfl
  | cons b bodies ih => exact ih (s.emit b)

theorem clientId_emitAll (s : Session) (bodies : List MessageBody) :
    (s.emitAll bodies).clientId = s.clientId := by
  induction bodies generalizing s with
  | nil => rfl
  | cons b bodies ih => exact ih (s.emit b)

theorem sent_emitAll (s : Session) (bodies : List MessageBody) :
    (s.emitAll bodies).sent = s.sent ++ bodies := by
  induction bodies generalizing s with
  | nil => exact (List.append_nil _).symm
  | cons b bodies ih =>
    refine (ih (s.emit b)).trans ?_
    rw [sent_emit, List.append_assoc, List.singleton_append]

theorem framer_emitAll (s : Session) (bodies : List MessageBody) :
    (s.emitAll bodies).framer = s.framer := by
  induction bodies generalizing s with
  | nil => rfl
  | cons b bodies ih => exact ih (s.emit b)

/-- What a message makes of the log-on state: the first log-on activates, a log-out closes. -/
def enter (s : Session) : MessageBody → Session
  | .logon m =>
    if s.state = .notLoggedOn then { s with clientId := m.clientId, state := .active } else s
  | .logout => { s with state := .closing }
  | _ => s

theorem framer_enter (s : Session) (b : MessageBody) : (s.enter b).framer = s.framer := by
  cases b with
  | logon m =>
    unfold enter
    split_ifs <;> rfl
  | _ => rfl

/-- Entering says nothing. -/
theorem quiet_enter (s : Session) (b : MessageBody) : (s.enter b).sent = s.sent
    ∧ (s.enter b).outbound = s.outbound ∧ (s.enter b).outSeq = s.outSeq := by
  cases b with
  | logon m =>
    unfold enter
    split_ifs <;> exact ⟨rfl, rfl, rfl⟩
  | _ => exact ⟨rfl, rfl, rfl⟩

end Session

/-- A message for the engine. -/
def MessageBody.isOrder : MessageBody → Bool
  | .newOrder _ => true
  | .cancelOrder _ => true
  | _ => false

def MessageBody.isLogon : MessageBody → Bool
  | .logon _ => true
  | _ => false

/-- The id an order is known to its client by. -/
def MessageBody.orderId : MessageBody → UInt64
  | .newOrder m => m.clientOrderId
  | .cancelOrder m => m.clientOrderId
  | _ => 0

namespace Dispatcher

variable (d : Dispatcher) (s : Session) (b : MessageBody)

/-- The replies to an order that has been with the engine. -/
theorem report_eq (m : NewOrderMsg) (e : Engine) (status : OrderStatus) (trades : List Trade) :
    report s m e status trades = s.emitAll
      (if status = .rejected then [.orderReject ⟨m.clientOrderId, classify .rejected m e⟩]
      else .orderAck ⟨m.clientOrderId, m.clientOrderId⟩ ::
        trades.map fun t => .fill (fillMsg m status t)) := by
  unfold report
  split_ifs
  · rfl
  · rw [Session.emitAll, List.foldl_cons, List.foldl_map]

/-- **A handler moves the state and queues its replies.** -/
theorem dispatch_session : ∃ block, (d.dispatch s b).2 = (s.enter b).emitAll block := by
  cases b with
  | logon m =>
    simp only [dispatch, handleLogon, Session.enter, ne_eq, ite_not]
    split_ifs
    · exact ⟨[_], rfl⟩
    · exact ⟨[], rfl⟩
  | logout => exact ⟨[_], rfl⟩
  | heartbeat => exact ⟨[_], rfl⟩
  | newOrder m =>
    simp only [dispatch, handleNewOrder, Session.enter]
    split_ifs
    · exact ⟨[_], rfl⟩
    · cases d.pool.acquire with
      | none => exact ⟨[_], rfl⟩
      | some r => exact ⟨_, report_eq ..⟩
  | cancelOrder m =>
    simp only [dispatch, handleCancel, Session.enter]
    split_ifs
    · exact ⟨[_], rfl⟩
    · exact ⟨[_], rfl⟩
    · exact ⟨[_], rfl⟩
  | _ => exact ⟨[], rfl⟩

/-- No handler reads from the wire. -/
theorem framer_dispatch : (d.dispatch s b).2.framer = s.framer := by
  obtain ⟨block, hblock⟩ := d.dispatch_session s b
  rw [hblock, Session.framer_emitAll, Session.framer_enter]

theorem state_dispatch : (d.dispatch s b).2.state = (s.enter b).state := by
  obtain ⟨block, hblock⟩ := d.dispatch_session s b
  rw [hblock, Session.state_emitAll]

theorem clientId_dispatch : (d.dispatch s b).2.clientId = (s.enter b).clientId := by
  obtain ⟨block, hblock⟩ := d.dispatch_session s b
  rw [hblock, Session.clientId_emitAll]

variable {s b}

/-- **What does not come from an active session, or is no order, does not reach the engine.** -/
theorem dispatch_idle (h : s.state ≠ .active ∨ b.isOrder = false) : (d.dispatch s b).1 = d := by
  cases b with
  | newOrder m =>
    have hs : s.state ≠ .active := h.resolve_right nofun
    simp only [dispatch, handleNewOrder, if_pos hs]
  | cancelOrder m =>
    have hs : s.state ≠ .active := h.resolve_right nofun
    simp only [dispatch, handleCancel, if_pos hs]
  | _ => rfl

/-- An order outside the log-on window is refused, and that is all. -/
theorem dispatch_refused (hs : s.state ≠ .active) (hb : b.isOrder) :
    d.dispatch s b = (d, s.emit (.orderReject ⟨b.orderId, .notLoggedOn⟩)) := by
  cases b with
  | newOrder m => simp only [dispatch, handleNewOrder, if_pos hs, MessageBody.orderId]
  | cancelOrder m => simp only [dispatch, handleCancel, if_pos hs, MessageBody.orderId]
  | _ => nomatch hb

/-- The engine sees the state and the client of a session, nothing else. -/
theorem dispatch_congr {s' : Session} (hs : s.state = s'.state) (hc : s.clientId = s'.clientId) :
    (d.dispatch s b).1 = (d.dispatch s' b).1 := by
  cases b with
  | newOrder m =>
    simp only [dispatch, handleNewOrder, hs, hc]
    split_ifs
    · rfl
    · cases d.pool.acquire <;> rfl
  | cancelOrder m =>
    simp only [dispatch, handleCancel, hs]
    split_ifs <;> rfl
  | _ => rfl

end Dispatcher

end Ordbk
