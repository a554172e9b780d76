import Ordbk.Matching.Engine
import Ordbk.Protocol.Session

/-!
# Gateway/Dispatcher — from inbound messages to the engine and back

The five handlers of `dispatcher.cpp` and the loop that feeds them.  A `Dispatcher` holds a
reference to the engine, which holds one to the pool; here it *is* the pair.  The counter
`next_server_order_id_` is never used by the source, and the enqueue time is read by no handler.

`Exchange` puts any number of sessions in front of one dispatcher and lets bytes arrive, messages be
handled and instruments expire in any order.
-/

namespace Ordbk

/-- What the dispatcher's reference leads to. -/
structure Dispatcher where
  /-- The one engine of the gateway, -/
  engine : Engine
  /-- and the pool it takes its orders from. -/
  pool : Pool

/-- The order a message asks for, as written into its slot. -/
def NewOrderMsg.order (m : NewOrderMsg) (client : ClientId) : OrderData where
  id := m.clientOrderId
  limitPrice := m.price.toInt
  initialQty := m.quantity
  filledQty := 0
  instrument := m.instrumentId
  client := client
  status := .new
  side := .ofByte m.side
  type := .ofByte m.orderType
  tif := .ofByte m.tif
  ts := 0

/-- The reason of a refusal, worked out again from the message and from the books that are left. -/
def classify (s : OrderStatus) (m : NewOrderMsg) (engine : Engine) : RejectReason :=
  if s ≠ .rejected then .unknown
  else if (engine.book m.instrumentId).isNone then .unknownInstrument
  else if m.quantity = 0 then .invalidQuantity
  else if m.orderType = 0 ∧ m.price ≤ 0 then .invalidPrice
  else if m.orderType = 1 ∧ (m.tif = 0 ∨ m.tif = 3) then .invalidTif
  else if m.tif = 2 then .insufficientLiquidity
  else .unknown

namespace Dispatcher

/-- Only the first one counts. -/
def handleLogon (s : Session) (m : LogonMsg) : Session :=
  if s.state ≠ .notLoggedOn then s
  else { s with clientId := m.clientId, state := .active }.emit (.logon ⟨m.clientId⟩)

/-- From any state. -/
def handleLogout (s : Session) : Session := { s with state := .closing }.emit .logout

def handleHeartbeat (s : Session) : Session := s.emit .heartbeat

/-- The report on one execution. -/
def fillMsg (m : NewOrderMsg) (status : OrderStatus) (t : Trade) : FillMsg :=
  ⟨m.clientOrderId, m.clientOrderId, Int64.ofInt t.price, t.quantity, status.toByte⟩

/-- What a client is told once the engine has had its order. -/
def report (s : Session) (m : NewOrderMsg) (engine : Engine) (status : OrderStatus)
    (trades : List Trade) : Session :=
  if status = .rejected then
    s.emit (.orderReject ⟨m.clientOrderId, classify .rejected m engine⟩)
  else
    trades.foldl (fun s t => s.emit (.fill (fillMsg m status t)))
      (s.emit (.orderAck ⟨m.clientOrderId, m.clientOrderId⟩))

/-- Not logged on, no slot, or: the engine has it, and its slot goes back to the pool if it has
ended. -/
def handleNewOrder (d : Dispatcher) (s : Session) (m : NewOrderMsg) : Dispatcher × Session :=
  if s.state ≠ .active then (d, s.emit (.orderReject ⟨m.clientOrderId, .notLoggedOn⟩))
  else match d.pool.acquire with
    | none => (d, s.emit (.orderReject ⟨m.clientOrderId, .unknown⟩))
    | some (order, pool) =>
      let (engine, pool, result) := d.engine.submit (pool.write order (m.order s.clientId)) order
      let o := pool.storage result.order
      ({ engine, pool := if o.isTerminal then pool.release result.order else pool },
        report s m engine o.status result.trades)

/-- The client's own name for an order is its id in the book, whoever the client is. -/
def handleCancel (d : Dispatcher) (s : Session) (m : CancelOrderMsg) : Dispatcher × Session :=
  if s.state ≠ .active then (d, s.emit (.orderReject ⟨m.clientOrderId, .notLoggedOn⟩))
  else
    let (engine, pool, ok) := d.engine.cancel d.pool m.instrumentId m.clientOrderId
    ({ engine, pool },
      s.emit (if ok then .cancelled ⟨m.clientOrderId⟩
        else .orderReject ⟨m.clientOrderId, .unknown⟩))

/-- The executions a message makes. -/
def executions (d : Dispatcher) (s : Session) : MessageBody → List Trade
  | .newOrder m =>
    if s.state ≠ .active then []
    else match d.pool.acquire with
      | none => []
      | some (a, pool) => (d.engine.submit (pool.write a (m.order s.clientId)) a).2.2.trades
  | _ => []

/-- The visitor of `pump`; the outbound kinds are ignored when a client sends them. -/
def dispatch (d : Dispatcher) (s : Session) : MessageBody → Dispatcher × Session
  | .logon m => (d, handleLogon s m)
  | .logout => (d, handleLogout s)
  | .heartbeat => (d, handleHeartbeat s)
  | .newOrder m => d.handleNewOrder s m
  | .cancelOrder m => d.handleCancel s m
  | .orderAck _ => (d, s)
  | .orderReject _ => (d, s)
  | .fill _ => (d, s)
  | .cancelled _ => (d, s)

/-- One evaluation of the condition of `pump`'s loop and, if it holds, of the body. -/
def turn (d : Dispatcher) (s : Session) : Dispatcher × Session :=
  match s.nextInbound with
  | (s, none) => (d, s)
  | (s, some msg) => d.dispatch s msg.body

/-- The loop of `pump`. -/
def pumpLoop : ℕ → Dispatcher → Session → Dispatcher × Session
  | 0, d, s => (d, s)
  | fuel + 1, d, s =>
    match s.nextInbound with
    | (s, none) => (d, s)
    | (s, some msg) =>
      let (d, s) := d.dispatch s msg.body
      pumpLoop fuel d s

/-- `pump`: every pass takes a header's worth of bytes off the buffer, so there are fewer passes
than bytes (`nextInbound_pump`). -/
def pump (d : Dispatcher) (s : Session) : Dispatcher × Session :=
  pumpLoop (s.framer.buf.length + 1) d s

end Dispatcher

/-! ## Many sessions

A session's bytes are its own; the dispatcher is shared.  Nothing here says when bytes come and when
they are handled. -/

/-- Sessions, by index, in front of one engine. -/
structure Exchange where
  /-- The dispatcher all sessions share. -/
  dispatcher : Dispatcher
  /-- An index that was never used is a session nobody has logged on to. -/
  sessions : ℕ → Session

/-- What can happen next. -/
inductive Event
  /-- A chunk of bytes arrives for a session. -/
  | bytes (k : ℕ) (data : List Byte)
  /-- `pump` takes one turn on a session. -/
  | turn (k : ℕ)
  /-- The operator expires an instrument. -/
  | expire (i : InstrumentId)
  deriving DecidableEq, Repr

/-- A message that is handled: on which session, and in which state of the gateway. -/
structure Handling where
  /-- The one it came in on. -/
  session : ℕ
  /-- As it was just before. -/
  gateway : Exchange
  /-- And what it says. -/
  body : MessageBody

namespace Exchange

/-- Fresh sessions, a pool of the given capacity, and the engine of a registry. -/
def start (engine : Engine) (capacity : ℕ) : Exchange where
  dispatcher := ⟨engine, Pool.new capacity⟩
  sessions := fun k => { sessionId := UInt64.ofNat k }

/-- What handling a message of one session leaves. -/
def withSession (x : Exchange) (k : ℕ) (r : Dispatcher × Session) : Exchange :=
  ⟨r.1, Function.update x.sessions k r.2⟩

/-- **One event.** -/
def step (x : Exchange) : Event → Option Exchange
  | .bytes k data => some (x.withSession k (x.dispatcher, (x.sessions k).onBytes data))
  | .turn k => some (x.withSession k (x.dispatcher.turn (x.sessions k)))
  | .expire i =>
    let (engine, pool, _) := x.dispatcher.engine.expireInstrument x.dispatcher.pool i
    some ⟨⟨engine, pool⟩, x.sessions⟩

/-- The message the next turn on a session will handle. -/
def pending (x : Exchange) (k : ℕ) : Option MessageBody :=
  ((x.sessions k).nextInbound.2).map (·.body)

/-- The message an event handles. -/
def handles (x : Exchange) : Event → List Handling
  | .turn k => (x.pending k).toList.map fun body => ⟨k, x, body⟩
  | _ => []

/-- The executions an event makes. -/
def trades (x : Exchange) : Event → List Trade
  | .turn k =>
    match x.pending k with
    | some body => x.dispatcher.executions (x.sessions k) body
    | none => []
  | _ => []

end Exchange

end Ordbk
