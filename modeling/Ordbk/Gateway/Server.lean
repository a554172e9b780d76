import Ordbk.Gateway.Dispatcher
import Ordbk.Lib.Reach

/-!
# Gateway/Server — a thread for every connection, one engine for all of them

`accept_loop` starts a thread for each connection, and every thread calls `pump` on the one engine,
without a lock.  In `Exchange` a turn of `pump` happens at once; here a turn that reaches the engine
is taken apart into its calls into the book, its updates of filled quantities and its calls into the
pool, and between any two of them the other threads may take theirs.  What a thread does in between,
on its own, belongs to the step before.

Three fields are ghosts: `events` remembers what arrived and which turns began, `filled` how much
each slot's order has been filled by, over the integers, and `executed` the executions of each
session's requests.
-/

namespace Ordbk

/-- A call of `handle_new_order` under way: its message, its order, and `result.trades` so far. -/
structure Ticket where
  msg : NewOrderMsg
  order : Slot
  trades : List Trade := []
  deriving DecidableEq, Repr

/-- Where a session's thread is. -/
inductive Thread
  /-- Between two messages. -/
  | idle
  /-- The order is written; about to look for its book and check it. -/
  | entering (t : Ticket)
  /-- About to test the condition of the matching loop and peek at the other side. -/
  | looking (t : Ticket)
  /-- About to add `fill` to the taker. -/
  | filling (t : Ticket) (maker : Slot) (price : Price) (fill : Quantity)
  /-- About to add `fill` to the maker. -/
  | hitting (t : Ticket) (maker : Slot) (price : Price) (fill : Quantity)
  /-- The maker was found full; about to pop the top of its side. -/
  | popping (t : Ticket) (maker : Slot)
  /-- About to give the maker back to the pool. -/
  | freeing (t : Ticket) (maker : Slot)
  /-- About to bring the order to rest. -/
  | resting (t : Ticket)
  /-- `submit` has returned; about to read the order's status and reply. -/
  | replying (t : Ticket)
  /-- About to give the order back to the pool. -/
  | closing (t : Ticket)
  /-- About to look for an id and take its order out of the book. -/
  | cancelling (m : CancelOrderMsg)
  /-- About to give the cancelled order back to the pool, and to reply. -/
  | returning (m : CancelOrderMsg) (order : Slot)
  deriving DecidableEq, Repr

/-- The instrument a thread is busy with. -/
def Thread.instrument : Thread → Option InstrumentId
  | idle => none
  | entering t => some t.msg.instrumentId
  | looking t => some t.msg.instrumentId
  | filling t _ _ _ => some t.msg.instrumentId
  | hitting t _ _ _ => some t.msg.instrumentId
  | popping t _ => some t.msg.instrumentId
  | freeing t _ => some t.msg.instrumentId
  | resting t => some t.msg.instrumentId
  | replying t => some t.msg.instrumentId
  | closing t => some t.msg.instrumentId
  | cancelling m => some m.instrumentId
  | returning m _ => some m.instrumentId

/-- Whether a thread has still to do with the book of its instrument: not where there is none, nor
when its order is out of the book for good.  The reply reads the status an order has by then, so one
that has come to rest is not done with before. -/
def Thread.uses (e : Engine) (st : Store) : Thread → Bool
  | idle => false
  | entering t => (e.matchers.lookup t.msg.instrumentId).isSome
  | looking _ => true
  | filling _ _ _ _ => true
  | hitting _ _ _ _ => true
  | popping _ _ => true
  | freeing _ _ => true
  | resting _ => true
  | replying t => (st.data t.order).rests
  | closing _ => false
  | cancelling m => (e.matchers.lookup m.instrumentId).isSome
  | returning _ _ => false

/-- The guards of the matching loop: the maker to trade with, if there is one. -/
def Matcher.peek (m : Matcher) (taker : Slot) : Option Slot :=
  let t := m.pool.storage taker
  if 0 < t.remaining then
    match m.book.peekTop (opposite t.side) with
    | none => none
    | some maker =>
      if blocked t.toOrderData (m.pool.storage maker).limitPrice then none else some maker
  else none

/-- Where a matcher of the engine has got to. -/
def Dispatcher.withMatcher (d : Dispatcher) (i : InstrumentId) (m : Matcher) : Dispatcher :=
  ⟨{ d.engine with matchers := d.engine.matchers.insert i m.book }, m.pool⟩

/-- **The server and its threads.** -/
structure Server extends Exchange where
  /-- Where the thread of each session is. -/
  threads : ℕ → Thread := fun _ => .idle
  /-- `next_session_id_`: the sessions are those from 1 up to it. -/
  nextSessionId : ℕ := 1
  /-- What has arrived and which turns have begun, oldest first. -/
  events : List Event := []
  /-- How much the order in a slot has been filled by, added up without wrapping. -/
  filled : Slot → ℕ := fun _ => 0
  /-- The executions of each session's requests. -/
  executed : ℕ → List Trade := fun _ => []

/-- What can happen next. -/
inductive Move
  /-- A connection is accepted. -/
  | accept
  /-- A chunk of bytes arrives for a session. -/
  | bytes (k : ℕ) (data : List Byte)
  /-- A session's thread takes the next message. -/
  | turn (k : ℕ)
  /-- A session's thread goes on with the message it has. -/
  | advance (k : ℕ)
  deriving DecidableEq, Repr

namespace Server

/-- Fresh sessions, a pool of the given capacity, the engine of a registry, and no connection. -/
def start (engine : Engine) (capacity : ℕ) : Server where
  toExchange := Exchange.start engine capacity

/-- Thread `k` has taken a step. -/
def after (x : Server) (k : ℕ) (d : Dispatcher) (s : Session) (t : Thread) : Server :=
  { x with
    toExchange := x.withSession k (d, s)
    threads := Function.update x.threads k t }

/-- A step of thread `k` that leaves its session alone. -/
def goto (x : Server) (k : ℕ) (d : Dispatcher) (t : Thread) : Server :=
  x.after k d (x.sessions k) t

/-! ## The steps of `handle_new_order`

The fills of taker and maker are two writes, and the maker is looked at once more before it leaves
the book; another thread may come in between. -/

/-- Take a message: one that is no request to the engine is handled at once, for another the
handler begins. -/
def begin (x : Server) (k : ℕ) : Server :=
  let d := x.dispatcher
  match (x.sessions k).nextInbound with
  | (s, none) => x.after k d s .idle
  | (s, some msg) =>
    match msg.body with
    | .newOrder m =>
      if s.state ≠ .active then
        x.after k d (s.emit (.orderReject ⟨m.clientOrderId, .notLoggedOn⟩)) .idle
      else match d.pool.acquire with
        | none => x.after k d (s.emit (.orderReject ⟨m.clientOrderId, .unknown⟩)) .idle
        | some (order, pool) =>
          { x.after k { d with pool := pool.write order (m.order s.clientId) } s
              (.entering ⟨m, order, []⟩) with
            filled := Function.update x.filled order 0 }
    | .cancelOrder m =>
      if s.state ≠ .active then
        x.after k d (s.emit (.orderReject ⟨m.clientOrderId, .notLoggedOn⟩)) .idle
      else x.after k d s (.cancelling m)
    | .logon m => x.after k d (Dispatcher.handleLogon s m) .idle
    | .logout => x.after k d (Dispatcher.handleLogout s) .idle
    | .heartbeat => x.after k d (Dispatcher.handleHeartbeat s) .idle
    | .orderAck _ => x.after k d s .idle
    | .orderReject _ => x.after k d s .idle
    | .fill _ => x.after k d s .idle
    | .cancelled _ => x.after k d s .idle

/-- The status of the thread's own order is set. -/
def mark (x : Server) (k : ℕ) (t : Ticket) (status : OrderStatus) (next : Thread) : Server :=
  let d := x.dispatcher
  x.goto k { d with pool := d.pool.modify t.order fun o => { o with status } } next

/-- `Engine::submit`, and the early returns of `Matcher::submit`. -/
def enter (x : Server) (k : ℕ) (t : Ticket) : Server :=
  let d := x.dispatcher
  let o := d.pool.storage t.order
  match d.engine.matchers.lookup o.instrument with
  | none => x.mark k t .rejected (.replying t)
  | some book =>
    if Matcher.rejects ⟨book, d.pool⟩ o.toOrderData then x.mark k t .rejected (.replying t)
    else x.goto k d (.looking t)

/-- What `submit` does when the matching loop is over. -/
def conclude (x : Server) (k : ℕ) (t : Ticket) : Server :=
  let o := x.dispatcher.pool.storage t.order
  if o.isFullyFilled then x.mark k t .filled (.replying t)
  else if o.type = .market ∨ o.tif = .ioc then
    x.mark k t (if 0 < o.filledQty then .partiallyFilled else .cancelled) (.replying t)
  else x.mark k t (if 0 < o.filledQty then .partiallyFilled else .new) (.resting t)

/-- The condition of the loop, the peek, and what is computed from it. -/
def look (x : Server) (k : ℕ) (t : Ticket) (book : OrderBook) : Server :=
  let d := x.dispatcher
  match Matcher.peek ⟨book, d.pool⟩ t.order with
  | none => x.conclude k t
  | some maker =>
    let fill := qtyMin (d.pool.storage t.order).remaining (d.pool.storage maker).remaining
    x.goto k d (.filling t maker (d.pool.storage maker).limitPrice fill)

/-- `filled_qty += fill`. -/
def addFill (x : Server) (a : Slot) (fill : Quantity) : Server :=
  { x with
    dispatcher.pool := x.dispatcher.pool.modify a fun o =>
      { o with filledQty := o.filledQty + fill }
    filled := Function.update x.filled a (x.filled a + fill.toNat) }

/-- The taker is filled. -/
def fillTaker (x : Server) (k : ℕ) (t : Ticket) (maker : Slot) (price : Price) (fill : Quantity) :
    Server :=
  let x := x.addFill t.order fill
  x.goto k x.dispatcher (.hitting t maker price fill)

/-- The maker is filled, and the execution noted. -/
def fillMaker (x : Server) (k : ℕ) (t : Ticket) (maker : Slot) (price : Price) (fill : Quantity) :
    Server :=
  let x := x.addFill maker fill
  let d := x.dispatcher
  let o := d.pool.storage t.order
  let trade : Trade := ⟨(d.pool.storage maker).id, o.id, o.instrument, price, fill, o.ts⟩
  let t := { t with trades := t.trades ++ [trade] }
  let x := { x with executed := Function.update x.executed k (x.executed k ++ [trade]) }
  if (d.pool.storage maker).isFullyFilled then
    x.goto k { d with pool := d.pool.modify maker fun o => { o with status := .filled } }
      (.popping t maker)
  else
    x.goto k { d with pool := d.pool.modify maker fun o => { o with status := .partiallyFilled } }
      (.looking t)

/-- `pop_top`, of whatever is on top by now. -/
def pop (x : Server) (k : ℕ) (t : Ticket) (maker : Slot) (book : OrderBook) : Server :=
  let d := x.dispatcher
  let (book, st) := book.popTop d.pool.storage (opposite (d.pool.storage t.order).side)
  x.goto k (d.withMatcher t.msg.instrumentId ⟨book, { d.pool with storage := st }⟩)
    (.freeing t maker)

/-- `add_resting`. -/
def rest (x : Server) (k : ℕ) (t : Ticket) (book : OrderBook) : Server :=
  let d := x.dispatcher
  let (book, st) := book.addResting d.pool.storage t.order
  x.goto k (d.withMatcher t.msg.instrumentId ⟨book, { d.pool with storage := st }⟩) (.replying t)

/-- The replies; the status is the one the order has by now. -/
def reply (x : Server) (k : ℕ) (t : Ticket) : Server :=
  let d := x.dispatcher
  let o := d.pool.storage t.order
  x.after k d (Dispatcher.report (x.sessions k) t.msg d.engine o.status t.trades)
    (if o.isTerminal then .closing t else .idle)

/-- `pool_.release`. -/
def release (x : Server) (k : ℕ) (a : Slot) (next : Thread) : Server :=
  let d := x.dispatcher
  x.goto k { d with pool := d.pool.release a } next

/-! ## The steps of `handle_cancel`

The order leaves its book in one call and goes back to the pool in another. -/

/-- `Engine::cancel` up to `cancel_and_get`. -/
def cancel (x : Server) (k : ℕ) (m : CancelOrderMsg) : Server :=
  let d := x.dispatcher
  let refused := (x.sessions k).emit (.orderReject ⟨m.clientOrderId, .unknown⟩)
  match d.engine.matchers.lookup m.instrumentId with
  | none => x.after k d refused .idle
  | some book =>
    match book.cancelAndGet d.pool.storage m.clientOrderId with
    | (_, _, none) => x.after k d refused .idle
    | (book, st, some o) =>
      x.goto k (d.withMatcher m.instrumentId ⟨book, { d.pool with storage := st }⟩) (.returning m o)

/-- The cancelled order goes back to the pool. -/
def giveBack (x : Server) (k : ℕ) (m : CancelOrderMsg) (o : Slot) : Server :=
  let d := x.dispatcher
  let pool := (d.pool.modify o fun o => { o with status := .cancelled }).release o
  x.after k { d with pool } ((x.sessions k).emit (.cancelled ⟨m.clientOrderId⟩)) .idle

/-! ## The system

A thread is either between two messages, where `begin` takes the next one, or in a handler, where
`advance` goes on. -/

/-- The next step of a handler.  A matcher is looked up once and used until `submit` returns, which
no expiry interrupts here. -/
def advance (x : Server) (k : ℕ) : Option Server :=
  match x.threads k with
  | .idle => none
  | .entering t => some (x.enter k t)
  | .looking t => (x.dispatcher.engine.matchers.lookup t.msg.instrumentId).map (x.look k t)
  | .filling t maker price fill => some (x.fillTaker k t maker price fill)
  | .hitting t maker price fill => some (x.fillMaker k t maker price fill)
  | .popping t maker =>
    (x.dispatcher.engine.matchers.lookup t.msg.instrumentId).map (x.pop k t maker)
  | .freeing t maker => some (x.release k maker (.looking t))
  | .resting t => (x.dispatcher.engine.matchers.lookup t.msg.instrumentId).map (x.rest k t)
  | .replying t => some (x.reply k t)
  | .closing t => some (x.release k t.order .idle)
  | .cancelling m => some (x.cancel k m)
  | .returning m o => some (x.giveBack k m o)

/-- A connection whose thread is between two messages. -/
def Ready (x : Server) (k : ℕ) : Prop := (0 < k ∧ k < x.nextSessionId) ∧ x.threads k = .idle

instance (x : Server) (k : ℕ) : Decidable (x.Ready k) := inferInstanceAs (Decidable (_ ∧ _))

/-- **One step** of the server. -/
def step (x : Server) : Move → Option Server
  | .accept => some { x with nextSessionId := x.nextSessionId + 1 }
  | .bytes k data =>
    if x.Ready k then
      some { x with
        toExchange := x.withSession k (x.dispatcher, (x.sessions k).onBytes data)
        events := x.events ++ [.bytes k data] }
    else none
  | .turn k =>
    if x.Ready k then some { x.begin k with events := x.events ++ [.turn k] } else none
  | .advance k => x.advance k

/-- Thread `k` is not done with the book of an instrument. -/
def AtBook (x : Server) (k : ℕ) (i : InstrumentId) : Prop :=
  (x.threads k).instrument = some i
    ∧ (x.threads k).uses x.dispatcher.engine x.dispatcher.pool.storage = true

instance (x : Server) (k : ℕ) (i : InstrumentId) : Decidable (x.AtBook k i) :=
  inferInstanceAs (Decidable (_ ∧ _))

/-- Every thread is done with the book of an instrument. -/
def Vacant (x : Server) (i : InstrumentId) : Prop := ∀ k < x.nextSessionId, ¬ x.AtBook k i

/-- No thread is busy. -/
def Quiet (x : Server) : Prop := ∀ k < x.nextSessionId, x.threads k = .idle

instance (x : Server) (i : InstrumentId) : Decidable (x.Vacant i) :=
  inferInstanceAs (Decidable (∀ k < _, _))

instance (x : Server) : Decidable x.Quiet := inferInstanceAs (Decidable (∀ k < _, _))

/-- Thread `k` may begin with this message: every thread is done with the book of its instrument,
and if the pool is exhausted no thread is busy at all. -/
def Clear (x : Server) (k : ℕ) : Option MessageBody → Prop
  | some (.newOrder m) => (x.sessions k).state = .active →
    x.Vacant m.instrumentId ∧ (x.dispatcher.pool.freeSlots = [] → x.Quiet)
  | some (.cancelOrder m) => (x.sessions k).state = .active → x.Vacant m.instrumentId
  | _ => True

instance (x : Server) (k : ℕ) : DecidablePred (x.Clear k)
  | some (.newOrder _) => inferInstanceAs (Decidable (_ → _ ∧ (_ → _)))
  | some (.cancelOrder _) => inferInstanceAs (Decidable (_ → _))
  | some (.logon _) => inferInstanceAs (Decidable True)
  | some .logout => inferInstanceAs (Decidable True)
  | some .heartbeat => inferInstanceAs (Decidable True)
  | some (.orderAck _) => inferInstanceAs (Decidable True)
  | some (.orderReject _) => inferInstanceAs (Decidable True)
  | some (.fill _) => inferInstanceAs (Decidable True)
  | some (.cancelled _) => inferInstanceAs (Decidable True)
  | none => inferInstanceAs (Decidable True)

/-- **One request at a time in each book.** -/
def Apart (x : Server) : Move → Prop
  | .turn k => x.Clear k (x.pending k)
  | _ => True

instance (x : Server) : DecidablePred x.Apart
  | .accept => inferInstanceAs (Decidable True)
  | .bytes _ _ => inferInstanceAs (Decidable True)
  | .turn _ => inferInstanceAs (Decidable (x.Clear _ _))
  | .advance _ => inferInstanceAs (Decidable True)

end Server

end Ordbk
