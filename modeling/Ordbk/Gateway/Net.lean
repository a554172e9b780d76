import Ordbk.Gateway.Dispatcher

/-!
# Gateway/Net — clients, sockets and the loops of their sessions

`Client` at one end of a connection, `Server::session_loop` at the other, and `tcp.cpp` in between.
A socket takes as many bytes of a `send` as it likes, as long as no more than `room` are on the way
in that direction; it delivers as many of those to a `recv` as it likes, and may fail at any time.
What it delivers are the bytes sent, in order.  A `Net` is any number of connections in front of one
dispatcher, and any of their threads may take the next step.

As in `Exchange` a turn of `pump` happens at once.  Connection `k` is the one whose session has the
id `k`; a connection that is not accepted yet is one whose loop has not begun.
-/

namespace Ordbk

/-- The size of the buffers that `recv_some` is called with. -/
def kRecvSize : ℕ := 1024

/-! ## One direction of a connection

What one end has given to `send_all` and the other end has not received yet; the kernel's buffers
hold no more than `room`. -/

/-- The bytes of one direction, from the caller of `send_all` to the caller of `recv_some`.  `read`
is ghost: all that has come out. -/
structure Pipe where
  /-- What `send_all` has still to hand over, or has given up on. -/
  unsent : List Byte := []
  /-- On the way. -/
  wire : List Byte := []
  read : List Byte := []

namespace Pipe

/-- `send_all` begins. -/
def sendAll (p : Pipe) (data : List Byte) : Pipe := { p with unsent := data }

/-- A pass through the loop of `send_all`: the socket takes `n` bytes.  The caller is blocked while
the buffers between the two ends, which hold `room` bytes, are full. -/
def send (p : Pipe) (room n : ℕ) : Option Pipe :=
  if 0 < n ∧ n ≤ p.unsent.length ∧ p.wire.length + n ≤ room then
    some { p with unsent := p.unsent.drop n, wire := p.wire ++ p.unsent.take n }
  else none

/-- `recv_some` returns `n` bytes. -/
def recvSome (p : Pipe) (n : ℕ) : Option (Pipe × List Byte) :=
  if 0 < n ∧ n ≤ kRecvSize ∧ n ≤ p.wire.length then
    some ({ p with wire := p.wire.drop n, read := p.read ++ p.wire.take n }, p.wire.take n)
  else none

/-- All the bytes there have been. -/
def stream (p : Pipe) : List Byte := p.read ++ p.wire ++ p.unsent

end Pipe

/-! ## The two ends

Each end is in one call at a time, and goes on when the socket lets it. -/

/-- The call a client is in. -/
inductive Client.Call
  | idle
  /-- In the `send_all` of `send`. -/
  | sending
  /-- In the `recv_some` of `recv`. -/
  | receiving
  deriving DecidableEq, Repr

/-- `Client`.  The last four fields are ghosts: what it was given to send, what its `recv` has
returned, whether a `send` has returned `false`, and whether it was asked to send again after that.
-/
structure Client where
  /-- What has come in and is no message yet. -/
  framer : Framer := {}
  /-- `out_seq_`, the number of the last frame. -/
  outSeq : UInt32 := 0
  /-- Which of its two calls it is in, if any. -/
  call : Client.Call := .idle
  said : List MessageBody := []
  returned : List DecodedMessage := []
  failed : Bool := false
  astray : Bool := false

namespace Client

/-- `send` up to the call of `send_all`, and the bytes for that. -/
def send (c : Client) (body : MessageBody) : Client × List Byte :=
  ({ c with
      outSeq := c.outSeq + 1
      call := .sending
      said := c.said ++ [body]
      astray := c.astray || c.failed },
    encode (c.outSeq + 1) body)

/-- The loop of `recv` up to the call of `recv_some`. -/
def recv (c : Client) : Client :=
  match c.framer.next with
  | (framer, some m) => { c with framer, call := .idle, returned := c.returned ++ [m] }
  | (framer, none) => { c with framer, call := if framer.error.isSome then .idle else .receiving }

end Client

/-- Where the loop of a session is. -/
inductive Loop
  /-- About to test its condition. -/
  | testing
  /-- In `recv_some`. -/
  | reading
  /-- In `pump`. -/
  | pumping
  /-- In `send_all`. -/
  | writing
  /-- Over. -/
  | closed
  deriving DecidableEq, Repr

/-- A client and the loop of its session.  `handled` is ghost: the messages `pump` has taken. -/
structure Connection where
  /-- The other end, -/
  client : Client := {}
  /-- what it sends, -/
  up : Pipe := {}
  /-- and what it is sent. -/
  down : Pipe := {}
  /-- Where the thread in `session_loop` is. -/
  loop : Loop := .testing
  handled : List DecodedMessage := []

/-- **The server, its connections and the clients at their other ends.** -/
structure Net extends Exchange where
  /-- `running_`. -/
  running : Bool := true
  /-- What is not accepted yet is a client that has called nothing. -/
  connections : ℕ → Connection := fun _ => {}

/-- What can happen next. -/
inductive Net.Move
  /-- Client `k` calls `send`. -/
  | send (k : ℕ) (body : MessageBody)
  /-- The socket of client `k` takes `n` bytes. -/
  | sent (k n : ℕ)
  | sendFails (k : ℕ)
  /-- Client `k` calls `recv`. -/
  | recv (k : ℕ)
  /-- The socket of client `k` delivers `n` bytes. -/
  | received (k n : ℕ)
  | recvFails (k : ℕ)
  /-- The loop of session `k` tests its condition. -/
  | test (k : ℕ)
  /-- The socket of session `k` delivers `n` bytes. -/
  | read (k n : ℕ)
  | readFails (k : ℕ)
  /-- `pump` takes its next turn on session `k`. -/
  | turn (k : ℕ)
  /-- The socket of session `k` takes `n` bytes. -/
  | written (k n : ℕ)
  | writeFails (k : ℕ)
  /-- `stop` resets `running_`; the sockets it closes fail. -/
  | stop
  /-- The operator expires an instrument. -/
  | expire (i : InstrumentId)
  deriving DecidableEq, Repr

namespace Net

/-- A running server over a fresh engine, and nothing said yet. -/
def start (engine : Engine) (capacity : ℕ) : Net where
  toExchange := Exchange.start engine capacity

/-- Something happened to connection `k`. -/
def setConnection (x : Net) (k : ℕ) (c : Connection) : Net :=
  { x with connections := Function.update x.connections k c }

/-- Something happened to session `k` and its connection. -/
def setSession (x : Net) (k : ℕ) (r : Dispatcher × Session) (c : Connection) : Net :=
  { x with toExchange := x.withSession k r, connections := Function.update x.connections k c }

section Set

variable {x : Net} {k : ℕ} {c : Connection} {r : Dispatcher × Session} {j : ℕ}

@[simp] theorem connections_setConnection_self : (x.setConnection k c).connections k = c :=
  Function.update_self ..

theorem connections_setConnection_of_ne (hj : j ≠ k) :
    (x.setConnection k c).connections j = x.connections j := Function.update_of_ne hj ..

@[simp] theorem sessions_setConnection : (x.setConnection k c).sessions = x.sessions := rfl

@[simp] theorem connections_setSession_self : (x.setSession k r c).connections k = c :=
  Function.update_self ..

@[simp] theorem sessions_setSession_self : (x.setSession k r c).sessions k = r.2 :=
  Function.update_self ..

theorem connections_setSession_of_ne (hj : j ≠ k) :
    (x.setSession k r c).connections j = x.connections j := Function.update_of_ne hj ..

theorem sessions_setSession_of_ne (hj : j ≠ k) :
    (x.setSession k r c).sessions j = x.sessions j := Function.update_of_ne hj ..

end Set

/-- A turn of `pump`, or, when that is over, the loop up to `send_all`. -/
def turn (x : Net) (k : ℕ) : Net :=
  let c := x.connections k
  match (x.sessions k).nextInbound with
  | (s, some msg) =>
    x.setSession k (x.dispatcher.dispatch s msg.body) { c with handled := c.handled ++ [msg] }
  | (s, none) =>
    let (s, outbound) := s.takeOutbound
    x.setSession k (x.dispatcher, s)
      (if outbound.isEmpty then { c with loop := .testing }
      else { c with down := c.down.sendAll outbound, loop := .writing })

/-- The next step of one of the threads, for sockets whose buffers hold `room` bytes in each
direction. -/
def step (room : ℕ) (x : Net) : Move → Option Net
  | .send k body =>
    let c := x.connections k
    if c.client.call = .idle then
      let (client, bytes) := c.client.send body
      some (x.setConnection k { c with client, up := c.up.sendAll bytes })
    else none
  | .sent k n =>
    let c := x.connections k
    if c.client.call = .sending then
      (c.up.send room n).map fun up => x.setConnection k { c with
        up, client.call := if up.unsent.isEmpty then .idle else .sending }
    else none
  | .sendFails k =>
    let c := x.connections k
    if c.client.call = .sending then
      some (x.setConnection k { c with client := { c.client with call := .idle, failed := true } })
    else none
  | .recv k =>
    let c := x.connections k
    if c.client.call = .idle then some (x.setConnection k { c with client := c.client.recv })
    else none
  | .received k n =>
    let c := x.connections k
    if c.client.call = .receiving then
      (c.down.recvSome n).map fun r => x.setConnection k { c with
        down := r.1
        client := { c.client with framer := c.client.framer.feed r.2 }.recv }
    else none
  | .recvFails k =>
    let c := x.connections k
    if c.client.call = .receiving then
      some (x.setConnection k { c with client := { c.client with call := .idle } })
    else none
  | .test k =>
    let c := x.connections k
    if c.loop = .testing then
      some (x.setConnection k { c with
        loop := if x.running ∧ (x.sessions k).state ≠ .closing then .reading else .closed })
    else none
  | .read k n =>
    let c := x.connections k
    if c.loop = .reading then
      (c.up.recvSome n).map fun r =>
        let s := (x.sessions k).onBytes r.2
        x.setSession k (x.dispatcher, s) { c with
          up := r.1
          loop := if s.framer.error.isSome then .closed else .pumping }
    else none
  | .readFails k =>
    let c := x.connections k
    if c.loop = .reading then some (x.setConnection k { c with loop := .closed }) else none
  | .turn k => if (x.connections k).loop = .pumping then some (x.turn k) else none
  | .written k n =>
    let c := x.connections k
    if c.loop = .writing then
      (c.down.send room n).map fun down => x.setConnection k { c with
        down, loop := if down.unsent.isEmpty then .testing else .writing }
    else none
  | .writeFails k =>
    let c := x.connections k
    if c.loop = .writing then some (x.setConnection k { c with loop := .closed }) else none
  | .stop => some { x with running := false }
  | .expire i =>
    let (engine, pool, _) := x.dispatcher.engine.expireInstrument x.dispatcher.pool i
    some { x with dispatcher := ⟨engine, pool⟩ }

/-- The gateway behind the connections; what has been taken from a session counts as queued. -/
def exchange (x : Net) : Exchange where
  dispatcher := x.dispatcher
  sessions k :=
    { x.sessions k with outbound := (x.connections k).down.stream ++ (x.sessions k).outbound }

end Net

end Ordbk
