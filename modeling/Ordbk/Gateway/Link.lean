import Ordbk.Gateway.Dispatcher
import Ordbk.Protocol.Stream

/-!
# Gateway/Link — one connection and its bytes

The body of `Server::session_loop`: bytes come in, `pump` handles the messages they complete, and
the bytes queued in reply go out.  Here the three may follow one another in any order.
-/

namespace Ordbk

/-- A session and the dispatcher it talks to.  `taken` is ghost: all the bytes ever sent. -/
structure Link where
  /-- It has the engine and the pool. -/
  dispatcher : Dispatcher
  /-- It has the framer, and what is to be sent. -/
  session : Session
  taken : List Byte := []

namespace Link

/-- What the loop of a session does. -/
inductive Act
  | recv (data : List Byte)
  | pump
  | send
  deriving DecidableEq, Repr

/-- One act of the loop. -/
def step (l : Link) : Act → Link
  | .recv data => { l with session := l.session.onBytes data }
  | .pump =>
    let (dispatcher, session) := l.dispatcher.pump l.session
    { l with dispatcher, session }
  | .send =>
    let (session, bytes) := l.session.takeOutbound
    { l with session, taken := l.taken ++ bytes }

/-- Any acts, one after another. -/
def run (l : Link) (acts : List Act) : Link := acts.foldl step l

/-- A pass through the loop for every piece that arrives. -/
def turns (pieces : List (List Byte)) : List Act :=
  pieces.flatMap fun data => [.recv data, .pump, .send]

/-- The bytes the last `pump` has seen, and those that came after it. -/
def hear : List Byte × List Byte → Act → List Byte × List Byte
  | (heard, unheard), .recv data => (heard, unheard ++ data)
  | (heard, unheard), .pump => (heard ++ unheard, [])
  | r, .send => r

/-- The part of the stream that some `pump` has seen. -/
def heard (acts : List Act) : List Byte := (acts.foldl hear ([], [])).1

/-- All bytes the loop has put out or is about to. -/
def outbound (l : Link) : List Byte := l.taken ++ l.session.outbound

end Link

/-- Handle messages one after another. -/
def Dispatcher.handle (r : Dispatcher × Session) (bodies : List MessageBody) :
    Dispatcher × Session :=
  bodies.foldl (fun r body => r.1.dispatch r.2 body) r

end Ordbk
