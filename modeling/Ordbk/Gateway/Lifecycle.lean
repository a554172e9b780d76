import Ordbk.Lib.Reach
import Mathlib.Logic.Function.Basic

/-!
# Gateway/Lifecycle — a server is started and stopped

The threads of `server.cpp` and their steps: `start` and `stop`, called by whoever owns the server,
the loop that accepts connections, and one loop for each session, here without the bytes
(`Gateway/Net`).  A critical section of `session_mu_` is one step, except for `stop`'s, which closes
one socket after the other.

A connection goes by the id of its session; a socket that is closed is not another one's later.

The comments in the source expect that closing a socket makes whoever waits in `accept`, `recv` or
`send` on it return.  That is the platform's doing, and plain `close` does not promise it.  So here
it is a step of its own, which may never come (`acceptFails`, `recvFails`, `sendFails`), and a call
that has begun may still get what it waits for, a connection included, after the socket is closed.
-/

namespace Ordbk

/-- Where `accept_loop` is. -/
inductive Acceptor
  /-- No thread. -/
  | off
  /-- About to load `running_`. -/
  | testing
  /-- In `accept_one`. -/
  | accepting
  /-- About to put the socket into `session_sockets_`. -/
  | registering (k : ℕ)
  /-- About to start the thread of the session. -/
  | spawning (k : ℕ)
  | ended
  deriving DecidableEq, Repr

/-- Where `session_loop` is. -/
inductive Serving
  /-- No thread yet. -/
  | unborn
  /-- About to test the condition of its loop. -/
  | testing
  /-- In `recv_some`. -/
  | reading
  /-- Between that and `send_all`. -/
  | working
  /-- In `send_all`. -/
  | sending
  /-- About to close its socket. -/
  | closing
  /-- About to take it out of `session_sockets_`. -/
  | erasing
  | ended
  deriving DecidableEq, Repr

/-- Where `stop` is. -/
inductive Stopper
  | idle
  /-- `running_` is reset: about to close the listener. -/
  | closing
  /-- About to lock `session_mu_`. -/
  | locking
  /-- Has the lock, and these sockets still to close. -/
  | sweeping (rest : List ℕ)
  /-- In `accept_thread_.join()`. -/
  | joiningAccept
  /-- Has these threads still to join. -/
  | joining (rest : List ℕ)
  deriving DecidableEq, Repr

/-- **A server that is started and stopped.** -/
structure Lifecycle where
  /-- `running_`. -/
  running : Bool := false
  /-- `listener_` is open. -/
  listening : Bool := false
  /-- Where the thread in `accept_loop` is. -/
  acceptor : Acceptor := .off
  /-- `session_sockets_`. -/
  sockets : List ℕ := []
  /-- `session_threads_`; the entries stay until `stop` joins them. -/
  threads : List ℕ := []
  /-- `next_session_id_`. -/
  nextSessionId : ℕ := 1
  /-- Where the thread that starts and stops the server is. -/
  stopper : Stopper := .idle
  /-- Where the thread of each session is. -/
  sessions : ℕ → Serving := fun _ => .unborn
  /-- Which sockets of sessions are open. -/
  isOpen : ℕ → Bool := fun _ => false

namespace Lifecycle

/-- What can happen next. -/
inductive Move
  /-- The owner calls `start`. -/
  | start
  /-- The owner calls `stop`. -/
  | stop
  /-- `stop` goes on. -/
  | owner
  /-- `accept_loop` goes on. -/
  | accept
  /-- Somebody connects, and `accept_one` returns a socket. -/
  | accepted
  /-- The listener is closed, and the platform makes `accept_one` return. -/
  | acceptFails
  /-- `accept_one` fails for another reason. -/
  | acceptError
  /-- `session_loop` tests its condition; the session may have been closed. -/
  | test (k : ℕ) (isClosing : Bool)
  /-- `recv_some` returns bytes. -/
  | received (k : ℕ)
  /-- The socket is closed, and the platform makes `recv_some` return. -/
  | recvFails (k : ℕ)
  /-- The other end is gone. -/
  | hangup (k : ℕ)
  /-- What was received is dealt with: the loop breaks, or there may be something to send. -/
  | worked (k : ℕ) (hasError answers : Bool)
  /-- The other end takes what is sent. -/
  | sent (k : ℕ)
  /-- The socket is closed, and the platform makes `send_all` return. -/
  | sendFails (k : ℕ)
  /-- `session_loop`, behind its loop, goes on. -/
  | leave (k : ℕ)
  deriving DecidableEq, Repr

/-- Somebody is in a critical section, of more than one step. -/
def locked (x : Lifecycle) : Bool :=
  match x.stopper with
  | .sweeping _ => true
  | _ => false

/-- Session `k` goes on. -/
def goTo (x : Lifecycle) (k : ℕ) (p : Serving) : Lifecycle :=
  { x with sessions := Function.update x.sessions k p }

/-- `stop` goes on. -/
def stopOn (x : Lifecycle) : Option Lifecycle :=
  match x.stopper with
  | .idle => none
  | .closing => some { x with listening := false, stopper := .locking }
  | .locking => some { x with stopper := .sweeping x.sockets }
  | .sweeping (k :: rest) =>
    some { x with isOpen := Function.update x.isOpen k false, stopper := .sweeping rest }
  | .sweeping [] => some { x with sockets := [], stopper := .joiningAccept }
  | .joiningAccept =>
    if x.acceptor = .ended then some { x with acceptor := .off, stopper := .joining x.threads }
    else none
  | .joining (k :: rest) =>
    if x.sessions k = .ended then some { x with stopper := .joining rest } else none
  | .joining [] => some { x with threads := [], stopper := .idle }

/-- `accept_loop` goes on. -/
def acceptOn (x : Lifecycle) : Option Lifecycle :=
  match x.acceptor with
  | .testing => some { x with acceptor := if x.running then .accepting else .ended }
  | .registering k =>
    if x.locked then none else some { x with sockets := x.sockets ++ [k], acceptor := .spawning k }
  | .spawning k => some { x.goTo k .testing with threads := x.threads ++ [k], acceptor := .testing }
  | _ => none

/-- `session_loop` goes on behind its loop. -/
def leaveOn (x : Lifecycle) (k : ℕ) : Option Lifecycle :=
  match x.sessions k with
  | .closing => some { x.goTo k .erasing with isOpen := Function.update x.isOpen k false }
  | .erasing =>
    if x.locked then none
    else some { x.goTo k .ended with sockets := x.sockets.erase k }
  | _ => none

def step (x : Lifecycle) : Move → Option Lifecycle
  | .start =>
    if x.stopper = .idle then
      some (if x.running then x
        else { x with running := true, listening := true, acceptor := .testing })
    else none
  | .stop =>
    if x.stopper = .idle then
      some (if x.running then { x with running := false, stopper := .closing } else x)
    else none
  | .owner => x.stopOn
  | .accept => x.acceptOn
  | .accepted =>
    if x.acceptor = .accepting then
      some { x with
        acceptor := .registering x.nextSessionId
        nextSessionId := x.nextSessionId + 1
        isOpen := Function.update x.isOpen x.nextSessionId true }
    else none
  | .acceptFails =>
    if x.acceptor = .accepting ∧ x.listening = false then some { x with acceptor := .ended }
    else none
  | .acceptError => if x.acceptor = .accepting then some { x with acceptor := .ended } else none
  | .test k isClosing =>
    if x.sessions k = .testing then
      some (x.goTo k (if x.running ∧ isClosing = false then .reading else .closing))
    else none
  | .received k => if x.sessions k = .reading then some (x.goTo k .working) else none
  | .recvFails k =>
    if x.sessions k = .reading ∧ x.isOpen k = false then some (x.goTo k .closing) else none
  | .hangup k =>
    if x.sessions k = .reading ∨ x.sessions k = .sending then some (x.goTo k .closing) else none
  | .worked k hasError answers =>
    if x.sessions k = .working then
      some (x.goTo k (if hasError then .closing else if answers then .sending else .testing))
    else none
  | .sent k => if x.sessions k = .sending then some (x.goTo k .testing) else none
  | .sendFails k =>
    if x.sessions k = .sending ∧ x.isOpen k = false then some (x.goTo k .closing) else none
  | .leave k => x.leaveOn k

/-- The steps of the server itself: all but the calls of its owner, what comes from outside, and
what is for the platform to do. -/
def Move.Own : Move → Prop
  | .owner | .accept | .test _ _ | .worked _ _ _ | .leave _ => True
  | _ => False

/-- The platform ends a call on a socket that is closed. -/
def Move.Wakes : Move → Prop
  | .acceptFails | .recvFails _ | .sendFails _ => True
  | _ => False

end Lifecycle

end Ordbk
