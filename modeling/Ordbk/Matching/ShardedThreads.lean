import Ordbk.Matching.Sharded
import Ordbk.Utils.SpscThreads

/-!
# Matching/ShardedThreads — the sharded matcher over its rings

`Sharding` takes a push or a pop for one step.  Here each is the loads and stores of `SpscThreads`,
so that the producer's thread and the workers also interleave inside the calls of the queues: a
worker may look at a ring, or empty it, while a command is being written to it.
-/

namespace Ordbk

/-- **The running system, its queues taken apart.** -/
structure ShardedThreads where
  /-- All but the queues: those of its shards stay as they were made. -/
  sharding : Sharding
  /-- `shards_[k]->queue`, and where its two threads are in it. -/
  rings : ℕ → SpscThreads Command kQueueCapacity := fun _ => .start
  /-- The command of the call of `submit` or `cancel` that is in `push`. -/
  pushing : Option Entry := none

namespace ShardedThreads

def start (matcher : ShardedMatcher) : ShardedThreads := { sharding := .start matcher }

def setRing (c : ShardedThreads) (k : ℕ) (ring : SpscThreads Command kQueueCapacity) :
    ShardedThreads :=
  { c with rings := Function.update c.rings k ring }

/-- The shard a command goes to. -/
def target (c : ShardedThreads) (entry : Entry) : ℕ := c.sharding.matcher.shardFor entry.instrument

/-! ## The producer's thread

`submit` and `cancel` push, and count afterwards only what was taken. -/

/-- `s.queue.push(cmd)` is called. -/
def call (c : ShardedThreads) (entry : Entry) : Option ShardedThreads :=
  ((c.rings (c.target entry)).step id (.push entry.command)).map fun ring =>
    { c.setRing (c.target entry) ring with pushing := some entry }

/-- `push` has returned: on with the call, or back from it. -/
def pushReturned (c : ShardedThreads) (entry : Entry) (ok : Bool) : ShardedThreads :=
  if ok then
    { c with
      pushing := none
      sharding.producer := .pushed (c.target entry)
      sharding.calls := c.sharding.calls ++ [(entry, true)]
      sharding.held :=
        match entry with
        | .submit a _ => c.sharding.held.erase a
        | .cancel _ _ => c.sharding.held }
  else { c with pushing := none, sharding.calls := c.sharding.calls ++ [(entry, false)] }

/-- The next load or store in `push`. -/
def produce (c : ShardedThreads) (entry : Entry) : Option ShardedThreads :=
  (c.rings (c.target entry)).produce.map fun ring =>
    match (c.rings (c.target entry)).returned .produce with
    | [(_, .pushed ok)] => (c.setRing (c.target entry) ring).pushReturned entry ok
    | _ => c.setRing (c.target entry) ring

/-! ## The workers

`run_shard` pops, executes and counts; told to stop, it empties its queue first. -/

def withWorker (c : ShardedThreads) (k : ℕ) (w : WorkerState) : ShardedThreads :=
  { c with sharding := c.sharding.withWorker k w }

/-- `pop` has returned: what to do with a command, and what without one. -/
def popReturned (c : ShardedThreads) (k : ℕ) (draining : Bool) (otherwise : WorkerState) :
    Option Command → ShardedThreads
  | none => c.withWorker k otherwise
  | some cmd => c.withWorker k (.hold cmd draining)

/-- The next load or store in `pop`; a `Command` is copied by a move. -/
def consume (c : ShardedThreads) (k : ℕ) (draining : Bool) (otherwise : WorkerState) :
    Option ShardedThreads :=
  ((c.rings k).consume id).map fun ring =>
    match (c.rings k).returned .consume with
    | [(_, .popped out)] => (c.setRing k ring).popReturned k draining otherwise out
    | _ => c.setRing k ring

/-- `shard.queue.pop(cmd)` is called, or goes on. -/
def pop (c : ShardedThreads) (k : ℕ) (draining : Bool) (otherwise : WorkerState) :
    Option ShardedThreads :=
  match (c.rings k).consumer with
  | .idle => ((c.rings k).step id .pop).map (c.setRing k)
  | _ => c.consume k draining otherwise

/-- The next step of `run_shard` on shard `k`. -/
def workerStep (c : ShardedThreads) (k : ℕ) : Option ShardedThreads :=
  match c.sharding.workers k with
  | .poll => c.pop k false .check
  | .drain => c.pop k true .exited
  | _ => (c.sharding.workerStep k).map fun sharding => { c with sharding }

/-- **One step.**  A call that is in `push` goes on before anything else is called. -/
def step (c : ShardedThreads) : Action → Option ShardedThreads
  | .submit a =>
    if c.pushing = none ∧ c.sharding.producer = .idle ∧ a ∈ c.sharding.held
        ∧ (c.sharding.order a).filledQty = 0 then
      c.call (.submit a (c.sharding.order a))
    else none
  | .cancel i id =>
    if c.pushing = none ∧ c.sharding.producer = .idle then c.call (.cancel i id) else none
  | .worker k => if k < c.sharding.matcher.numShards then c.workerStep k else none
  | .proceed =>
    match c.pushing with
    | some entry => c.produce entry
    | none => c.sharding.proceed.map fun sharding => { c with sharding }
  | act =>
    if c.pushing = none then (c.sharding.step act).map fun sharding => { c with sharding } else none

/-- `wait_idle` returns, or the destructor has joined all workers. -/
def Quiet (c : ShardedThreads) : Prop :=
  c.pushing = none
    ∧ (c.sharding.producer = .scan c.sharding.matcher.numShards
      ∨ c.sharding.producer = .stopping c.sharding.matcher.numShards
        ∧ ∀ k < c.sharding.matcher.numShards, c.sharding.workers k = .exited)

end ShardedThreads

end Ordbk
