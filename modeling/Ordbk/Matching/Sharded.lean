import Ordbk.Matching.Engine
import Ordbk.Utils.SpscRingBuffer
import Ordbk.Lib.Reach

/-!
# Matching/Sharded — one producer, N workers

`ShardedMatcher` routes commands by instrument id to N engines over one pool, each behind its own
queue and run by its own thread.  `Sharding` is the running system: the producer's thread (which
also runs `wait_idle` and the destructor) and the workers' take their steps in any order, one push,
pop, execution or counter update at a time.

Two fields are ghosts: `calls` remembers each call of `submit` and `cancel` with its result,
`executed` each command executed, by whom, and the order found in its slot.
-/

namespace Ordbk

/-- `Command::Kind`. -/
inductive CommandKind
  | submit
  | cancel
  deriving DecidableEq, Repr

/-- What is passed through a queue. -/
structure Command where
  /-- A submission or a cancel. -/
  kind : CommandKind := .submit
  /-- It says which shard the command is for. -/
  instrument : InstrumentId := 0
  /-- For `Cancel`. -/
  orderId : OrderId := 0
  /-- For `Submit`; null otherwise. -/
  order : Option Slot := none
  deriving DecidableEq, Repr

instance : Inhabited Command := ⟨{}⟩

/-- One cell of it stays unused. -/
def kQueueCapacity : ℕ := 4096

/-- A queue, the engine behind it, and the counters the two threads share. -/
structure Shard where
  /-- From the one producer to the one worker. -/
  queue : SpscRingBuffer Command kQueueCapacity := .empty
  /-- With the books of the shard's instruments; only the worker uses it. -/
  engine : Engine := {}
  /-- Counted by the producer, after the push. -/
  submitted : UInt64 := 0
  /-- Counted by the worker, after the execution. -/
  processed : UInt64 := 0
  /-- Set by the destructor. -/
  stop : Bool := false

/-- The shards, and the pool all of them share. -/
structure ShardedMatcher where
  /-- The workers give back to it what the producer takes from it. -/
  pool : Pool
  /-- One worker each. -/
  numShards : ℕ
  /-- `shards_[0 .. num_shards)`. -/
  shards : ℕ → Shard

namespace ShardedMatcher

/-- The instruments of shard `k` of `n`. -/
def shardFilter (n k : ℕ) (id : InstrumentId) : Bool := id.toNat % n == k

/-- `std::make_unique<Engine>(registry_, pool_, filter)`; it throws on a registry that is not
frozen, which the constructor has ruled out by then. -/
def shardEngine (registry : InstrumentRegistry) (n k : ℕ) : Engine :=
  match Engine.new registry (shardFilter n k) with
  | .ok engine => engine
  | .error _ => {}

/-- The constructor, and what it throws. -/
def new (registry : InstrumentRegistry) (numShards poolCapacity : ℕ) :
    Except String ShardedMatcher :=
  if numShards = 0 then .error "num_shards must be > 0"
  else if !registry.frozen then .error "registry must be frozen"
  else .ok
    { pool := Pool.new poolCapacity
      numShards
      shards := fun k => { engine := shardEngine registry numShards k } }

/-- Instruments are told apart by the remainder of their ids. -/
def shardFor (sm : ShardedMatcher) (id : InstrumentId) : ℕ := id.toNat % sm.numShards

def setShard (sm : ShardedMatcher) (k : ℕ) (s : Shard) : ShardedMatcher :=
  { sm with shards := Function.update sm.shards k s }

/-- `shards_[shard_for(cmd.instrument)]->queue.push(cmd)`. -/
def push (sm : ShardedMatcher) (cmd : Command) : ShardedMatcher × Bool :=
  let k := sm.shardFor cmd.instrument
  let (queue, ok) := (sm.shards k).queue.push cmd
  (sm.setShard k { sm.shards k with queue }, ok)

/-- What a worker does with a command it has popped. -/
def execute (sm : ShardedMatcher) (k : ℕ) (cmd : Command) : ShardedMatcher :=
  match cmd.kind with
  | .submit =>
    match cmd.order with
    | none => sm -- a `Submit` is never pushed without its order
    | some order =>
      let (engine, pool, result) := (sm.shards k).engine.submit sm.pool order
      let pool := if (pool.storage result.order).isTerminal then pool.release result.order else pool
      { sm.setShard k { sm.shards k with engine } with pool }
  | .cancel =>
    let (engine, pool, _) := (sm.shards k).engine.cancel sm.pool cmd.instrument cmd.orderId
    { sm.setShard k { sm.shards k with engine } with pool }

/-- The book of an instrument, in the one shard that can have it. -/
def book (sm : ShardedMatcher) (id : InstrumentId) : Option OrderBook :=
  (sm.shards (sm.shardFor id)).engine.book id

end ShardedMatcher

/-! ## The threads

A state of the running system says where each thread is.  What a thread does to shared memory is a
step; what it does on its own belongs to the step before. -/

/-- Where a worker is in `run_shard`. -/
inductive WorkerState
  /-- About to test `stop`. -/
  | check
  /-- `stop` was false; about to pop. -/
  | poll
  /-- About to execute a command, popped in the main loop or while draining. -/
  | hold (cmd : Command) (draining : Bool)
  /-- About to add one to `processed`. -/
  | count (draining : Bool)
  /-- About to pop a leftover. -/
  | drain
  | exited
  deriving DecidableEq, Repr

/-- Where the producer's thread is. -/
inductive ProducerState
  /-- Between calls. -/
  | idle
  /-- In `submit` or `cancel`: the command is in queue `k`; about to add one to its `submitted`. -/
  | pushed (k : ℕ)
  /-- In `wait_idle`: the shards below `k` were done; about to load `submitted` of shard `k`, or to
  return if there is none. -/
  | scan (k : ℕ)
  /-- In `wait_idle`: about to load `processed` of shard `k`. -/
  | scanned (k : ℕ) (submitted : UInt64)
  /-- In the destructor: about to set `stop` of shard `k`, or joining if there is none. -/
  | stopping (k : ℕ)
  deriving DecidableEq, Repr

/-- A command and, for a submission, the order in its slot. -/
inductive Entry
  | submit (a : Slot) (o : OrderData)
  | cancel (i : InstrumentId) (id : OrderId)
  deriving DecidableEq, Repr

namespace Entry

def instrument : Entry → InstrumentId
  | submit _ o => o.instrument
  | cancel i _ => i

/-- The command the producer pushes. -/
def command : Entry → Command
  | submit a o => ⟨.submit, o.instrument, o.id, some a⟩
  | cancel i id => ⟨.cancel, i, id, none⟩

end Entry

/-- A command as the worker finds it. -/
def Command.entry (cmd : Command) (pool : Pool) : Entry :=
  match cmd.kind, cmd.order with
  | .submit, some a => .submit a (pool.storage.data a)
  | _, _ => .cancel cmd.instrument cmd.orderId

/-- **The running system.** -/
structure Sharding where
  /-- The object the two sides share. -/
  matcher : ShardedMatcher
  /-- Acquired by the producer and not yet submitted. -/
  held : List Slot := []
  /-- Where the thread that calls `submit` and `cancel` is. -/
  producer : ProducerState := .idle
  /-- Shard `k` is run by worker `k`. -/
  workers : ℕ → WorkerState := fun _ => .check
  /-- The calls that have pushed, or have been refused, oldest first. -/
  calls : List (Entry × Bool) := []
  /-- The commands executed, oldest first, each with the shard that did. -/
  executed : List (ℕ × Entry) := []

/-- A call the producer's thread makes, or a step some thread takes. -/
inductive Action
  | acquire
  | write (a : Slot) (o : Order)
  /-- Call `submit`, up to the push. -/
  | submit (a : Slot)
  /-- Call `cancel`, up to the push. -/
  | cancel (i : InstrumentId) (id : OrderId)
  | waitIdle
  | destroy
  /-- The producer's thread goes on with the call it is in. -/
  | proceed
  /-- A worker's next step. -/
  | worker (k : ℕ)

namespace Sharding

def start (matcher : ShardedMatcher) : Sharding := { matcher }

/-- The commands whose call returned true, in the order of the calls. -/
def accepted (x : Sharding) : List Entry := (x.calls.filter (·.2)).map (·.1)

/-- The order in a slot. -/
def order (x : Sharding) (a : Slot) : OrderData := x.matcher.pool.storage.data a

/-- A call of `submit` or `cancel`, up to the push. -/
def send (x : Sharding) (entry : Entry) : Sharding :=
  let (matcher, ok) := x.matcher.push entry.command
  if ok then
    { x with
      matcher
      producer := .pushed (x.matcher.shardFor entry.instrument)
      calls := x.calls ++ [(entry, true)] }
  else { x with calls := x.calls ++ [(entry, false)] }

/-- The next step inside `submit`, `cancel`, `wait_idle` or the destructor. -/
def proceed (x : Sharding) : Option Sharding :=
  match x.producer with
  | .idle => none
  | .pushed k =>
    let s := x.matcher.shards k
    some { x with
      matcher := x.matcher.setShard k { s with submitted := s.submitted + 1 }
      producer := .idle }
  | .scan k =>
    if k < x.matcher.numShards then
      some { x with producer := .scanned k (x.matcher.shards k).submitted }
    else some { x with producer := .idle }
  | .scanned k submitted =>
    if submitted ≠ (x.matcher.shards k).processed then some { x with producer := .scan 0 }
    else some { x with producer := .scan (k + 1) }
  | .stopping k =>
    if k < x.matcher.numShards then
      some { x with
        matcher := x.matcher.setShard k { x.matcher.shards k with stop := true }
        producer := .stopping (k + 1) }
    else none

def withWorker (x : Sharding) (k : ℕ) (w : WorkerState) : Sharding :=
  { x with workers := Function.update x.workers k w }

/-- Pop from a shard's queue: what to do with a command, and what without one. -/
def popOr (x : Sharding) (k : ℕ) (draining : Bool) (otherwise : WorkerState) : Sharding :=
  match (x.matcher.shards k).queue.pop with
  | none => x.withWorker k otherwise
  | some (cmd, queue) =>
    { x.withWorker k (.hold cmd draining) with
      matcher := x.matcher.setShard k { x.matcher.shards k with queue } }

/-- The next step of `run_shard` on shard `k`. -/
def workerStep (x : Sharding) (k : ℕ) : Option Sharding :=
  match x.workers k with
  | .check => some (x.withWorker k (if (x.matcher.shards k).stop then .drain else .poll))
  | .poll => some (x.popOr k false .check)
  | .hold cmd draining =>
    some { x.withWorker k (.count draining) with
      matcher := x.matcher.execute k cmd
      executed := x.executed ++ [(k, cmd.entry x.matcher.pool)] }
  | .count draining =>
    let s := x.matcher.shards k
    some { x.withWorker k (if draining then .drain else .check) with
      matcher := x.matcher.setShard k { s with processed := s.processed + 1 } }
  | .drain => some (x.popOr k true .exited)
  | .exited => none

/-- **One step.**  The producer makes a call only when it is not in one. -/
def step (x : Sharding) : Action → Option Sharding
  | .acquire =>
    if x.producer = .idle then
      x.matcher.pool.acquire.map fun (a, pool) =>
        { x with matcher.pool := pool, held := a :: x.held }
    else none
  | .write a o =>
    if x.producer = .idle ∧ a ∈ x.held then
      some { x with matcher.pool.storage := Function.update x.matcher.pool.storage a o }
    else none
  | .submit a =>
    if x.producer = .idle ∧ a ∈ x.held ∧ (x.order a).filledQty = 0 then
      let x' := x.send (.submit a (x.order a))
      some { x' with held := if x'.producer = .idle then x.held else x.held.erase a }
    else none
  | .cancel i id => if x.producer = .idle then some (x.send (.cancel i id)) else none
  | .waitIdle => if x.producer = .idle then some { x with producer := .scan 0 } else none
  | .destroy => if x.producer = .idle then some { x with producer := .stopping 0 } else none
  | .proceed => x.proceed
  | .worker k => if k < x.matcher.numShards then x.workerStep k else none

end Sharding

end Ordbk
