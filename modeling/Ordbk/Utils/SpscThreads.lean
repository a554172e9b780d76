import Ordbk.Utils.SpscRingBuffer
import Ordbk.Lib.Reach
import Mathlib.Data.List.ReduceOption

/-!
# Utils/SpscThreads — two threads on one ring

One producer calls `push` and one consumer calls `pop`, and each of their loads and stores is a step
of its own: the index a call has loaded, and the value it has moved, are its thread's until it
returns. The acquire and release orders are what makes this interleaving the whole story.

On the side stand what the calls returned, and for each cell the number of the push that wrote it
last.
-/

namespace Ordbk

/-- Where the producer is. -/
inductive Producer (T : Type)
  | idle
  /-- In `push(value)`, nothing loaded. -/
  | called (value : T)
  /-- `tail` loaded. -/
  | loaded (value : T) (tail : ℕ)
  /-- There is room: about to write the cell. -/
  | writing (value : T) (tail : ℕ)
  /-- Written: about to publish `tail`. -/
  | written (value : T) (tail : ℕ)

/-- What is being pushed. -/
def Producer.value {T : Type} : Producer T → Option T
  | idle => none
  | called value => some value
  | loaded value _ => some value
  | writing value _ => some value
  | written value _ => some value

/-- Where the consumer is. -/
inductive Consumer (T : Type)
  | idle
  /-- In `pop(out)`, nothing loaded. -/
  | called
  /-- `head` loaded. -/
  | loaded (head : ℕ)
  /-- There is something: about to move it out of the cell. -/
  | reading (head : ℕ)
  /-- Moved: about to publish `head`. -/
  | read (head : ℕ) (out : T)

/-- What the scheduler picks: a thread starts a call, or takes its next step in one. -/
inductive SpscAct (T : Type)
  | push (value : T)
  | produce
  | pop
  | consume

/-- A call of a queue. -/
inductive QueueCall (T : Type)
  | push (value : T)
  | pop
  deriving DecidableEq, Repr

/-- What it returns. -/
inductive QueueAnswer (T : Type)
  | pushed (ok : Bool)
  | popped (out : Option T)
  deriving DecidableEq, Repr

/-- **A ring between two threads.** -/
structure SpscThreads (T : Type) (Capacity : ℕ) where
  /-- The indices and the cells, as they stand in memory. -/
  ring : SpscRingBuffer T Capacity
  /-- With what it has loaded. -/
  producer : Producer T := .idle
  /-- The consumer likewise. -/
  consumer : Consumer T := .idle
  /-- The calls of `push` that have returned, with what they returned. -/
  pushes : List (T × Bool) := []
  /-- What the calls of `pop` have returned. -/
  pops : List (Option T) := []
  /-- The push that wrote a cell last. -/
  stamp : ℕ → Option ℕ := fun _ => none

namespace SpscThreads

variable {T : Type} {Capacity : ℕ}

def start [Inhabited T] : SpscThreads T Capacity := { ring := .empty }

/-- The values of the successful pushes, oldest first. -/
def pushed (s : SpscThreads T Capacity) : List T := (s.pushes.filter (·.2)).map (·.1)

/-- The values the successful pops returned. -/
def popped (s : SpscThreads T Capacity) : List T := s.pops.reduceOption

/-- How many are pushed and not popped. -/
def count (s : SpscThreads T Capacity) : ℕ := s.pushed.length - s.popped.length

/-! ## What the steps do

The lines of `push` and `pop` that change something. -/

/-- `return false; // full`. -/
def returnFull (s : SpscThreads T Capacity) (value : T) : SpscThreads T Capacity :=
  { s with producer := .idle, pushes := s.pushes ++ [(value, false)] }

/-- `buffer_[tail] = std::move(value)`. -/
def write (s : SpscThreads T Capacity) (value : T) (tail : ℕ) : SpscThreads T Capacity :=
  { s with
    producer := .written value tail
    ring.buffer := Function.update s.ring.buffer tail value
    stamp := Function.update s.stamp tail (some s.pushed.length) }

/-- `tail_.store(next)`, and the return. -/
def storeTail (s : SpscThreads T Capacity) (value : T) (tail : ℕ) : SpscThreads T Capacity :=
  { s with
    producer := .idle
    ring.tail := (tail + 1) &&& (Capacity - 1)
    pushes := s.pushes ++ [(value, true)] }

/-- `return false; // empty`. -/
def returnEmpty (s : SpscThreads T Capacity) : SpscThreads T Capacity :=
  { s with consumer := .idle, pops := s.pops ++ [none] }

/-- `out = std::move(buffer_[head])`; `moved` is what that leaves behind. -/
def moveOut (moved : T → T) (s : SpscThreads T Capacity) (head : ℕ) : SpscThreads T Capacity :=
  { s with
    consumer := .read head (s.ring.buffer head)
    ring.buffer := Function.update s.ring.buffer head (moved (s.ring.buffer head)) }

/-- `head_.store(..)`, and the return. -/
def storeHead (s : SpscThreads T Capacity) (head : ℕ) (out : T) : SpscThreads T Capacity :=
  { s with
    consumer := .idle
    ring.head := (head + 1) &&& (Capacity - 1)
    pops := s.pops ++ [some out] }

@[simp] theorem pushed_returnFull (s : SpscThreads T Capacity) (value : T) :
    (s.returnFull value).pushed = s.pushed := by simp [pushed, returnFull]

@[simp] theorem pushed_storeTail (s : SpscThreads T Capacity) (value : T) (tail : ℕ) :
    (s.storeTail value tail).pushed = s.pushed ++ [value] := by simp [pushed, storeTail]

@[simp] theorem popped_returnEmpty (s : SpscThreads T Capacity) :
    s.returnEmpty.popped = s.popped := by
  simp [popped, returnEmpty, List.reduceOption_append]

@[simp] theorem popped_storeHead (s : SpscThreads T Capacity) (head : ℕ) (out : T) :
    (s.storeHead head out).popped = s.popped ++ [out] := by
  simp [popped, storeHead, List.reduceOption_append]

/-! ## Steps

A load, and what is told from it, is one step; a store is one. -/

/-- The producer's next load or store. -/
def produce (s : SpscThreads T Capacity) : Option (SpscThreads T Capacity) :=
  match s.producer with
  | .idle => none
  | .called value => some { s with producer := .loaded value s.ring.tail }
  | .loaded value tail =>
    -- `head_` is loaded and compared at once: nothing else is done with it
    if (tail + 1) &&& (Capacity - 1) = s.ring.head then some (s.returnFull value)
    else some { s with producer := .writing value tail }
  | .writing value tail => some (s.write value tail)
  | .written value tail => some (s.storeTail value tail)

/-- The consumer's next load or store. -/
def consume (moved : T → T) (s : SpscThreads T Capacity) : Option (SpscThreads T Capacity) :=
  match s.consumer with
  | .idle => none
  | .called => some { s with consumer := .loaded s.ring.head }
  | .loaded head =>
    if head = s.ring.tail then some s.returnEmpty
    else some { s with consumer := .reading head }
  | .reading head => some (s.moveOut moved head)
  | .read head out => some (s.storeHead head out)

/-- A thread that is in a call cannot start another. -/
def step (moved : T → T) (s : SpscThreads T Capacity) : SpscAct T → Option (SpscThreads T Capacity)
  | .push value =>
    match s.producer with
    | .idle => some { s with producer := .called value }
    | _ => none
  | .produce => s.produce
  | .pop =>
    match s.consumer with
    | .idle => some { s with consumer := .called }
    | _ => none
  | .consume => s.consume moved

/-! ## Calls

A call returns in its last step; alone it needs at most four. -/

/-- The call that returns in a step, and what it returns. -/
def returned (s : SpscThreads T Capacity) : SpscAct T → List (QueueCall T × QueueAnswer T)
  | .produce =>
    match s.producer with
    | .loaded value tail =>
      if (tail + 1) &&& (Capacity - 1) = s.ring.head then [(.push value, .pushed false)] else []
    | .written value _ => [(.push value, .pushed true)]
    | _ => []
  | .consume =>
    match s.consumer with
    | .loaded head => if head = s.ring.tail then [(.pop, .popped none)] else []
    | .read _ out => [(.pop, .popped (some out))]
    | _ => []
  | _ => []

/-- **A push alone** that returns `ok`, whatever the consumer is in the middle of. -/
def PushReturns (moved : T → T) (s : SpscThreads T Capacity) (value : T) (ok : Bool) : Prop :=
  ∃ k s', Guarded.run (step moved) (fun _ _ => True) s (.push value :: List.replicate k .produce)
      = some s' ∧ s'.producer = .idle ∧ s'.pushes = s.pushes ++ [(value, ok)]

/-- **A pop alone** that returns `out`, or nothing. -/
def PopReturns (moved : T → T) (s : SpscThreads T Capacity) (out : Option T) : Prop :=
  ∃ k s', Guarded.run (step moved) (fun _ _ => True) s (.pop :: List.replicate k .consume) = some s'
      ∧ s'.consumer = .idle ∧ s'.pops = s.pops ++ [out]

end SpscThreads

end Ordbk
