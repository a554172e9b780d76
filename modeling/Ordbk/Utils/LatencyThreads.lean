import Ordbk.Lib.Reach
import Ordbk.Utils.Latency
import Mathlib.Data.Finset.Basic

/-!
# Utils/LatencyThreads — one tracker, many threads

`record` in its atomic steps: three increments, a load, and the retry loop of
`compare_exchange_weak`, which fails if somebody has raised the maximum in between, or for no reason
at all.

On the side stand who is in a call, the samples of the calls that have returned, and how many steps
a call has taken that were not such a failure.
-/

namespace Ordbk

/-- Where a thread is in `record(ns)`. -/
inductive RecordPlace
  | idle
  /-- About to add to `count_`. -/
  | counting (ns : UInt64)
  /-- About to add to `sum_ns_`. -/
  | summing (ns : UInt64)
  /-- About to load `max_ns_`. -/
  | loading (ns : UInt64)
  /-- At the head of the loop, `cur` loaded. -/
  | comparing (ns cur : UInt64)
  /-- About to add to the histogram. -/
  | bucketing (ns : UInt64)
  deriving DecidableEq, Repr

/-- **A tracker, and threads in `record`.** -/
structure LatencyThreads where
  /-- The atomics. -/
  tracker : LatencyTracker := {}
  /-- Where each thread is in its call. -/
  threads : ℕ → RecordPlace := fun _ => .idle
  /-- The threads that are in a call. -/
  active : Finset ℕ := ∅
  /-- What was recorded by the calls that have returned. -/
  samples : List UInt64 := []
  /-- The steps of its call so far, failures for no reason aside. -/
  steps : ℕ → ℕ := fun _ => 0

/-- What the scheduler picks. -/
inductive RecordAct
  /-- Thread `t` calls `record(ns)`. -/
  | record (t : ℕ) (ns : UInt64)
  | step (t : ℕ)
  /-- The `compare_exchange_weak` of thread `t` fails for no reason. -/
  | fail (t : ℕ)

namespace LatencyThreads

/-- Thread `t` goes on. -/
def goOn (x : LatencyThreads) (tracker : LatencyTracker) (t : ℕ) (p : RecordPlace) :
    LatencyThreads :=
  { x with
    tracker
    threads := Function.update x.threads t p
    steps := Function.update x.steps t (x.steps t + 1) }

/-- Its call returns. -/
def return_ (x : LatencyThreads) (tracker : LatencyTracker) (t : ℕ) (ns : UInt64) :
    LatencyThreads :=
  { x with
    tracker
    threads := Function.update x.threads t .idle
    active := x.active.erase t
    samples := x.samples ++ [ns] }

/-- The next step of thread `t`. -/
def next (x : LatencyThreads) (t : ℕ) : Option LatencyThreads :=
  let m := x.tracker
  match x.threads t with
  | .idle => none
  | .counting ns => some (x.goOn { m with count := m.count + 1 } t (.summing ns))
  | .summing ns => some (x.goOn { m with sumNs := m.sumNs + ns } t (.loading ns))
  | .loading ns => some (x.goOn m t (.comparing ns m.maxNs))
  | .comparing ns cur =>
    if cur < ns then
      if m.maxNs = cur then some (x.goOn { m with maxNs := ns } t (.bucketing ns))
      else some (x.goOn m t (.comparing ns m.maxNs))
    else some (x.goOn m t (.bucketing ns))
  | .bucketing ns =>
    let b := LatencyTracker.bucket ns
    some (x.return_ { m with hist := Function.update m.hist b (m.hist b + 1) } t ns)

def step (x : LatencyThreads) : RecordAct → Option LatencyThreads
  | .record t ns =>
    if x.threads t = .idle then
      some { x with
        threads := Function.update x.threads t (.counting ns)
        active := insert t x.active
        steps := Function.update x.steps t 0 }
    else none
  | .step t => x.next t
  | .fail t =>
    match x.threads t with
    | .comparing ns cur =>
      if cur < ns then
        some { x with threads := Function.update x.threads t (.comparing ns x.tracker.maxNs) }
      else none
    | _ => none

/-- The samples that are passed to `record`. -/
def called : LatencyThreads → RecordAct → List UInt64
  | _, .record _ ns => [ns]
  | _, _ => []

end LatencyThreads

end Ordbk
