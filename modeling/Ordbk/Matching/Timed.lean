import Ordbk.Matching.Floor
import Ordbk.Utils.Latency

/-!
# Matching/Timed — matchers with a clock

Every matcher owns a `LatencyTracker`, on which `submit` records how long it took unless it returns
early.  The clock is read from outside: `t0` on entry and `t1` at the record; the difference is
taken in 64 bits.  A `TimedEngine` carries the trackers of its matchers beside the engine.
`latency_snapshot` visits a hash map: its order is an `Iteration`.
-/

namespace Ordbk

/-- `submit`, with the tracker. -/
def Matcher.submitTimed (m : Matcher) (stats : LatencyTracker) (order : Slot) (t0 t1 : UInt64) :
    Matcher × LatencyTracker × MatchResult :=
  let (m', result) := m.submit order
  -- the early returns leave before the record
  if m.rejects (m.pool.storage order).toOrderData then (m', stats, result)
  else (m', stats.record (t1 - t0), result)

/-- **An engine and the trackers** of its matchers; a fresh one where there is no matcher. -/
structure TimedEngine where
  /-- What the calls do, the clock aside. -/
  engine : Engine
  /-- `stats_` of each matcher. -/
  stats : InstrumentId → LatencyTracker := fun _ => {}

/-- An order in which a loop may visit the matchers. -/
structure Engine.Iteration (e : Engine) where
  /-- The ids it visits, in this order, -/
  ids : List InstrumentId
  /-- none of them twice, -/
  nodup : ids.Nodup
  /-- and all that have a matcher. -/
  mem_iff : ∀ i, i ∈ ids ↔ i ∈ e.matchers

/-- Any list of their ids, each once. -/
def Engine.Iteration.ofKeys {e : Engine} {ids : List InstrumentId} (hnd : ids.Nodup)
    (hkeys : e.matchers.keys = ids.toFinset) : e.Iteration where
  ids := ids
  nodup := hnd
  mem_iff i := by rw [← Finmap.mem_keys, hkeys, List.mem_toFinset]

namespace LatencyTracker

/-- The body of `latency_snapshot`'s loop. -/
def Snapshot.add (combined s : Snapshot) : Snapshot :=
  { combined with
    count := combined.count + s.count
    maxNs := if combined.maxNs < s.maxNs then s.maxNs else combined.maxNs
    hist := fun b => combined.hist b + s.hist b }

/-- The loop. -/
def combine {ι : Type*} (stats : ι → LatencyTracker) (ids : List ι) : Snapshot :=
  ids.foldl (fun combined i => combined.add (stats i).snapshot) {}

end LatencyTracker

namespace TimedEngine

/-- The engine's own, with the tracker of the matcher that answers. -/
def submit (e : TimedEngine) (pool : Pool) (order : Slot) (t0 t1 : UInt64) :
    TimedEngine × Pool × MatchResult :=
  let i := (pool.storage order).instrument
  match e.engine.matchers.lookup i with
  | none => (e, pool.modify order fun o => { o with status := .rejected }, ⟨order, []⟩)
  | some book =>
    let (m, stats, result) := Matcher.submitTimed ⟨book, pool⟩ (e.stats i) order t0 t1
    ({ engine := { e.engine with matchers := e.engine.matchers.insert i m.book }
       stats := Function.update e.stats i stats }, m.pool, result)

/-- The tracker goes with the matcher. -/
def expireInstrument (e : TimedEngine) (pool : Pool) (i : InstrumentId) :
    TimedEngine × Pool × Bool :=
  let (engine, pool, found) := e.engine.expireInstrument pool i
  ({ engine, stats := if found then Function.update e.stats i {} else e.stats }, pool, found)

/-- The trackers of all matchers, combined in the order of the visit. -/
def latencySnapshot (e : TimedEngine) (visit : e.engine.Iteration) : LatencyTracker.Snapshot :=
  LatencyTracker.combine e.stats visit.ids

/-- Whether a submission gets as far as the record. -/
def records (e : Engine) (pool : Pool) (order : Slot) : Bool :=
  (e.matchers.lookup (pool.storage order).instrument).any fun book =>
    !Matcher.rejects ⟨book, pool⟩ (pool.storage order).toOrderData

variable (e : TimedEngine) (pool : Pool) (order : Slot) (t0 t1 : UInt64)

/-- **What is recorded**: one sample on the order's instrument, or nothing. -/
theorem submit_stats : (e.submit pool order t0 t1).1.stats
    = if records e.engine pool order then
        Function.update e.stats (pool.storage order).instrument
          ((e.stats (pool.storage order).instrument).record (t1 - t0))
      else e.stats := by
  cases hl : e.engine.matchers.lookup (pool.storage order).instrument with
  | none => simp [submit, records, hl]
  | some book =>
    simp only [submit, records, hl, Matcher.submitTimed, Option.any_some]
    cases Matcher.rejects ⟨book, pool⟩ (pool.storage order).toOrderData with
    | false => rfl
    | true => exact Function.update_eq_self _ _

end TimedEngine

/-! ## Whoever calls it

The trackers depend on the engine's calls and on the clock, and nothing depends on them. -/

/-- A caller's floor, its trackers, and on the side what was recorded on each since it exists. -/
structure TimedFloor where
  /-- What the calls do, the clock aside. -/
  floor : Floor
  /-- `stats_` of each matcher. -/
  stats : InstrumentId → LatencyTracker := fun _ => {}
  /-- Ghost: what was recorded on it since the matcher exists. -/
  samples : InstrumentId → List UInt64 := fun _ => []

/-- A call, and what the clock shows during it. -/
structure TimedCall where
  /-- The call itself. -/
  call : FloorCall
  /-- The clock before, -/
  t0 : UInt64 := 0
  /-- and after it. -/
  t1 : UInt64 := 0

namespace TimedFloor

def start (engine : Engine) (capacity : ℕ) : TimedFloor := { floor := Floor.start engine capacity }

def engine (f : TimedFloor) : TimedEngine := ⟨f.floor.engine, f.stats⟩

/-- The call, its trackers and its samples. -/
def call (f : TimedFloor) (c : TimedCall) : Option TimedFloor :=
  (f.floor.call c.call).map fun floor =>
    match c.call with
    | .submit a =>
      { floor
        stats := (f.engine.submit f.floor.pool a c.t0 c.t1).1.stats
        samples := if TimedEngine.records f.floor.engine f.floor.pool a then
            Function.update f.samples (f.floor.pool.storage a).instrument
              (f.samples (f.floor.pool.storage a).instrument ++ [c.t1 - c.t0])
          else f.samples }
    | .expire i =>
      { floor
        stats := (f.engine.expireInstrument f.floor.pool i).1.stats
        samples := if (f.floor.engine.expireInstrument f.floor.pool i).2.2 then
            Function.update f.samples i []
          else f.samples }
    | _ => { f with floor }

end TimedFloor

end Ordbk
