import Ordbk.Lib.Total

/-!
# Utils/Latency — how long things took

`latency.hpp`: a tracker counts samples, adds them up, keeps the largest and a histogram of five
buckets, all in 64 bits.  The retry loop around `max_ns_` ends with the larger of the two values.
`recorded L` is a tracker on which the samples `L` were recorded; each of its fields is a total, or
a maximum, over `L`.
-/

namespace Ordbk

/-- `kBuckets`. -/
def kBuckets : ℕ := 5

/-- The counters of a tracker, each an atomic in the source. -/
structure LatencyTracker where
  /-- How many samples there were, -/
  count : UInt64 := 0
  /-- what they add up to, modulo 2⁶⁴, -/
  sumNs : UInt64 := 0
  /-- and the longest of them. -/
  maxNs : UInt64 := 0
  /-- How many samples fell into each bucket. -/
  hist : Fin kBuckets → UInt64 := fun _ => 0

namespace LatencyTracker

/-- The upper ends of the buckets, the last aside. -/
def kThresholds : List UInt64 := [1000, 10000, 100000, 1000000]

/-- The first bucket whose upper end is above; the last one if there is none. -/
def bucket (ns : UInt64) : Fin kBuckets :=
  ⟨kThresholds.findIdx fun threshold => decide (ns < threshold),
    Nat.lt_succ_of_le List.findIdx_le_length⟩

def record (t : LatencyTracker) (ns : UInt64) : LatencyTracker where
  count := t.count + 1
  sumNs := t.sumNs + ns
  maxNs := if t.maxNs < ns then ns else t.maxNs
  hist := Function.update t.hist (bucket ns) (t.hist (bucket ns) + 1)

/-- What a tracker shows of itself. -/
structure Snapshot where
  /-- The number of samples. -/
  count : UInt64 := 0
  /-- The sum by the count, rounded down. -/
  meanNs : UInt64 := 0
  /-- The longest. -/
  maxNs : UInt64 := 0
  /-- The buckets, as they are. -/
  hist : Fin kBuckets → UInt64 := fun _ => 0

def snapshot (t : LatencyTracker) : Snapshot where
  count := t.count
  meanNs := if t.count ≠ 0 then t.sumNs / t.count else 0
  maxNs := t.maxNs
  hist := t.hist

/-! ## What was recorded

A tracker is a function of the samples: of how many there were, of their sum, their maximum and
their buckets. -/

/-- A fresh tracker after these samples. -/
def recorded (samples : List UInt64) : LatencyTracker := samples.foldl record {}

theorem recorded_concat (L : List UInt64) (ns : UInt64) :
    recorded (L ++ [ns]) = (recorded L).record ns := List.foldl_concat ..

theorem count_recorded (L : List UInt64) : (recorded L).count = Total.total (fun _ => 1) L :=
  (List.foldl_hom LatencyTracker.count fun _ _ => rfl).symm

theorem sumNs_recorded (L : List UInt64) : (recorded L).sumNs = Total.total id L :=
  (List.foldl_hom LatencyTracker.sumNs fun _ _ => rfl).symm

theorem maxNs_recorded (L : List UInt64) : (recorded L).maxNs = Total.peak id L :=
  (List.foldl_hom LatencyTracker.maxNs fun _ _ => rfl).symm

theorem hist_record (t : LatencyTracker) (ns : UInt64) (b : Fin kBuckets) :
    (t.record ns).hist b = t.hist b + if bucket ns = b then 1 else 0 := by
  change Function.update t.hist (bucket ns) _ b = _
  by_cases hb : b = bucket ns
  · rw [hb, Function.update_self, if_pos rfl]
  · rw [Function.update_of_ne hb, if_neg fun h => hb h.symm, UInt64.add_zero]

theorem hist_recorded (L : List UInt64) (b : Fin kBuckets) :
    (recorded L).hist b = Total.total (fun ns => if bucket ns = b then 1 else 0) L :=
  (List.foldl_hom (fun t : LatencyTracker => t.hist b) fun t ns => (hist_record t ns b).symm).symm

/-- **The order of the samples does not matter.** -/
theorem recorded_perm {L L' : List UInt64} (h : L.Perm L') : recorded L = recorded L' := by
  have hhist : (recorded L).hist = (recorded L').hist := funext fun b => by
    rw [hist_recorded, hist_recorded, Total.total_perm _ h]
  have hcount : (recorded L).count = (recorded L').count := by
    rw [count_recorded, count_recorded, Total.total_perm _ h]
  have hsum : (recorded L).sumNs = (recorded L').sumNs := by
    rw [sumNs_recorded, sumNs_recorded, Total.total_perm _ h]
  have hmax : (recorded L).maxNs = (recorded L').maxNs := by
    rw [maxNs_recorded, maxNs_recorded, Total.peak_perm _ h]
  calc recorded L
      = ⟨(recorded L).count, (recorded L).sumNs, (recorded L).maxNs, (recorded L).hist⟩ := rfl
    _ = ⟨(recorded L').count, (recorded L').sumNs, (recorded L').maxNs, (recorded L').hist⟩ := by
      rw [hcount, hsum, hmax, hhist]

/-- **Every sample is in one bucket.** -/
theorem total_hist (L : List UInt64) :
    Total.total (recorded L).hist (List.finRange kBuckets) = (recorded L).count := by
  induction L using List.reverseRecOn with
  | nil => rfl
  | append_singleton L ns ih =>
    rw [recorded_concat]
    change Total.total (Function.update _ _ _) _ = (recorded L).count + 1
    rw [Total.total_update _ (List.nodup_finRange _) (List.mem_finRange _), ih]

end LatencyTracker

end Ordbk
