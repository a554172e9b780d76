import Ordbk.Matching.Timed
import Ordbk.Refinement.Floor

/-!
# Theorems/Latency — the engine's figures against one tracker

However samples are spread over the matchers, the engine's count, maximum and buckets are those of a
single tracker that saw them all, and the buckets add up to the count.  The mean is another matter:
the loop never sets it, so the figures are those of one tracker only where its mean is 0 too
(`combines_iff`).
-/

namespace Ordbk

namespace LatencyTracker

theorem toNat_count_recorded (L : List UInt64) : (recorded L).count.toNat = L.length % 2 ^ 64 := by
  rw [count_recorded, Total.toNat_total]
  congr 1
  simp [Total.sum]

/-- The mean of no samples is 0, and so is that of samples adding up to fewer nanoseconds. -/
theorem meanNs_recorded_eq_zero (L : List UInt64) :
    (recorded L).snapshot.meanNs = 0
      ↔ L.length % 2 ^ 64 = 0 ∨ Total.sum id L % 2 ^ 64 < L.length % 2 ^ 64 := by
  have hcount := toNat_count_recorded L
  have hsum : (recorded L).sumNs.toNat = Total.sum id L % 2 ^ 64 := by
    rw [sumNs_recorded, Total.toNat_total]
  rw [← hcount, ← hsum]
  unfold snapshot
  split_ifs with hzero
  · have hpos : (recorded L).count.toNat ≠ 0 := fun h => hzero (UInt64.toNat_inj.mp h)
    rw [← UInt64.toNat_inj, UInt64.toNat_div, UInt64.toNat_zero, Nat.div_eq_zero_iff]
  · exact iff_of_true rfl (.inl (by rw [not_not.mp hzero]; rfl))

/-! ## The loop over the matchers

Counts and buckets are added up and the maximum is taken. The mean is not computed: `mean_ns` stays
0. -/

section Combine

variable {ι : Type*} (stats : ι → LatencyTracker) (ids : List ι)

theorem combine_concat (i : ι) :
    combine stats (ids ++ [i]) = (combine stats ids).add (stats i).snapshot := List.foldl_concat ..

theorem count_combine : (combine stats ids).count = Total.total (fun i => (stats i).count) ids :=
  (List.foldl_hom Snapshot.count fun _ _ => rfl).symm

theorem maxNs_combine : (combine stats ids).maxNs = Total.peak (fun i => (stats i).maxNs) ids :=
  (List.foldl_hom Snapshot.maxNs fun _ _ => rfl).symm

theorem hist_combine (b : Fin kBuckets) :
    (combine stats ids).hist b = Total.total (fun i => (stats i).hist b) ids :=
  (List.foldl_hom (fun s : Snapshot => s.hist b) fun _ _ => rfl).symm

/-- **No mean is ever set.** -/
theorem meanNs_combine : (combine stats ids).meanNs = 0 := by
  induction ids using List.reverseRecOn with
  | nil => rfl
  | append_singleton ids i ih =>
    rw [combine_concat]
    exact ih

end Combine

theorem combine_congr {ι : Type*} {stats stats' : ι → LatencyTracker} {ids : List ι}
    (h : ∀ i ∈ ids, stats i = stats' i) : combine stats ids = combine stats' ids :=
  List.foldl_ext _ _ _ fun combined i hi => by rw [h i hi]

/-- **Trackers combine to one tracker**, the mean aside. -/
theorem combine_recorded {ι : Type*} (samples : ι → List UInt64) (ids : List ι) :
    combine (fun i => recorded (samples i)) ids
      = { (recorded (ids.flatMap samples)).snapshot with meanNs := 0 } := by
  have hcount := count_combine (fun i => recorded (samples i)) ids
  have hmean := meanNs_combine (fun i => recorded (samples i)) ids
  have hmax := maxNs_combine (fun i => recorded (samples i)) ids
  have hhist := funext fun b => hist_combine (fun i => recorded (samples i)) ids b
  simp only [count_recorded, maxNs_recorded, hist_recorded, Total.total_flatMap,
    Total.peak_flatMap] at hcount hmax hhist
  simp only [← count_recorded, ← maxNs_recorded, ← hist_recorded] at hcount hmax hhist
  generalize combine (fun i => recorded (samples i)) ids = combined at *
  obtain ⟨count, mean, max, hist⟩ := combined
  simp only at hcount hmean hmax hhist
  subst hcount hmean hmax hhist
  rfl

end LatencyTracker

/-! ## Runs

What was recorded on each matcher's tracker since the matcher exists; an expiry ends both. -/

namespace TimedFloor

variable {f f' : TimedFloor} {c : TimedCall} {e : Engine} {capacity : ℕ}

/-- **Every tracker shows its samples.** -/
def Records (f : TimedFloor) : Prop := ∀ i, f.stats i = LatencyTracker.recorded (f.samples i)

theorem records_start : (start e capacity).Records := fun _ => rfl

/-- One call. -/
theorem Records.call (h : f.Records) (hc : f.call c = some f') : f'.Records := by
  obtain ⟨floor, -, rfl⟩ := Option.map_eq_some_iff.mp hc
  obtain ⟨c, t0, t1⟩ := c
  cases c with
  | submit a =>
    intro i
    change (f.engine.submit f.floor.pool a t0 t1).1.stats i = _
    rw [TimedEngine.submit_stats]
    change (if TimedEngine.records f.floor.engine f.floor.pool a then _ else f.stats) i = _
    split_ifs with hrec
    · by_cases hi : i = (f.floor.pool.storage a).instrument
      · subst hi
        simp only [hrec, if_true, Function.update_self, LatencyTracker.recorded_concat, ← h _]
        rfl
      · simp only [hrec, if_true, Function.update_of_ne hi]
        exact h i
    · simp only [hrec]
      exact h i
  | expire i =>
    intro j
    change (if (f.floor.engine.expireInstrument f.floor.pool i).2.2 then _ else f.stats) j
      = LatencyTracker.recorded ((if _ then _ else f.samples) j)
    split_ifs with hfound
    · by_cases hj : j = i
      · rw [hj, Function.update_self, Function.update_self]
        rfl
      · rw [Function.update_of_ne hj, Function.update_of_ne hj]
        exact h j
    · exact h j
  | acquire | write _ _ | cancel _ _ | release _ => exact h

theorem records_of_reach {ok : TimedFloor → TimedCall → Prop}
    (h : Guarded.Reach call ok (start e capacity) f) : f.Records :=
  h.invariant records_start fun _ _ _ h _ hc => h.call hc

end TimedFloor

/-! ## The figures

They are right but for the mean, and the mean is right where 0 is. -/

namespace TimedEngine

/-- **One tracker's figures**: those the engine shows are those of a tracker on which `all` was
recorded, and the buckets add up. -/
structure Combines (e : TimedEngine) (visit : e.engine.Iteration) (all : List UInt64) : Prop where
  /-- The number of samples, -/
  count : (e.latencySnapshot visit).count = (LatencyTracker.recorded all).snapshot.count
  /-- their mean, -/
  meanNs : (e.latencySnapshot visit).meanNs = (LatencyTracker.recorded all).snapshot.meanNs
  /-- the longest, -/
  maxNs : (e.latencySnapshot visit).maxNs = (LatencyTracker.recorded all).snapshot.maxNs
  /-- and how many there are in each bucket. -/
  hist : ∀ b, (e.latencySnapshot visit).hist b = (LatencyTracker.recorded all).snapshot.hist b
  /-- Each sample is in one of them. -/
  buckets : Total.total (e.latencySnapshot visit).hist (List.finRange kBuckets)
    = (e.latencySnapshot visit).count

variable {e : TimedEngine} {visit : e.engine.Iteration} {samples : InstrumentId → List UInt64}
  {all : List UInt64}

theorem latencySnapshot_eq
    (hrec : ∀ i ∈ e.engine.matchers, e.stats i = LatencyTracker.recorded (samples i))
    (hall : all.Perm (visit.ids.flatMap samples)) :
    e.latencySnapshot visit = { (LatencyTracker.recorded all).snapshot with meanNs := 0 } := by
  have hstats : ∀ i ∈ visit.ids, e.stats i = LatencyTracker.recorded (samples i) := fun i hi =>
    hrec i ((visit.mem_iff i).mp hi)
  rw [latencySnapshot, LatencyTracker.combine_congr hstats, LatencyTracker.combine_recorded,
    LatencyTracker.recorded_perm hall]

/-- **When the engine's figures are those of one tracker**: all of them but the mean always are, and
the mean is where it is 0, for no samples or for samples that add up to fewer nanoseconds than they
are. -/
theorem combines_iff
    (hrec : ∀ i ∈ e.engine.matchers, e.stats i = LatencyTracker.recorded (samples i))
    (hall : all.Perm (visit.ids.flatMap samples)) :
    (e.Combines visit all ↔ all.length % 2 ^ 64 = 0
      ∨ Total.sum id all % 2 ^ 64 < all.length % 2 ^ 64)
      ∧ e.latencySnapshot visit = { (LatencyTracker.recorded all).snapshot with meanNs := 0 }
      ∧ Total.total (e.latencySnapshot visit).hist (List.finRange kBuckets)
        = (e.latencySnapshot visit).count := by
  have heq := latencySnapshot_eq hrec hall
  have hbuckets : Total.total (e.latencySnapshot visit).hist (List.finRange kBuckets)
      = (e.latencySnapshot visit).count := by
    rw [heq]
    exact LatencyTracker.total_hist all
  refine ⟨?_, heq, hbuckets⟩
  rw [← LatencyTracker.meanNs_recorded_eq_zero]
  constructor
  · intro h
    rw [← h.meanNs, heq]
  · intro hmean
    exact
      { count := by rw [heq]
        meanNs := by rw [heq, hmean]
        maxNs := by rw [heq]
        hist := fun b => by rw [heq]
        buckets := hbuckets }

/-- An engine for two instruments. -/
def twoBooks : Engine := [⟨1⟩, ⟨2⟩].foldl (Engine.addBook fun _ => true) {}

/-- A bid for one unit. -/
def bidOn (i : InstrumentId) : Order :=
  { id := 7, limitPrice := 100, initialQty := 1, instrument := i }

/-- Two submissions within a nanosecond. -/
theorem combines_of_instant : ∃ (f : TimedFloor) (visit : f.engine.engine.Iteration),
    Guarded.Reach TimedFloor.call (fun _ _ => True) (.start twoBooks 2) f
      ∧ visit.ids = [2, 1] ∧ f.samples 1 = [0] ∧ f.samples 2 = [1]
      ∧ f.engine.Combines visit [0, 1] := by
  have hrun : (Guarded.run TimedFloor.call (fun _ _ => True) (.start twoBooks 2)
      [⟨.acquire, 0, 0⟩, ⟨.write 1 (bidOn 1), 0, 0⟩, ⟨.submit 1, 50, 50⟩,
        ⟨.acquire, 0, 0⟩, ⟨.write 0 (bidOn 2), 0, 0⟩, ⟨.submit 0, 60, 61⟩]).map
      (fun f => decide (f.floor.engine.matchers.keys = [2, 1].toFinset ∧ f.samples 1 = [0]
        ∧ f.samples 2 = [1])) = some true := by decide +kernel
  obtain ⟨f, hf, hval⟩ := Option.map_eq_some_iff.mp hrun
  obtain ⟨hkeys, hone, htwo⟩ := of_decide_eq_true hval
  have hreach := Guarded.Reach.of_run hf
  obtain ⟨visit, hids⟩ : ∃ visit : f.engine.engine.Iteration, visit.ids = [2, 1] :=
    ⟨.ofKeys (by decide) hkeys, rfl⟩
  have hall : [0, 1].Perm (visit.ids.flatMap f.samples) := by
    rw [hids, List.flatMap_cons, List.flatMap_cons, hone, htwo]
    exact List.Perm.swap 1 0 []
  have hiff := (combines_iff (fun i _ => TimedFloor.records_of_reach hreach i) hall).1
  exact ⟨f, visit, hreach, hids, hone, htwo, hiff.mpr (.inr (by decide))⟩

/-- **A microsecond is lost**: one submission takes 1000 ns, and the engine's mean is 0. -/
theorem not_combines_of_microsecond : ∃ (f : TimedFloor) (visit : f.engine.engine.Iteration),
    Guarded.Reach TimedFloor.call (fun _ _ => True) (.start twoBooks 1) f
      ∧ visit.ids = [1, 2] ∧ f.samples 1 = [1000] ∧ f.samples 2 = []
      ∧ (f.engine.latencySnapshot visit).meanNs = 0
      ∧ (LatencyTracker.recorded [1000]).snapshot.meanNs = 1000
      ∧ ¬ f.engine.Combines visit [1000] := by
  have hrun : (Guarded.run TimedFloor.call (fun _ _ => True) (.start twoBooks 1)
      [⟨.acquire, 0, 0⟩, ⟨.write 0 (bidOn 1), 0, 0⟩, ⟨.submit 0, 50, 1050⟩]).map
      (fun f => decide (f.floor.engine.matchers.keys = [1, 2].toFinset ∧ f.samples 1 = [1000]
        ∧ f.samples 2 = [])) = some true := by decide +kernel
  obtain ⟨f, hf, hval⟩ := Option.map_eq_some_iff.mp hrun
  obtain ⟨hkeys, hone, htwo⟩ := of_decide_eq_true hval
  obtain ⟨visit, hids⟩ : ∃ visit : f.engine.engine.Iteration, visit.ids = [1, 2] :=
    ⟨.ofKeys (by decide) hkeys, rfl⟩
  have hmean : (f.engine.latencySnapshot visit).meanNs = 0 := LatencyTracker.meanNs_combine _ _
  have hsingle : (LatencyTracker.recorded [1000]).snapshot.meanNs = 1000 := by decide
  refine ⟨f, visit, .of_run hf, hids, hone, htwo, hmean, hsingle, fun h => ?_⟩
  have hbad := h.meanNs
  rw [hmean, hsingle] at hbad
  exact absurd hbad (by decide)

end TimedEngine

end Ordbk
