import Ordbk.Lib.Tally
import Ordbk.Lib.Trace
import Ordbk.Utils.LatencyThreads

/-!
# Theorems/Recording — no sample is lost, and no call is held up

Whatever the interleaving of the steps of `record`, the tracker is what the returned calls recorded,
together with the part that the calls under way have added so far; with none under way it is the
tracker on which the samples were recorded one after the other (`recorded_of_trace`).  And a call
takes a bounded number of steps, failures of the exchange for no reason aside, however many others
record meanwhile.
-/

namespace Ordbk

namespace LatencyTracker

/-- What two trackers have together. -/
def merge (t u : LatencyTracker) : LatencyTracker where
  count := t.count + u.count
  sumNs := t.sumNs + u.sumNs
  maxNs := Total.larger t.maxNs u.maxNs
  hist := fun b => t.hist b + u.hist b

/-- A tracker is its four fields. -/
theorem ext_fields {t u : LatencyTracker} (hcount : t.count = u.count) (hsum : t.sumNs = u.sumNs)
    (hmax : t.maxNs = u.maxNs) (hhist : t.hist = u.hist) : t = u := by
  cases t
  cases u
  simp_all

theorem larger_comm (m n : UInt64) : Total.larger m n = Total.larger n m := by
  rw [← UInt64.toNat_inj, Total.toNat_larger, Total.toNat_larger, max_comm]

theorem larger_assoc (m n k : UInt64) :
    Total.larger (Total.larger m n) k = Total.larger m (Total.larger n k) := by
  rw [← UInt64.toNat_inj]
  simp only [Total.toNat_larger, max_assoc]

theorem larger_zero (m : UInt64) : Total.larger m 0 = m := by
  rw [← UInt64.toNat_inj, Total.toNat_larger, UInt64.toNat_zero, Nat.max_zero]

/-- Of two values, the one that is no smaller. -/
theorem larger_of_le {m n : UInt64} (h : n ≤ m) : Total.larger m n = m :=
  if_neg (UInt64.not_lt.mpr h)

/-- Trackers are merged. -/
instance instAdd : Add LatencyTracker := ⟨merge⟩

/-- Nothing recorded yet. -/
instance instZero : Zero LatencyTracker := ⟨{}⟩

/-- **Trackers add up**, in any order. -/
instance instAddCommMonoid : AddCommMonoid LatencyTracker where
  nsmul := nsmulRec
  add_assoc t u v := ext_fields (UInt64.add_assoc ..) (UInt64.add_assoc ..) (larger_assoc ..)
    (funext fun _ => UInt64.add_assoc ..)
  add_comm t u := ext_fields (UInt64.add_comm ..) (UInt64.add_comm ..) (larger_comm ..)
    (funext fun _ => UInt64.add_comm ..)
  zero_add t := ext_fields (UInt64.zero_add _) (UInt64.zero_add _)
    ((larger_comm ..).trans (larger_zero _)) (funext fun _ => UInt64.zero_add _)
  add_zero t := ext_fields (UInt64.add_zero _) (UInt64.add_zero _) (larger_zero _)
    (funext fun _ => UInt64.add_zero _)

/-- One sample in the histogram. -/
def mark (ns : UInt64) : Fin kBuckets → UInt64 := fun b => if bucket ns = b then 1 else 0

/-- One sample. -/
def sample (ns : UInt64) : LatencyTracker := ⟨1, ns, ns, mark ns⟩

theorem hist_mark (t : LatencyTracker) (ns : UInt64) :
    Function.update t.hist (bucket ns) (t.hist (bucket ns) + 1) = fun b => t.hist b + mark ns b :=
  funext (hist_record t ns)

/-- **Recording adds one sample.** -/
theorem record_eq (t : LatencyTracker) (ns : UInt64) : t.record ns = t + sample ns :=
  ext_fields rfl rfl rfl (hist_mark t ns)

end LatencyTracker

namespace RecordPlace

open LatencyTracker

/-- What a call has added so far. -/
def part : RecordPlace → LatencyTracker
  | idle | counting _ => 0
  | summing _ => { count := 1 }
  | loading ns | comparing ns _ => { count := 1, sumNs := ns }
  | bucketing ns => { count := 1, sumNs := ns, maxNs := ns }

/-- The sample, and how many steps there are at most until the call returns. -/
def ahead : RecordPlace → ℕ
  | idle => 0
  | counting ns => ns.toNat + 5
  | summing ns => ns.toNat + 4
  | loading ns => ns.toNat + 3
  | comparing ns cur => ns.toNat - cur.toNat + 2
  | bucketing _ => 1

/-- What is being recorded. -/
def sampled : RecordPlace → Option UInt64
  | idle => none
  | counting ns | summing ns | loading ns | comparing ns _ | bucketing ns => some ns

end RecordPlace

namespace LatencyThreads

open LatencyTracker RecordPlace

variable {x x' : LatencyThreads} {t : ℕ}

/-- **The invariant.** -/
structure Inv (x : LatencyThreads) : Prop where
  /-- The threads in a call are known. -/
  active : ∀ t, t ∈ x.active ↔ x.threads t ≠ .idle
  /-- **The tracker is what was recorded and what the calls under way have added.** -/
  adds : Tally.Adds part x.tracker (recorded x.samples) x.active x.threads
  /-- What was loaded is not above the maximum. -/
  loaded : ∀ t ns cur, x.threads t = .comparing ns cur → cur ≤ x.tracker.maxNs
  /-- A call has taken so many steps, and has so many before it; together they stay under a bound
  that its sample alone gives. -/
  bounded : ∀ t ns, (x.threads t).sampled = some ns → x.steps t + (x.threads t).ahead ≤ ns.toNat + 5

/-- Nobody has begun. -/
theorem inv_start : ({} : LatencyThreads).Inv where
  active t := by simp
  adds := (add_zero _).symm
  loaded t ns cur ht := by cases ht
  bounded t ns ht := by cases ht

/-- **One thread has moved**, to `p`. -/
theorem Inv.move (h : x.Inv) {p : RecordPlace}
    (hthreads : x'.threads = Function.update x.threads t p)
    (hsteps : ∀ u, u ≠ t → x'.steps u = x.steps u)
    (hup : x.tracker.maxNs.toNat ≤ x'.tracker.maxNs.toNat)
    (hin : t ∈ x'.active ↔ p ≠ .idle) (hothers : ∀ u, u ≠ t → (u ∈ x'.active ↔ u ∈ x.active))
    (hadds : Tally.Adds part x'.tracker (recorded x'.samples) x'.active x'.threads)
    (hcur : ∀ ns cur, p = .comparing ns cur → cur ≤ x'.tracker.maxNs)
    (hbound : ∀ ns, p.sampled = some ns → x'.steps t + p.ahead ≤ ns.toNat + 5) : x'.Inv := by
  have hself : x'.threads t = p := by rw [hthreads, Function.update_self]
  have helse : ∀ u, u ≠ t → x'.threads u = x.threads u := fun u hu => by
    rw [hthreads, Function.update_of_ne hu]
  refine ⟨fun u => ?_, hadds, fun u ns cur hu => ?_, fun u ns hu => ?_⟩ <;> by_cases hut : u = t
  · rw [hut, hself]
    exact hin
  · rw [helse u hut]
    exact (hothers u hut).trans (h.active u)
  · rw [hut, hself] at hu
    exact hcur ns cur hu
  · rw [helse u hut] at hu
    exact UInt64.le_trans (h.loaded u ns cur hu) (UInt64.le_iff_toNat_le.mpr hup)
  · rw [hut, hself] at hu ⊢
    exact hbound ns hu
  · rw [helse u hut] at hu ⊢
    rw [hsteps u hut]
    exact h.bounded u ns hu

/-- Adding to a tracker does not lower its maximum. -/
theorem toNat_le_maxNs_add (m y : LatencyTracker) : m.maxNs.toNat ≤ (m + y).maxNs.toNat :=
  (le_max_left _ _).trans_eq (Total.toNat_larger _ _).symm

/-- Whoever has a sample in hand is in a call. -/
theorem Inv.mem_active (h : x.Inv) {ns : UInt64} (hns : (x.threads t).sampled = some ns) :
    t ∈ x.active := (h.active t).mpr fun hidle => by
  rw [hidle] at hns
  cases hns

/-- **A thread goes on**, and adds `y`. -/
theorem Inv.goOn (h : x.Inv) {p : RecordPlace} {y : LatencyTracker} {ns : UInt64}
    (hns : (x.threads t).sampled = some ns) (hp : p.sampled = some ns)
    (hpart : p.part = (x.threads t).part + y)
    (hcur : ∀ ns' cur, p = .comparing ns' cur → cur ≤ (x.tracker + y).maxNs)
    (hahead : p.ahead < (x.threads t).ahead) : (x.goOn (x.tracker + y) t p).Inv := by
  have hactive := h.mem_active hns
  refine h.move rfl (fun u hu => Function.update_of_ne hu ..) (toNat_le_maxNs_add _ _)
    (iff_of_true hactive fun hidle => ?_) (fun _ _ => Iff.rfl) (h.adds.add hactive hpart) hcur
    fun ns' hns' => ?_
  · rw [hidle] at hp
    cases hp
  · obtain rfl := Option.some.inj (hns'.symm.trans hp)
    have hbound := h.bounded t _ hns
    change Function.update x.steps t _ t + _ ≤ _
    rw [Function.update_self]
    omega

/-- The exchange finds what was loaded, or the maximum is above. -/
theorem Inv.lt_maxNs (h : x.Inv) {ns cur : UInt64} (ht : x.threads t = .comparing ns cur)
    (hne : x.tracker.maxNs ≠ cur) : cur.toNat < x.tracker.maxNs.toNat := by
  have hle := UInt64.le_iff_toNat_le.mp (h.loaded t ns cur ht)
  exact lt_of_le_of_ne hle fun heq => hne (UInt64.toNat_inj.mp heq.symm)

theorem tracker_add_zero (m : LatencyTracker) : m + (0 : LatencyTracker) = m := add_zero m

/-- **The retry loop**: leaving it, the maximum is that of the two values, written or not. -/
theorem Inv.comparing (h : x.Inv) {ns cur : UInt64} (ht : x.threads t = .comparing ns cur)
    (hs : x.next t = some x') : x'.Inv := by
  have hns : (x.threads t).sampled = some ns := by rw [ht]; rfl
  have hraised : ({ count := 1, sumNs := ns } : LatencyTracker) + { maxNs := ns }
      = { count := 1, sumNs := ns, maxNs := ns } :=
    ext_fields (UInt64.add_zero _) (UInt64.add_zero _)
      ((larger_comm ..).trans (larger_zero ns)) (funext fun _ => UInt64.add_zero _)
  have hraise : ∀ m : LatencyTracker, m + { maxNs := ns }
      = { m with maxNs := Total.larger m.maxNs ns } :=
    fun m => ext_fields (UInt64.add_zero _) (UInt64.add_zero _) rfl
      (funext fun _ => UInt64.add_zero _)
  have hpart : (bucketing ns).part = (x.threads t).part + { maxNs := ns } := by
    rw [ht]
    exact hraised.symm
  simp only [next, ht] at hs
  split_ifs at hs with hlt heq
  · obtain rfl := Option.some.inj hs
    have hmax : { x.tracker with maxNs := ns } = x.tracker + { maxNs := ns } := by
      rw [hraise, heq, Total.larger, if_pos hlt]
    rw [hmax]
    refine h.goOn hns rfl hpart (fun _ _ hp => by cases hp) ?_
    rw [ht]
    exact Nat.lt_of_lt_of_le Nat.one_lt_two (Nat.le_add_left 2 _)
  · obtain rfl := Option.some.inj hs
    have hup := h.lt_maxNs ht heq
    rw [UInt64.lt_iff_toNat_lt] at hlt
    have hsame : (RecordPlace.comparing ns x.tracker.maxNs).part = (x.threads t).part + 0 := by
      rw [ht]
      exact (tracker_add_zero _).symm
    have hgo := h.goOn hns rfl hsame
      (fun ns' cur' hp => by
        obtain ⟨rfl, rfl⟩ := RecordPlace.comparing.inj hp
        rw [tracker_add_zero]
        exact UInt64.le_refl _) (by
        rw [ht]
        simp only [ahead]
        omega)
    rwa [tracker_add_zero] at hgo
  · obtain rfl := Option.some.inj hs
    have hmax : x.tracker = x.tracker + { maxNs := ns } := by
      have hle : ns ≤ x.tracker.maxNs :=
        UInt64.le_trans (UInt64.not_lt.mp hlt) (h.loaded t ns cur ht)
      rw [hraise, larger_of_le hle]
    have hgo := h.goOn hns rfl hpart (fun _ _ hp => by cases hp) (by
      rw [ht]
      exact Nat.lt_of_lt_of_le Nat.one_lt_two (Nat.le_add_left 2 _))
    rwa [← hmax] at hgo

/-- **The last step**: the sample is recorded. -/
theorem Inv.bucketing (h : x.Inv) {ns : UInt64} (ht : x.threads t = .bucketing ns)
    (hs : x.next t = some x') : x'.Inv := by
  have hactive : t ∈ x.active := (h.active t).mpr fun hidle => by
    rw [hidle] at ht
    cases ht
  simp only [next, ht, Option.some.injEq] at hs
  subst hs
  have hmark : ({ count := 1, sumNs := ns, maxNs := ns } : LatencyTracker) + { hist := mark ns }
      = sample ns :=
    ext_fields (UInt64.add_zero _) (UInt64.add_zero _) (larger_zero ns)
      (funext fun _ => UInt64.zero_add _)
  have hhist : ⟨x.tracker.count, x.tracker.sumNs, x.tracker.maxNs, Function.update x.tracker.hist
      (bucket ns) (x.tracker.hist (bucket ns) + 1)⟩ = x.tracker + { hist := mark ns } :=
    ext_fields (UInt64.add_zero _).symm (UInt64.add_zero _).symm (larger_zero _).symm
      (hist_mark x.tracker ns)
  have hpart : (x.threads t).part + { hist := mark ns } = sample ns := by
    rw [ht]
    exact hmark
  have hadds := h.adds.finish hactive hpart .idle
  rw [← hhist, ← record_eq, ← recorded_concat] at hadds
  exact h.move rfl (fun _ _ => rfl) (le_refl _)
    (iff_of_false (Finset.notMem_erase t _) fun hne => hne rfl)
    (fun u hu => Finset.mem_erase.trans (and_iff_right hu)) hadds
    (fun _ _ hp => by cases hp) fun _ hp => by cases hp

/-- A thread begins. -/
theorem Inv.begin (h : x.Inv) (hidle : x.threads t = .idle) (ns : UInt64) :
    Inv { x with
      threads := Function.update x.threads t (.counting ns)
      active := insert t x.active
      steps := Function.update x.steps t 0 } := by
  have hnew : t ∉ x.active := fun ht => (h.active t).mp ht hidle
  have hadds := h.adds.begin hnew (.counting ns)
  rw [show (RecordPlace.counting ns).part = 0 from rfl, tracker_add_zero] at hadds
  refine h.move rfl (fun u hu => Function.update_of_ne hu ..) (le_refl _)
    (iff_of_true (Finset.mem_insert_self t _) fun hp => by cases hp)
    (fun u hu => Finset.mem_insert.trans (or_iff_right hu)) hadds
    (fun _ _ hp => by cases hp) fun ns' hp => ?_
  obtain rfl := Option.some.inj hp
  change Function.update x.steps t 0 t + _ ≤ _
  rw [Function.update_self]
  exact (Nat.zero_add _).le

/-- An exchange fails for no reason. -/
theorem Inv.fail (h : x.Inv) {ns cur : UInt64} (ht : x.threads t = .comparing ns cur) :
    Inv { x with threads := Function.update x.threads t (.comparing ns x.tracker.maxNs) } := by
  have hns : (x.threads t).sampled = some ns := by rw [ht]; rfl
  have hactive := h.mem_active hns
  have hsame : (RecordPlace.comparing ns x.tracker.maxNs).part = (x.threads t).part + 0 := by
    rw [ht]
    exact (tracker_add_zero _).symm
  have hadds := h.adds.add hactive hsame
  rw [tracker_add_zero] at hadds
  refine h.move rfl (fun _ _ => rfl) (le_refl _) (iff_of_true hactive fun hp => by cases hp)
    (fun _ _ => Iff.rfl) hadds (fun ns' cur' hp => ?_) fun ns' hp => ?_
  · obtain ⟨rfl, rfl⟩ := RecordPlace.comparing.inj hp
    exact UInt64.le_refl _
  · obtain rfl := Option.some.inj hp
    have hbound := h.bounded t _ hns
    have hle := UInt64.le_iff_toNat_le.mp (h.loaded t _ _ ht)
    rw [ht] at hbound
    simp only [ahead] at hbound ⊢
    omega

/-- **Every step keeps the invariant.** -/
theorem Inv.step (h : x.Inv) {a : RecordAct} (hs : x.step a = some x') : x'.Inv := by
  cases a with
  | record t ns =>
    simp only [LatencyThreads.step, Option.ite_none_right_eq_some, Option.some.injEq] at hs
    obtain ⟨hidle, rfl⟩ := hs
    exact h.begin hidle ns
  | fail t =>
    cases ht : x.threads t with
    | comparing ns cur =>
      simp only [LatencyThreads.step, ht, Option.ite_none_right_eq_some, Option.some.injEq] at hs
      obtain ⟨-, rfl⟩ := hs
      exact h.fail ht
    | _ => simp [LatencyThreads.step, ht] at hs
  | step t =>
    change x.next t = some x' at hs
    cases ht : x.threads t with
    | idle => simp [next, ht] at hs
    | comparing ns cur => exact h.comparing ht hs
    | bucketing ns => exact h.bucketing ht hs
    | counting ns =>
      simp only [next, ht, Option.some.injEq] at hs
      subst hs
      have hcount : { x.tracker with count := x.tracker.count + 1 } = x.tracker + { count := 1 } :=
        ext_fields rfl (UInt64.add_zero _).symm (larger_zero _).symm
          (funext fun _ => (UInt64.add_zero _).symm)
      have hns : (x.threads t).sampled = some ns := by rw [ht]; rfl
      rw [hcount]
      refine h.goOn hns rfl ?_ (fun _ _ hp => by cases hp) ?_
      · rw [ht]
        exact (zero_add _).symm
      · rw [ht]
        exact Nat.lt_succ_self _
    | summing ns =>
      simp only [next, ht, Option.some.injEq] at hs
      subst hs
      have hsum : { x.tracker with sumNs := x.tracker.sumNs + ns } = x.tracker + { sumNs := ns } :=
        ext_fields (UInt64.add_zero _).symm rfl (larger_zero _).symm
          (funext fun _ => (UInt64.add_zero _).symm)
      have hadd : ({ count := 1, sumNs := ns } : LatencyTracker)
          = { count := 1 } + { sumNs := ns } :=
        ext_fields rfl (UInt64.zero_add _).symm (larger_zero _).symm
          (funext fun _ => (UInt64.add_zero _).symm)
      have hns : (x.threads t).sampled = some ns := by rw [ht]; rfl
      rw [hsum]
      refine h.goOn hns rfl ?_ (fun _ _ hp => by cases hp) ?_
      · rw [ht]
        exact hadd
      · rw [ht]
        exact Nat.lt_succ_self _
    | loading ns =>
      simp only [next, ht, Option.some.injEq] at hs
      subst hs
      have hns : (x.threads t).sampled = some ns := by rw [ht]; rfl
      have hgo := h.goOn (y := 0) (p := .comparing ns x.tracker.maxNs) hns rfl
        (by rw [ht]; exact (tracker_add_zero _).symm)
        (fun ns' cur' hp => by
          obtain ⟨rfl, rfl⟩ := RecordPlace.comparing.inj hp
          rw [tracker_add_zero]
          exact UInt64.le_refl _)
        (by
          rw [ht]
          simp only [ahead]
          omega)
      rwa [tracker_add_zero] at hgo

/-! ## What was called, and what was recorded

A sample passed to `record` is in hand until the call returns, and recorded from then on. -/

/-- The sample a thread has in hand. -/
def inHand (p : RecordPlace) : Multiset UInt64 := p.sampled.toList

theorem inHand_of_sampled {p : RecordPlace} {ns : UInt64} (h : p.sampled = some ns) :
    inHand p = {ns} := by
  rw [inHand, h]
  rfl

/-- Every sample passed to `record` is recorded, or in the hands of a thread. -/
def Accounted (H : List UInt64) (x : LatencyThreads) : Prop :=
  Tally.Adds inHand (H : Multiset UInt64) (x.samples : Multiset UInt64) x.active x.threads

/-- A thread goes on with the same sample. -/
theorem accounted_update {H : List UInt64} (hinv : x.Inv) (h : Accounted H x)
    {p : RecordPlace} {ns : UInt64}
    (hns : (x.threads t).sampled = some ns) (hp : p.sampled = some ns)
    (hthreads : x'.threads = Function.update x.threads t p) (hactive : x'.active = x.active)
    (hsamples : x'.samples = x.samples) : Accounted H x' := by
  have hsame : inHand p = inHand (x.threads t) + 0 := by
    rw [add_zero, inHand_of_sampled hns, inHand_of_sampled hp]
  have hadds := Tally.Adds.add h (hinv.mem_active hns) hsame
  rw [add_zero] at hadds
  rw [Accounted, hthreads, hactive, hsamples]
  exact hadds

/-- **Every step keeps the samples accounted for.** -/
theorem accounted_step {H : List UInt64} (hinv : x.Inv) (h : Accounted H x) {a : RecordAct}
    (hs : x.step a = some x') : Accounted (H ++ x.called a) x' := by
  cases a with
  | record t ns =>
    simp only [LatencyThreads.step, Option.ite_none_right_eq_some, Option.some.injEq] at hs
    obtain ⟨hidle, rfl⟩ := hs
    have hnew : t ∉ x.active := fun ht => (hinv.active t).mp ht hidle
    have hadds := Tally.Adds.begin h hnew (.counting ns)
    rw [inHand_of_sampled (p := .counting ns) rfl] at hadds
    exact hadds
  | fail t =>
    cases ht : x.threads t with
    | comparing ns cur =>
      simp only [LatencyThreads.step, ht, Option.ite_none_right_eq_some, Option.some.injEq] at hs
      obtain ⟨-, rfl⟩ := hs
      change Accounted (H ++ []) _
      rw [List.append_nil]
      have hns : (x.threads t).sampled = some ns := by rw [ht]; rfl
      exact accounted_update hinv h hns rfl rfl rfl rfl
    | _ => simp [LatencyThreads.step, ht] at hs
  | step t =>
    change Accounted (H ++ []) x'
    rw [List.append_nil]
    change x.next t = some x' at hs
    cases ht : x.threads t with
    | idle => simp [next, ht] at hs
    | counting ns | summing ns | loading ns =>
      simp only [next, ht, Option.some.injEq] at hs
      subst hs
      have hns : (x.threads t).sampled = some ns := by rw [ht]; rfl
      exact accounted_update hinv h hns rfl rfl rfl rfl
    | comparing ns cur =>
      simp only [next, ht] at hs
      have hns : (x.threads t).sampled = some ns := by rw [ht]; rfl
      split_ifs at hs <;> obtain rfl := Option.some.inj hs <;>
        exact accounted_update hinv h hns rfl rfl rfl rfl
    | bucketing ns =>
      have hns : (x.threads t).sampled = some ns := by rw [ht]; rfl
      simp only [next, ht, Option.some.injEq] at hs
      subst hs
      have hwhole : inHand (x.threads t) + 0 = {ns} := by rw [add_zero, inHand_of_sampled hns]
      have hadds := Tally.Adds.finish h (hinv.mem_active hns) hwhole .idle
      rw [add_zero] at hadds
      exact hadds

/-- Whoever is in a call has a step to take. -/
theorem ahead_pos {p : RecordPlace} {ns : UInt64} (h : p.sampled = some ns) : 0 < p.ahead := by
  cases p with
  | idle => cases h
  | _ => simp [ahead]

/-- **No sample is lost.**  Once every call has returned, the tracker is the one on which the
samples were recorded one after the other; and a call for `ns` takes at most `ns + 5` steps,
failures of the exchange for no reason aside. -/
theorem recorded_of_trace {H : List UInt64}
    (h : Guarded.Trace step (fun _ _ => True) called {} H x) :
    ((∀ t, x.threads t = .idle) → x.tracker = recorded H)
      ∧ ∀ t ns, (x.threads t).sampled = some ns → x.steps t < ns.toNat + 5 := by
  have hstart : Accounted [] {} := (add_zero (0 : Multiset UInt64)).symm
  obtain ⟨hinv, hacc⟩ : x.Inv ∧ Accounted H x :=
    h.invariant (I := fun H x => x.Inv ∧ Accounted H x) ⟨inv_start, hstart⟩
      fun _ _ _ _ hI _ hs => ⟨hI.1.step hs, accounted_step hI.1 hI.2 hs⟩
  refine ⟨fun hidle => ?_, fun t ns hns => ?_⟩
  · have hnone : x.active = ∅ :=
      Finset.eq_empty_of_forall_notMem fun t ht => (hinv.active t).mp ht (hidle t)
    rw [hinv.adds.eq_done hnone]
    exact recorded_perm (Multiset.coe_eq_coe.mp (Tally.Adds.eq_done hacc hnone)).symm
  · have hbound := hinv.bounded t ns hns
    have hpos := ahead_pos hns
    omega

/-- Two raise the maximum at the same time, and one of them has to try again. -/
theorem recorded_of_race : ∃ x, Guarded.Trace step (fun _ _ => True) called {} [700, 5000] x
    ∧ x.samples = [5000, 700] ∧ x.tracker.maxNs = 5000 ∧ x.tracker = recorded [700, 5000] := by
  have hrun : (Guarded.record step (fun _ _ => True) called {}
      [.record 1 700, .record 2 5000, .step 1, .step 2, .step 1, .step 2, .step 1, .step 2, .step 1,
        .step 2, .fail 2, .step 2, .step 2, .step 1]).map
      (fun r => decide (r.1 = [700, 5000] ∧ r.2.samples = [5000, 700] ∧ r.2.tracker.maxNs = 5000
        ∧ r.2.active = ∅)) = some true := by decide +kernel
  obtain ⟨⟨H, x⟩, hx, hval⟩ := Option.map_eq_some_iff.mp hrun
  obtain ⟨rfl, hsamples, hmax, hnone⟩ := of_decide_eq_true hval
  have htrace := Guarded.Trace.of_record hx
  have hinv : x.Inv := htrace.reach.invariant inv_start fun _ _ _ hs _ hstep => hs.step hstep
  refine ⟨x, htrace, hsamples, hmax, (recorded_of_trace htrace).1 fun t => ?_⟩
  by_contra ht
  have hmem := (hinv.active t).mpr ht
  rw [hnone] at hmem
  exact absurd hmem (Finset.notMem_empty t)

end LatencyThreads

end Ordbk
