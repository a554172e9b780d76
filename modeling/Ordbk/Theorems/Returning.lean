import Ordbk.Lib.Fair
import Ordbk.Theorems.Rings

/-!
# Theorems/Returning — every call of the sharded matcher returns

`wait_idle` polls counters, the destructor joins workers, and the workers poll their rings for ever:
that a call returns depends on the scheduler.  It is enough that no thread is forgotten
(`calls_return_of_fair`).  While the producer waits nothing is added to the rings, so each worker
works off its own (`ahead`); then the counters agree, or the flags make the workers leave.
-/

namespace Ordbk

/-- The steps of a push before it returns, at most. -/
def Producer.rank {T : Type} : Producer T → ℕ
  | idle => 0
  | written _ _ => 1
  | writing _ _ => 2
  | loaded _ _ => 3
  | called _ => 4

/-- The place of a pop; `n` is what it is worth to find the ring empty. -/
def Consumer.rank {T : Type} (n : ℕ) : Consumer T → ℕ
  | read _ _ => 1
  | reading _ => 2
  | loaded _ => n
  | called => n + 1
  | idle => n + 2

/-- Where a worker is in its loop; each place is worth more than the next. -/
def WorkerState.place (stop : Bool) (pop : Consumer Command) : WorkerState → ℕ
  | exited => 0
  | drain => pop.rank 3
  | check => if stop then 6 else 10
  | poll => pop.rank 7
  | count _ => 11
  | hold _ _ => 12

namespace SpscThreads

variable {T : Type} {Capacity n : ℕ} {s s' : SpscThreads T Capacity} {moved : T → T}

/-- **A step of a pop**: it goes on, or finds the ring empty, or returns a value. -/
theorem Inv.consume_ranked (h : s.Inv) (hn : 2 < n) (hs : s.consume moved = some s') :
    (s.returned .consume = [] ∧ s'.waiting = s.waiting ∧ s'.consumer.rank n < s.consumer.rank n
      ∧ s'.consumer ≠ .idle)
    ∨ (s.returned .consume = [(.pop, .popped none)] ∧ s.waiting = [] ∧ s'.waiting = []
      ∧ s.consumer.rank n = n ∧ s'.consumer = .idle)
    ∨ ∃ out, s.returned .consume = [(.pop, .popped (some out))]
      ∧ s.waiting.length = s'.waiting.length + 1 ∧ s.consumer.rank n = 1 ∧ s'.consumer = .idle := by
  have hconsumer := h.consumer
  have hreturned := h.returned_consume hs
  unfold SpscThreads.consume at hs
  unfold returned at hreturned ⊢
  cases hc : s.consumer with
  | idle => simp [hc] at hs
  | called =>
    simp only [hc, Option.some.injEq] at hs
    subst hs
    exact .inl ⟨rfl, rfl, Nat.lt_succ_self n, fun hidle => by cases hidle⟩
  | loaded head =>
    rw [hc] at hconsumer
    obtain rfl : head = s.ring.head := hconsumer
    simp only [hc] at hs hreturned ⊢
    split_ifs at hs with hempty <;> obtain rfl := Option.some.inj hs
    · have hnil : s.waiting = [] := by
        rw [← List.length_eq_zero_iff, length_waiting]
        exact h.head_eq_tail_iff.mp hempty
      refine .inr (.inl ⟨if_pos hempty, hnil, ?_, rfl, rfl⟩)
      rw [waiting, popped_returnEmpty]
      exact hnil
    · exact .inl ⟨if_neg hempty, rfl, hn, fun hidle => by cases hidle⟩
  | reading head =>
    simp only [hc, Option.some.injEq] at hs
    subst hs
    exact .inl ⟨rfl, rfl, Nat.lt_succ_self 1, fun hidle => by cases hidle⟩
  | read head out =>
    rw [hc] at hconsumer
    obtain ⟨rfl, hout⟩ := hconsumer
    simp only [hc, Option.some.injEq] at hs
    subst hs
    refine .inr (.inr ⟨out, rfl, ?_, rfl, rfl⟩)
    have hlt := (List.getElem?_eq_some_iff.mp hout).1
    simp only [waiting, popped_storeHead, List.length_drop, List.length_append,
      List.length_singleton]
    change _ = s.pushed.length - _ + 1
    omega

end SpscThreads

namespace Sharding

variable {x x' : Sharding} {k : ℕ}

/-- Where the producer can be in a wait. -/
structure Placed (x : Sharding) : Prop where
  /-- A shard whose counter has been read is one of the shards. -/
  scanned : ∀ k v, x.producer = .scanned k v → k < x.matcher.numShards
  /-- The flags are raised in order, and those behind are up. -/
  stopping : ∀ k, x.producer = .stopping k →
    k ≤ x.matcher.numShards ∧ ∀ j < k, (x.matcher.shards j).stop = true

/-- Only the producer's place, the number of shards and the flags matter. -/
theorem Placed.of_eq (h : x.Placed) (hproducer : x'.producer = x.producer)
    (hn : x'.matcher.numShards = x.matcher.numShards)
    (hstop : ∀ k, (x'.matcher.shards k).stop = (x.matcher.shards k).stop) : x'.Placed := by
  refine ⟨fun k v hk => ?_, fun k hk => ?_⟩
  · rw [hn]
    exact h.scanned k v (hproducer.symm.trans hk)
  · simp only [hn, hstop]
    exact h.stopping k (hproducer.symm.trans hk)

/-- The producer is not in a wait. -/
theorem placed_of_ne (hscanned : ∀ k v, x.producer ≠ .scanned k v)
    (hstopping : ∀ k, x.producer ≠ .stopping k) : x.Placed :=
  ⟨fun k v hk => absurd hk (hscanned k v), fun k hk => absurd hk (hstopping k)⟩

/-- The producer's own steps. -/
theorem Placed.proceed (h : x.Placed) (hs : x.proceed = some x') : x'.Placed := by
  unfold Sharding.proceed at hs
  cases hp : x.producer with
  | idle => simp [hp] at hs
  | pushed k =>
    simp only [hp, Option.some.injEq] at hs
    subst hs
    exact placed_of_ne (fun _ _ hk => by cases hk) fun _ hk => by cases hk
  | scan k =>
    simp only [hp] at hs
    split_ifs at hs with hk <;> obtain rfl := Option.some.inj hs
    · refine ⟨fun j v hj => ?_, fun _ hj => by cases hj⟩
      obtain ⟨rfl, -⟩ := ProducerState.scanned.inj hj
      exact hk
    · exact placed_of_ne (fun _ _ hj => by cases hj) fun _ hj => by cases hj
  | scanned k v =>
    simp only [hp] at hs
    split_ifs at hs <;> obtain rfl := Option.some.inj hs <;>
      exact placed_of_ne (fun _ _ hj => by cases hj) fun _ hj => by cases hj
  | stopping k =>
    simp only [hp, Option.ite_none_right_eq_some, Option.some.injEq] at hs
    obtain ⟨hk, rfl⟩ := hs
    refine ⟨fun _ _ hj => (by cases hj), fun m hm => ?_⟩
    obtain rfl := ProducerState.stopping.inj hm
    refine ⟨hk, fun j hj => ?_⟩
    simp only [ShardedMatcher.setShard, Function.update_apply]
    split_ifs with hjk
    · rfl
    · exact (h.stopping k hp).2 j (Nat.lt_of_le_of_ne (Nat.le_of_lt_succ hj) hjk)

/-- A worker's step. -/
theorem Placed.worker (h : x.Placed) (hs : x.workerStep k = some x') : x'.Placed := by
  have hpop : ∀ draining w, (x.popOr k draining w).Placed := fun draining w => by
    unfold popOr
    split
    · exact h.of_eq rfl rfl fun _ => rfl
    · exact h.of_eq rfl rfl (x.matcher.proj_setShard (·.stop) rfl)
  unfold workerStep at hs
  cases hw : x.workers k with
  | check =>
    simp only [hw, Option.some.injEq] at hs
    subst hs
    exact h.of_eq rfl rfl fun _ => rfl
  | poll | drain =>
    simp only [hw, Option.some.injEq] at hs
    subst hs
    exact hpop _ _
  | hold cmd draining =>
    simp only [hw, Option.some.injEq] at hs
    subst hs
    obtain ⟨-, engine, pool, -, hexec⟩ := x.matcher.execute_eq k cmd
    rw [hexec]
    exact h.of_eq rfl rfl (x.matcher.proj_setShard (·.stop) rfl)
  | count draining =>
    simp only [hw, Option.some.injEq] at hs
    subst hs
    exact h.of_eq rfl rfl (x.matcher.proj_setShard (·.stop) rfl)
  | exited => simp [hw] at hs

/-- A call of `submit` or `cancel`. -/
theorem placed_send (hp : x.producer = .idle) (e : Entry) : (x.send e).Placed := by
  unfold send
  dsimp only
  split_ifs
  · exact placed_of_ne (fun _ _ hk => by cases hk) fun _ hk => by cases hk
  · exact placed_of_ne (fun _ _ hk => by cases hp.symm.trans hk)
      fun _ hk => by cases hp.symm.trans hk

/-- **Throughout a run.** -/
theorem placed_of_reach {sm : ShardedMatcher}
    (hx : Guarded.Reach step (fun _ _ => True) (start sm) x) : x.Placed := by
  refine hx.invariant (I := Placed)
    (placed_of_ne (fun _ _ hk => by cases hk) fun _ hk => by cases hk) ?_
  intro x act x' h _ hs
  cases act with
  | acquire =>
    simp only [step, Option.ite_none_right_eq_some, Option.map_eq_some_iff] at hs
    obtain ⟨-, _, -, rfl⟩ := hs
    exact h.of_eq rfl rfl fun _ => rfl
  | write a o =>
    simp only [step, Option.ite_none_right_eq_some, Option.some.injEq] at hs
    obtain ⟨-, rfl⟩ := hs
    exact h.of_eq rfl rfl fun _ => rfl
  | submit a =>
    simp only [step, Option.ite_none_right_eq_some, Option.some.injEq] at hs
    obtain ⟨⟨hp, -⟩, rfl⟩ := hs
    exact (placed_send hp _).of_eq rfl rfl fun _ => rfl
  | cancel i id =>
    simp only [step, Option.ite_none_right_eq_some, Option.some.injEq] at hs
    obtain ⟨hp, rfl⟩ := hs
    exact placed_send hp _
  | waitIdle =>
    simp only [step, Option.ite_none_right_eq_some, Option.some.injEq] at hs
    obtain ⟨-, rfl⟩ := hs
    exact placed_of_ne (fun _ _ hk => by cases hk) fun _ hk => by cases hk
  | destroy =>
    simp only [step, Option.ite_none_right_eq_some, Option.some.injEq] at hs
    obtain ⟨-, rfl⟩ := hs
    refine ⟨fun _ _ hk => (by cases hk), fun k hk => ?_⟩
    obtain rfl := ProducerState.stopping.inj hk
    exact ⟨Nat.zero_le _, fun j hj => absurd hj (Nat.not_lt_zero j)⟩
  | proceed => exact h.proceed hs
  | worker k =>
    simp only [step, Option.ite_none_right_eq_some] at hs
    exact h.worker hs.2

end Sharding

namespace ShardedThreads

variable {c c' : ShardedThreads} {Q : Queues} {q : InstrumentId → QueueBook} {pending : List Entry}
  {lost : List Slot} {act : Action} {j k : ℕ}

/-- The producer's thread is in no call.  The destructor has returned when it has joined the
workers. -/
def Returned (c : ShardedThreads) : Prop :=
  c.pushing = none ∧ (c.sharding.producer = .idle
    ∨ c.sharding.producer = .stopping c.sharding.matcher.numShards
      ∧ ∀ k < c.sharding.matcher.numShards, c.sharding.workers k = .exited)

/-- The producer's thread is in `wait_idle` or in the destructor. -/
def Waits (c : ShardedThreads) : Prop :=
  c.pushing = none ∧ (c.sharding.producer.seen.isSome ∨ c.sharding.producer.ending = true)

/-- **Shard `k` is done** with all it was given. -/
structure Done (k : ℕ) (c : ShardedThreads) : Prop where
  /-- Nothing is left in its ring, -/
  waiting : (c.rings k).waiting = []
  /-- nor in its worker's hands, -/
  held : (c.sharding.workers k).held = []
  /-- and all of it is counted. -/
  counting : (c.sharding.workers k).counting = false

/-- **What worker `k` has before it.** -/
def ahead (k : ℕ) (c : ShardedThreads) : ℕ :=
  13 * (c.rings k).waiting.length
    + (c.sharding.workers k).place (c.sharding.matcher.shards k).stop (c.rings k).consumer

/-! ## What the steps leave alone

A worker writes to its own place, its own end of its own ring and the counters of its own shard. The
flags it only reads. -/

/-- Two states as the producer and the workers other than `j` see them. -/
structure SameBut (j : ℕ) (c c' : ShardedThreads) : Prop where
  /-- The call the producer is in, -/
  pushing : c'.pushing = c.pushing
  /-- and where it is in it. -/
  producer : c'.sharding.producer = c.sharding.producer
  /-- The shards are as many as they were. -/
  numShards : c'.sharding.matcher.numShards = c.sharding.matcher.numShards
  /-- The flags are the destructor's to raise. -/
  stop : ∀ k, (c'.sharding.matcher.shards k).stop = (c.sharding.matcher.shards k).stop
  /-- The producer's end of every ring, that of `j` included. -/
  pushes : ∀ k, (c'.rings k).producer = (c.rings k).producer
  /-- The rings of the other workers. -/
  ring : ∀ k, k ≠ j → c'.rings k = c.rings k
  /-- And where those workers are. -/
  worker : ∀ k, k ≠ j → c'.sharding.workers k = c.sharding.workers k

/-- A worker moves on, -/
theorem sameBut_withWorker (c : ShardedThreads) (j : ℕ) (w : WorkerState) :
    SameBut j c (c.withWorker j w) :=
  ⟨rfl, rfl, rfl, fun _ => rfl, fun _ => rfl, fun _ _ => rfl,
    fun _ hk => Function.update_of_ne hk ..⟩

/-- its end of its ring moves on, -/
theorem sameBut_setRing {ring : SpscThreads Command kQueueCapacity}
    (hring : ring.producer = (c.rings j).producer) : SameBut j c (c.setRing j ring) := by
  refine ⟨rfl, rfl, rfl, fun _ => rfl, fun k => ?_, fun _ hk => Function.update_of_ne hk ..,
    fun _ _ => rfl⟩
  change (Function.update c.rings j ring k).producer = _
  by_cases hk : k = j
  · rw [hk, Function.update_self, hring]
  · rw [Function.update_of_ne hk]

/-- and one after the other. -/
theorem SameBut.trans {c'' : ShardedThreads} (h : SameBut j c c') (h' : SameBut j c' c'') :
    SameBut j c c'' :=
  ⟨h'.pushing.trans h.pushing, h'.producer.trans h.producer, h'.numShards.trans h.numShards,
    fun k => (h'.stop k).trans (h.stop k), fun k => (h'.pushes k).trans (h.pushes k),
    fun k hk => (h'.ring k hk).trans (h.ring k hk),
      fun k hk => (h'.worker k hk).trans (h.worker k hk)⟩

/-- A step of a pop. -/
theorem sameBut_consume {draining : Bool} {otherwise : WorkerState}
    (hs : c.consume j draining otherwise = some c') : SameBut j c c' := by
  obtain ⟨ring, hring, rfl⟩ := Option.map_eq_some_iff.mp hs
  have hset := sameBut_setRing (SpscThreads.consume_cases hring).1
  split
  · rw [popReturned_eq]
    exact hset.trans (sameBut_withWorker _ j _)
  · exact hset

/-- A pop that begins, or goes on. -/
theorem sameBut_pop {draining : Bool} {otherwise : WorkerState}
    (hs : c.pop j draining otherwise = some c') : SameBut j c c' := by
  unfold ShardedThreads.pop at hs
  cases hc : (c.rings j).consumer with
  | idle =>
    simp only [hc] at hs
    obtain ⟨ring, hring, rfl⟩ := Option.map_eq_some_iff.mp hs
    simp only [SpscThreads.step, hc, Option.some.injEq] at hring
    subst hring
    exact sameBut_setRing rfl
  | called | loaded _ | reading _ | read _ _ =>
    simp only [hc] at hs
    exact sameBut_consume hs

/-- A worker changes its shard of the matcher, and the pool. -/
theorem sameBut_shard (c : ShardedThreads) {s : Shard} (w : WorkerState) (pool : Pool)
    (executed : List (ℕ × Entry)) (hs : s.stop = (c.sharding.matcher.shards j).stop) :
    SameBut j c { c with sharding := { c.sharding.withWorker j w with
      matcher := { c.sharding.matcher.setShard j s with pool }
      executed } } :=
  ⟨rfl, rfl, rfl, c.sharding.matcher.proj_setShard (·.stop) hs, fun _ => rfl, fun _ _ => rfl,
    fun _ hk => Function.update_of_ne hk ..⟩

/-- **A worker leaves the others alone**, and the producer. -/
theorem sameBut_worker (hs : c.step (.worker j) = some c') : SameBut j c c' := by
  simp only [ShardedThreads.step, Option.ite_none_right_eq_some] at hs
  obtain ⟨-, hs⟩ := hs
  unfold ShardedThreads.workerStep at hs
  cases hw : c.sharding.workers j with
  | poll | drain =>
    simp only [hw] at hs
    exact sameBut_pop hs
  | check =>
    simp only [hw, Sharding.workerStep, Option.map_some, Option.some.injEq] at hs
    subst hs
    exact sameBut_withWorker c j _
  | hold cmd draining =>
    simp only [hw, Sharding.workerStep, Option.map_some, Option.some.injEq] at hs
    subst hs
    obtain ⟨-, engine, pool, -, hexec⟩ := c.sharding.matcher.execute_eq j cmd
    rw [hexec]
    exact sameBut_shard c _ pool _ rfl
  | count draining =>
    simp only [hw, Sharding.workerStep, Option.map_some, Option.some.injEq] at hs
    subst hs
    exact sameBut_shard c _ c.sharding.matcher.pool _ rfl
  | exited => simp [hw, Sharding.workerStep] at hs

/-! ## A worker works off its ring

`ahead k` counts 13 for each command in the ring and, below that, how far worker `k` is from the
next place where it takes one. A command is worth more than the whole way round the loop, so every
step of the worker lowers the sum for as long as there is something to do. -/

/-- The ring that was put in. -/
theorem rings_setRing_self (c : ShardedThreads) (k : ℕ)
    (ring : SpscThreads Command kQueueCapacity) :
    (c.setRing k ring).rings k = ring := Function.update_self ..

/-- The place that was put in. -/
theorem workers_withWorker_self (c : ShardedThreads) (k : ℕ) (w : WorkerState) :
    (c.withWorker k w).sharding.workers k = w := Function.update_self ..

/-- The measure once a ring has moved on, -/
theorem ahead_setRing {ring : SpscThreads Command kQueueCapacity} :
    ahead k (c.setRing k ring) = 13 * ring.waiting.length
      + (c.sharding.workers k).place (c.sharding.matcher.shards k).stop ring.consumer := by
  simp only [ahead, setRing, Function.update_self]

/-- once its worker has, -/
theorem ahead_withWorker {w : WorkerState} : ahead k (c.withWorker k w)
    = 13 * (c.rings k).waiting.length
      + w.place (c.sharding.matcher.shards k).stop (c.rings k).consumer := by
  simp only [ahead, withWorker, Sharding.withWorker, Function.update_self]

/-- and once the worker has written to its shard. -/
theorem ahead_shard (c : ShardedThreads) {s : Shard} (w : WorkerState) (pool : Pool)
    (executed : List (ℕ × Entry)) (hs : s.stop = (c.sharding.matcher.shards k).stop) :
    ahead k { c with sharding := { c.sharding.withWorker k w with
      matcher := { c.sharding.matcher.setShard k s with pool }
      executed } } = 13 * (c.rings k).waiting.length
      + w.place (c.sharding.matcher.shards k).stop (c.rings k).consumer := by
  simp only [ahead, Sharding.withWorker, ShardedMatcher.setShard, Function.update_self, hs]

/-- A step of a pop lowers it, or the ring is empty. -/
theorem ahead_consume_lt (h : c.Follows Q) {draining : Bool} {otherwise : WorkerState} {n : ℕ}
    (hn : 2 < n)
    (hplace : ∀ pop,
      (c.sharding.workers k).place (c.sharding.matcher.shards k).stop pop = pop.rank n)
    (hempty : (c.rings k).waiting = [] →
      otherwise.place (c.sharding.matcher.shards k).stop .idle < n)
    (hs : c.consume k draining otherwise = some c') : ahead k c' < ahead k c := by
  obtain ⟨ring, hring, rfl⟩ := Option.map_eq_some_iff.mp hs
  have hahead : ahead k c = 13 * (c.rings k).waiting.length + (c.rings k).consumer.rank n := by
    rw [ahead, hplace]
  rw [hahead]
  rcases (h.ring k).consume_ranked hn hring with
    ⟨hret, hwait, hrank, -⟩ | ⟨hret, hnil, hwait, hrank, hidle⟩ | ⟨out, hret, hwait, hrank, -⟩
  · simp only [hret]
    rw [ahead_setRing, hplace, hwait]
    omega
  · simp only [hret]
    have hlt := hempty hnil
    rw [popReturned_eq, ahead_withWorker]
    simp only [setRing, Function.update_self, hidle, hwait, hnil, List.length_nil,
      hrank, Option.elim]
    omega
  · simp only [hret]
    rw [popReturned_eq, ahead_withWorker]
    simp only [setRing, Function.update_self, hwait, hrank, Option.elim, WorkerState.place]
    omega

/-- And so does the step that begins the pop. -/
theorem ahead_pop_lt (h : c.Follows Q) {draining : Bool} {otherwise : WorkerState} {n : ℕ}
    (hn : 2 < n)
    (hplace : ∀ pop,
      (c.sharding.workers k).place (c.sharding.matcher.shards k).stop pop = pop.rank n)
    (hempty : (c.rings k).waiting = [] →
      otherwise.place (c.sharding.matcher.shards k).stop .idle < n)
    (hs : c.pop k draining otherwise = some c') : ahead k c' < ahead k c := by
  unfold ShardedThreads.pop at hs
  cases hc : (c.rings k).consumer with
  | idle =>
    simp only [hc] at hs
    obtain ⟨ring, hring, rfl⟩ := Option.map_eq_some_iff.mp hs
    simp only [SpscThreads.step, hc, Option.some.injEq] at hring
    subst hring
    rw [ahead_setRing, hplace, ahead, hplace, hc]
    exact Nat.add_lt_add_left (Nat.lt_succ_self _) _
  | called | loaded _ | reading _ | read _ _ =>
    simp only [hc] at hs
    exact ahead_consume_lt h hn hplace hempty hs

/-- **Each step of its worker brings a shard nearer its end**, unless it is done and goes on. -/
theorem ahead_worker_lt (h : c.Follows Q)
    (hnot : ¬ Done k c ∨ (c.sharding.matcher.shards k).stop = true)
    (hs : c.step (.worker k) = some c') : ahead k c' < ahead k c := by
  have hidle : c.sharding.workers k ≠ .poll → c.sharding.workers k ≠ .drain →
      (c.rings k).consumer = .idle := fun hpoll hdrain => by
    by_contra hne
    exact (h.pops k hne).elim hpoll hdrain
  simp only [ShardedThreads.step, Option.ite_none_right_eq_some] at hs
  obtain ⟨-, hs⟩ := hs
  unfold ShardedThreads.workerStep at hs
  cases hw : c.sharding.workers k with
  | poll =>
    simp only [hw] at hs
    refine ahead_pop_lt h (n := 7) (by decide) (fun pop => by rw [hw]; rfl) (fun hnil => ?_) hs
    have hdone : Done k c := ⟨hnil, by rw [hw]; rfl, by rw [hw]; rfl⟩
    rw [hnot.resolve_left (not_not_intro hdone)]
    decide
  | drain =>
    simp only [hw] at hs
    refine ahead_pop_lt h (n := 3) (by decide) (fun pop => by rw [hw]; rfl) (fun _ => ?_) hs
    exact Nat.succ_pos 2
  | check =>
    have hcons := hidle (by rw [hw]; decide) (by rw [hw]; decide)
    simp only [hw, Sharding.workerStep, Option.map_some, Option.some.injEq] at hs
    subst hs
    change ahead k (c.withWorker k _) < _
    rw [ahead_withWorker, ahead, hw, hcons]
    refine Nat.add_lt_add_left ?_ _
    cases (c.sharding.matcher.shards k).stop <;> decide
  | hold cmd draining =>
    simp only [hw, Sharding.workerStep, Option.map_some, Option.some.injEq] at hs
    subst hs
    obtain ⟨-, engine, pool, -, hexec⟩ := c.sharding.matcher.execute_eq k cmd
    have hshard := ahead_shard (s := { c.sharding.matcher.shards k with engine }) c
      (.count draining) pool
      (c.sharding.executed ++ [(k, cmd.entry c.sharding.matcher.pool)]) rfl
    rw [hexec, hshard, ahead, hw]
    exact Nat.add_lt_add_left (Nat.lt_succ_self 11) _
  | count draining =>
    have hcons := hidle (by rw [hw]; exact fun hp => by cases hp)
      (by rw [hw]; exact fun hp => by cases hp)
    simp only [hw, Sharding.workerStep, Option.map_some, Option.some.injEq] at hs
    subst hs
    have hshard := ahead_shard
      (s := { c.sharding.matcher.shards k with
        processed := (c.sharding.matcher.shards k).processed + 1 })
      c (if draining then .drain else .check) c.sharding.matcher.pool c.sharding.executed rfl
    refine lt_of_eq_of_lt hshard ?_
    rw [ahead, hw, hcons]
    refine Nat.add_lt_add_left ?_ _
    cases draining <;> cases (c.sharding.matcher.shards k).stop <;> decide
  | exited => simp [hw, Sharding.workerStep] at hs

/-- And a shard that is done stays done. -/
theorem Done.consume (hdone : Done k c) (h : c.Follows Q) {draining : Bool}
    {otherwise : WorkerState} (hheld : otherwise.held = []) (hcount : otherwise.counting = false)
    (hs : c.consume k draining otherwise = some c') : Done k c' := by
  obtain ⟨ring, hring, rfl⟩ := Option.map_eq_some_iff.mp hs
  obtain ⟨hnil, hheld₀, hcount₀⟩ := hdone
  rcases (h.ring k).consume_ranked (n := 3) (by decide) hring with ⟨hret, hwait, -, -⟩ |
    ⟨hret, -, hwait, -, -⟩ | ⟨out, -, hlen, -, -⟩
  · simp only [hret]
    exact ⟨by rw [rings_setRing_self, hwait, hnil], hheld₀, hcount₀⟩
  · simp only [hret]
    rw [popReturned_eq]
    exact ⟨(congrArg SpscThreads.waiting (rings_setRing_self c k ring)).trans hwait,
      by rw [workers_withWorker_self]; exact hheld, by rw [workers_withWorker_self]; exact hcount⟩
  · rw [hnil] at hlen
    cases hlen

/-- A pop from an empty ring finds nothing. -/
theorem Done.pop (hdone : Done k c) (h : c.Follows Q) {draining : Bool} {otherwise : WorkerState}
    (hheld : otherwise.held = []) (hcount : otherwise.counting = false)
    (hs : c.pop k draining otherwise = some c') : Done k c' := by
  unfold ShardedThreads.pop at hs
  cases hc : (c.rings k).consumer with
  | idle =>
    simp only [hc] at hs
    obtain ⟨ring, hring, rfl⟩ := Option.map_eq_some_iff.mp hs
    simp only [SpscThreads.step, hc, Option.some.injEq] at hring
    subst hring
    exact ⟨(congrArg SpscThreads.waiting (rings_setRing_self c k _)).trans hdone.waiting,
      hdone.held,
      hdone.counting⟩
  | called | loaded _ | reading _ | read _ _ =>
    simp only [hc] at hs
    exact hdone.consume h hheld hcount hs

/-- **Done stays done**, whatever its worker does. -/
theorem Done.worker (hdone : Done k c) (h : c.Follows Q) (hs : c.step (.worker k) = some c') :
    Done k c' := by
  have hheld := hdone.held
  have hcount := hdone.counting
  simp only [ShardedThreads.step, Option.ite_none_right_eq_some] at hs
  obtain ⟨-, hs⟩ := hs
  unfold ShardedThreads.workerStep at hs
  cases hw : c.sharding.workers k with
  | poll | drain =>
    simp only [hw] at hs
    exact hdone.pop h rfl rfl hs
  | check =>
    simp only [hw, Sharding.workerStep, Option.map_some, Option.some.injEq] at hs
    subst hs
    refine ⟨hdone.waiting, ?_, ?_⟩ <;>
      simp only [Sharding.withWorker, Function.update_self] <;> split_ifs <;> rfl
  | hold cmd draining =>
    rw [hw] at hheld
    cases hheld
  | count draining =>
    rw [hw] at hcount
    cases hcount
  | exited => simp [hw, Sharding.workerStep] at hs

/-! ## The producer waits

In `wait_idle` and in the destructor the producer's thread sends nothing: the rings can only be
worked off. -/

/-- In a call, the producer's thread only goes on with it. -/
theorem busy_cases (hbusy : c.pushing ≠ none ∨ c.sharding.producer ≠ .idle)
    (hs : c.step act = some c') : act = .proceed ∨ ∃ j, act = .worker j := by
  cases act with
  | proceed => exact .inl rfl
  | worker j => exact .inr ⟨j, rfl⟩
  | submit a =>
    simp only [ShardedThreads.step, Option.ite_none_right_eq_some] at hs
    exact absurd hs.1.1 (hbusy.resolve_right (not_not_intro hs.1.2.1))
  | cancel i id =>
    simp only [ShardedThreads.step, Option.ite_none_right_eq_some] at hs
    exact absurd hs.1.1 (hbusy.resolve_right (not_not_intro hs.1.2))
  | acquire | write _ _ | waitIdle | destroy =>
    simp only [ShardedThreads.step, Option.ite_none_right_eq_some] at hs
    obtain ⟨hnone, hs⟩ := hs
    obtain ⟨x, hx, -⟩ := Option.map_eq_some_iff.mp hs
    have hne := hbusy.resolve_left (not_not_intro hnone)
    simp [Sharding.step, hne] at hx

/-- A thread that waits is in a call. -/
theorem Waits.busy (h : c.Waits) : c.pushing ≠ none ∨ c.sharding.producer ≠ .idle := by
  refine .inr fun hidle => ?_
  obtain ⟨-, hseen | hend⟩ := h
  · rw [hidle] at hseen
    cases hseen
  · rw [hidle] at hend
    cases hend

/-- The producer looks at another counter, or raises another flag, or returns. -/
theorem proceed_of_waits (hw : c.Waits) (hs : c.step .proceed = some c') :
    c'.rings = c.rings ∧ c'.sharding.workers = c.sharding.workers
      ∧ c'.sharding.matcher.numShards = c.sharding.matcher.numShards
      ∧ (∀ k, (c.sharding.matcher.shards k).stop = true →
        (c'.sharding.matcher.shards k).stop = true)
      ∧ (c'.Returned ∨ c'.Waits) := by
  obtain ⟨hnone, hwaits⟩ := hw
  simp only [ShardedThreads.step, hnone] at hs
  obtain ⟨x, hx, rfl⟩ := Option.map_eq_some_iff.mp hs
  unfold Sharding.proceed at hx
  cases hp : c.sharding.producer with
  | idle | pushed k =>
    rw [hp] at hwaits
    rcases hwaits with hwaits | hwaits <;> cases hwaits
  | scan k =>
    simp only [hp] at hx
    split_ifs at hx <;> obtain rfl := Option.some.inj hx
    · exact ⟨rfl, rfl, rfl, fun _ hk => hk, .inr ⟨rfl, .inl rfl⟩⟩
    · exact ⟨rfl, rfl, rfl, fun _ hk => hk, .inl ⟨rfl, .inl rfl⟩⟩
  | scanned k v =>
    simp only [hp] at hx
    split_ifs at hx <;> obtain rfl := Option.some.inj hx
    · exact ⟨rfl, rfl, rfl, fun _ hk => hk, .inr ⟨rfl, .inl rfl⟩⟩
    · exact ⟨rfl, rfl, rfl, fun _ hk => hk, .inr ⟨rfl, .inl rfl⟩⟩
  | stopping k =>
    simp only [hp, Option.ite_none_right_eq_some, Option.some.injEq] at hx
    obtain ⟨-, rfl⟩ := hx
    refine ⟨rfl, rfl, rfl, fun j hj => ?_, .inr ⟨rfl, .inr rfl⟩⟩
    simp only [ShardedMatcher.setShard, Function.update_apply]
    split_ifs
    · rfl
    · exact hj

/-- **While the producer waits** it goes on waiting until it returns, no shard gets anything to do,
and none that is done gets undone. -/
theorem Waits.step (hw : c.Waits) (h : c.Follows Q) (hs : c.step act = some c') :
    (c'.Returned ∨ c'.Waits) ∧ (∀ k, Done k c → Done k c')
      ∧ ∀ k, act ≠ .worker k → ahead k c' ≤ ahead k c := by
  rcases busy_cases hw.busy hs with rfl | ⟨j, rfl⟩
  · obtain ⟨hrings, hworkers, -, hstop, hwaits⟩ := proceed_of_waits hw hs
    refine ⟨hwaits, fun k hk => ⟨hrings ▸ hk.waiting, hworkers ▸ hk.held, hworkers ▸ hk.counting⟩,
      fun k _ => ?_⟩
    simp only [ahead, hrings, hworkers]
    refine Nat.add_le_add_left ?_ _
    cases hk : (c.sharding.matcher.shards k).stop with
    | true => rw [hstop k hk]
    | false =>
      cases (c.sharding.workers k) <;> simp only [WorkerState.place, le_refl]
      cases (c'.sharding.matcher.shards k).stop <;> decide
  · have hsame := sameBut_worker hs
    refine ⟨.inr ?_, fun k hk => ?_, fun k hk => ?_⟩
    · unfold Waits
      rw [hsame.pushing, hsame.producer]
      exact hw
    · by_cases hkj : k = j
      · subst hkj
        exact hk.worker h hs
      · exact ⟨hsame.ring k hkj ▸ hk.waiting, hsame.worker k hkj ▸ hk.held,
          hsame.worker k hkj ▸ hk.counting⟩
    · have hkj : k ≠ j := fun hkj => hk (hkj ▸ rfl)
      simp only [ahead, hsame.ring k hkj, hsame.worker k hkj, hsame.stop, le_refl]

/-! ## Somebody can go on

No thread is ever stuck in the middle of a call, except for the join of a worker that has not
left. -/

/-- A worker that has not left can always take a step, -/
theorem isSome_worker (hk : k < c.sharding.matcher.numShards)
    (hw : c.sharding.workers k ≠ .exited) : (c.step (.worker k)).isSome := by
  have hpop : ∀ draining otherwise, (c.pop k draining otherwise).isSome := by
    intro draining otherwise
    unfold ShardedThreads.pop
    cases hc : (c.rings k).consumer <;>
      simp [ShardedThreads.consume, SpscThreads.step, SpscThreads.consume, hc]
    split_ifs <;> rfl
  simp only [ShardedThreads.step, if_pos hk]
  unfold ShardedThreads.workerStep
  cases hs : c.sharding.workers k with
  | poll | drain => exact hpop _ _
  | check | hold _ _ | count _ => simp [Sharding.workerStep, hs]
  | exited => exact absurd hs hw

/-- a push that has begun can go on, -/
theorem isSome_produce (h : c.Follows Q) {e : Entry} (he : c.pushing = some e) :
    (c.step .proceed).isSome := by
  have hvalue := h.pushes (c.target e)
  rw [pushingTo, he, Option.filter_some, decide_eq_true rfl] at hvalue
  simp only [ShardedThreads.step, he, ShardedThreads.produce, Option.isSome_map]
  unfold SpscThreads.produce
  cases hp : (c.rings (c.target e)).producer with
  | idle =>
    rw [hp] at hvalue
    cases hvalue
  | called _ | writing _ _ | written _ _ => rfl
  | loaded value tail =>
    simp only
    split_ifs <;> rfl

/-- A call that does not wait can go on. -/
theorem isSome_call (h : c.Follows Q) (hcall : ¬ (c.Returned ∨ c.Waits)) :
    (c.step .proceed).isSome := by
  cases he : c.pushing with
  | some e => exact isSome_produce h he
  | none =>
    simp only [ShardedThreads.step, he, Option.isSome_map]
    unfold Sharding.proceed
    cases hp : c.sharding.producer with
    | idle => exact absurd (.inl ⟨he, .inl hp⟩) hcall
    | scan _ | scanned _ _ => exact absurd (.inr ⟨he, .inl (by rw [hp]; rfl)⟩) hcall
    | stopping _ => exact absurd (.inr ⟨he, .inr (by rw [hp]; rfl)⟩) hcall
    | pushed k => rfl

/-- a call that does not wait has begun, -/
theorem busy_of_call (hcall : ¬ (c.Returned ∨ c.Waits)) :
    c.pushing ≠ none ∨ c.sharding.producer ≠ .idle := by
  by_contra hidle
  rw [not_or, not_not, not_not] at hidle
  exact hcall (.inl ⟨hidle.1, .inl hidle.2⟩)

/-- and so can a wait, but for the joins at its end. -/
theorem isSome_proceed (hx : c.sharding.Placed) (hw : c.Waits)
    (hnot : c.sharding.producer ≠ .stopping c.sharding.matcher.numShards) :
    (c.step .proceed).isSome := by
  obtain ⟨hnone, hwaits⟩ := hw
  simp only [ShardedThreads.step, hnone, Option.isSome_map]
  unfold Sharding.proceed
  cases hp : c.sharding.producer with
  | idle | pushed k =>
    rw [hp] at hwaits
    rcases hwaits with hwaits | hwaits <;> cases hwaits
  | scan k =>
    simp only
    split_ifs <;> rfl
  | scanned k v =>
    simp only
    split_ifs <;> rfl
  | stopping k =>
    have hne : k ≠ c.sharding.matcher.numShards := fun hk => hnot (hk ▸ hp)
    have hlt := Nat.lt_of_le_of_ne (hx.stopping k hp).1 hne
    simp only [if_pos hlt, Option.isSome_some]

/-! ## The counters

When a shard is done the counters of its shard agree, so a producer that looks again gets past
it. -/

/-- **A worker that has left is done.** -/
theorem done_of_exited (h : c.Follows Q) (hi : (c.sharding.withQueues Q).Inv q pending lost)
    (ht : (c.sharding.withQueues Q).Timing pending) (hw : c.sharding.workers k = .exited) :
    Done k c := by
  obtain ⟨l, hl, hpipe⟩ := hi.pipe k
  rw [ht.exited k hw] at hpipe
  obtain ⟨-, rfl⟩ := List.append_eq_nil_iff.mp hpipe
  exact ⟨(h.queue k).of_pop_none Sharding.kQueueCapacity_pow hl.pop_nil, by rw [hw]; rfl,
    by rw [hw]; rfl⟩

/-- **The counters of a shard that is done agree.** -/
theorem Done.counters (hdone : Done k c) (h : c.Follows Q)
    (hi : (c.sharding.withQueues Q).Inv q pending lost)
    (ht : (c.sharding.withQueues Q).Timing pending) (hp : c.sharding.producer ≠ .pushed k) :
    (c.sharding.matcher.shards k).submitted = (c.sharding.matcher.shards k).processed := by
  obtain ⟨l, hl, hpipe⟩ := hi.pipe k
  have hnil : l = [] := by
    refine hl.of_pop_none Sharding.kQueueCapacity_pow ?_
    have hq := h.queue k
    rw [hdone.waiting] at hq
    exact hq.pop_nil
  have hpart : part c.sharding.matcher.numShards k pending = [] := by
    have hheld : ((c.sharding.withQueues Q).workers k).held = [] := hdone.held
    rw [hheld, hnil] at hpipe
    exact List.map_eq_nil_iff.mp hpipe.symm
  have hlogs := hi.logs k
  have hsub := ht.submitted k
  have hproc := ht.processed k
  rw [hlogs] at hsub
  change _ = UInt64.ofNat (_ ++ part c.sharding.matcher.numShards k pending).length at hsub
  rw [hpart, List.append_nil, ← hproc] at hsub
  change (c.sharding.matcher.shards k).submitted
      + (if c.sharding.producer = .pushed k then 1 else 0)
    = (c.sharding.matcher.shards k).processed
      + (if (c.sharding.workers k).counting then 1 else 0) at hsub
  simpa [hp, hdone.counting] using hsub

/-! ## The producer goes on

Two more measures, for the producer's own steps: `callRank` within `submit` and `cancel`, and
`waitRank` within the waits once all shards are done. -/

/-- What the producer has before it in `submit` or `cancel`. -/
def callRank (c : ShardedThreads) : ℕ :=
  match c.pushing with
  | some e => 2 + (c.rings (c.target e)).producer.rank
  | none =>
    match c.sharding.producer with
    | .pushed _ => 1
    | _ => 0

/-- And in `wait_idle`, when it finds all shards done, or in the destructor, before it joins. -/
def waitRank (c : ShardedThreads) : ℕ :=
  match c.sharding.producer with
  | .scan k => 2 * (c.sharding.matcher.numShards - k) + 1
  | .scanned k _ => 2 * (c.sharding.matcher.numShards - k)
  | .stopping k => c.sharding.matcher.numShards - k
  | _ => 0

/-- Workers do not change how far the producer is from its return, -/
theorem SameBut.callRank_eq (h : SameBut j c c') : c'.callRank = c.callRank := by
  have htarget : c'.target = c.target := funext fun e => by
    unfold target ShardedMatcher.shardFor
    rw [h.numShards]
  simp only [callRank, h.pushing, h.producer, htarget, h.pushes]

/-- in either kind of call. -/
theorem SameBut.waitRank_eq (h : SameBut j c c') : c'.waitRank = c.waitRank := by
  simp only [waitRank, h.producer, h.numShards]

/-- Each step of a push is nearer its return. -/
theorem rank_produce_lt {s s' : SpscThreads Command kQueueCapacity} (hs : s.produce = some s') :
    s'.producer.rank < s.producer.rank := by
  unfold SpscThreads.produce at hs
  cases hp : s.producer with
  | idle => simp [hp] at hs
  | called _ | writing _ _ | written _ _ =>
    simp only [hp, Option.some.injEq] at hs
    subst hs
    exact Nat.lt_succ_self _
  | loaded value tail =>
    simp only [hp] at hs
    split_ifs at hs <;> obtain rfl := Option.some.inj hs
    · exact Nat.succ_pos 2
    · exact Nat.lt_succ_self 2

/-- The calls that do not wait. -/
theorem callRank_proceed_lt (hbusy : ¬ (c.Returned ∨ c.Waits)) (hs : c.step .proceed = some c') :
    c'.callRank < c.callRank := by
  simp only [ShardedThreads.step] at hs
  cases he : c.pushing with
  | some e =>
    simp only [he] at hs
    obtain ⟨ring, hring, rfl⟩ := Option.map_eq_some_iff.mp hs
    have hlt := rank_produce_lt hring
    have hrank : c.callRank = 2 + (c.rings (c.target e)).producer.rank := by
      simp only [callRank, he]
    rw [hrank]
    split
    · refine lt_of_le_of_lt (b := 1) ?_ (by omega)
      simp only [callRank, pushing_pushReturned]
      split <;> decide
    · have hself : ((c.setRing (c.target e) ring).rings (c.target e)) = ring :=
        rings_setRing_self ..
      have hpushing : (c.setRing (c.target e) ring).pushing = some e := he
      simp only [callRank, hpushing]
      change 2 + ((c.setRing (c.target e) ring).rings (c.target e)).producer.rank < _
      rw [hself]
      omega
  | none =>
    simp only [he] at hs
    obtain ⟨x, hx, rfl⟩ := Option.map_eq_some_iff.mp hs
    unfold Sharding.proceed at hx
    cases hp : c.sharding.producer with
    | idle => exact absurd (.inl ⟨he, .inl hp⟩) hbusy
    | scan _ | scanned _ _ => exact absurd (.inr ⟨he, .inl (by rw [hp]; rfl)⟩) hbusy
    | stopping _ => exact absurd (.inr ⟨he, .inr (by rw [hp]; rfl)⟩) hbusy
    | pushed k =>
      simp only [hp, Option.some.injEq] at hx
      subst hx
      simp only [callRank, he, hp]
      decide

/-- The calls that wait, once there is nothing left to wait for. -/
theorem waitRank_proceed_lt (hw : c.Waits) (hx : c.sharding.Placed)
    (hcounters : ∀ k < c.sharding.matcher.numShards,
      (c.sharding.matcher.shards k).submitted = (c.sharding.matcher.shards k).processed)
    (hloaded : ∀ k v, c.sharding.producer = .scanned k v →
      v = (c.sharding.matcher.shards k).submitted)
    (hs : c.step .proceed = some c') : c'.waitRank < c.waitRank := by
  obtain ⟨hnone, hwaits⟩ := hw
  simp only [ShardedThreads.step, hnone] at hs
  obtain ⟨x, hx', rfl⟩ := Option.map_eq_some_iff.mp hs
  unfold Sharding.proceed at hx'
  cases hp : c.sharding.producer with
  | idle | pushed k =>
    rw [hp] at hwaits
    rcases hwaits with hwaits | hwaits <;> cases hwaits
  | scan k =>
    simp only [hp] at hx'
    split_ifs at hx' <;> obtain rfl := Option.some.inj hx'
    · simp only [waitRank, hp]
      exact Nat.lt_succ_self _
    · simp only [waitRank, hp]
      exact Nat.succ_pos _
  | scanned k v =>
    have hlt := hx.scanned k v hp
    have heq : v = (c.sharding.matcher.shards k).processed :=
      (hloaded k v hp).trans (hcounters k hlt)
    simp only [hp] at hx'
    rw [if_neg (not_not_intro heq)] at hx'
    obtain rfl := Option.some.inj hx'
    simp only [waitRank, hp]
    omega
  | stopping k =>
    simp only [hp, Option.ite_none_right_eq_some, Option.some.injEq] at hx'
    obtain ⟨hlt, rfl⟩ := hx'
    simp only [waitRank, hp, ShardedMatcher.setShard]
    omega

/-- What holds of every state of a run. -/
structure Kept (n : ℕ) (c : ShardedThreads) : Prop where
  /-- There are `n` shards throughout. -/
  numShards : c.sharding.matcher.numShards = n
  /-- The producer is where it can be. -/
  placed : c.sharding.Placed
  /-- The rings are those of a matcher with atomic queues in good order. -/
  accounts : ∃ Q q pending lost, c.Follows Q ∧ (c.sharding.withQueues Q).Inv q pending lost
    ∧ (c.sharding.withQueues Q).Timing pending

/-- **Throughout a run** of a matcher that was made. -/
theorem kept_of_reach {r : InstrumentRegistry} {n capacity : ℕ} {sm : ShardedMatcher}
    (h : ShardedMatcher.new r n capacity = .ok sm)
    (hc : Guarded.Reach step (fun _ _ => True) (start sm) c) : c.Kept n := by
  obtain ⟨Q, hx, hfollows, hserves, q, pending, lost, hi, ht⟩ := exists_follows h hc
  refine ⟨hserves.numShards, ?_, Q, q, pending, lost, hfollows, hi, ht⟩
  exact (Sharding.placed_of_reach hx).of_eq rfl rfl fun _ => rfl

/-- The atomic queues behind the rings. -/
theorem Kept.follows {n : ℕ} (h : c.Kept n) : ∃ Q, c.Follows Q :=
  let ⟨Q, _, _, _, hfollows, _, _⟩ := h.accounts
  ⟨Q, hfollows⟩

/-! ## Fair runs

A run is a sequence of states and of actions, some of them pauses; it is fair to a thread that
always gets another turn. Liveness is then a chain of phases, each ended by the measure that belongs
to it. -/

section Fair

open Guarded

variable {n : ℕ} {x : ℕ → ShardedThreads} {a : ℕ → Option Action}

/-- A call that does not wait returns; the others wait. -/
theorem eventually_waits (hkept : ∀ i, (x i).Kept n) (hruns : Runs (pausing step) x a)
    (hproducer : Fair (pausing step) (· = some .proceed) x a) (i : ℕ) :
    ∃ j, i ≤ j ∧ ((x j).Returned ∨ (x j).Waits) := by
  refine hproducer.eventually_of_pausing callRank (fun c => c.Returned ∨ c.Waits) hruns
    (fun i hnot => ?_) (fun i hnot hs => callRank_proceed_lt hnot hs)
    (fun i hnot act hact hs => ?_) i
  · obtain ⟨Q, hfollows⟩ := (hkept i).follows
    exact isSome_call hfollows hnot
  · rcases busy_cases (busy_of_call hnot) hs with rfl | ⟨j, rfl⟩
    · exact absurd rfl hact
    · exact (sameBut_worker hs).callRank_eq.le

/-- **Every shard gets done** while the producer waits. -/
theorem eventually_done (hkept : ∀ i, (x i).Kept n) (hruns : Runs (pausing step) x a)
    {k : ℕ} (hk : k < n) (hworker : Fair (pausing step) (· = some (.worker k)) x a) (i : ℕ) :
    ∃ j, i ≤ j ∧ (Done k (x j) ∨ ¬ (x j).Waits) := by
  refine hworker.eventually_of_pausing (ahead k) (fun c => Done k c ∨ ¬ c.Waits) hruns
    (fun i hnot => ?_) (fun i hnot hs => ?_) (fun i hnot act hact hs => ?_) i <;>
    rw [not_or, not_not] at hnot
  · obtain ⟨hn, -, Q, q, pending, lost, hfollows, hi, ht⟩ := hkept i
    exact isSome_worker (hn.symm ▸ hk) fun hw => hnot.1 (done_of_exited hfollows hi ht hw)
  · obtain ⟨Q, hfollows⟩ := (hkept i).follows
    exact ahead_worker_lt hfollows (.inl hnot.1) hs
  · obtain ⟨Q, hfollows⟩ := (hkept i).follows
    exact (hnot.2.step hfollows hs).2.2 k hact

/-- With every shard done, the producer gets past the counters, or through with the flags. -/
theorem eventually_past (hkept : ∀ i, (x i).Kept n) (hruns : Runs (pausing step) x a)
    (hproducer : Fair (pausing step) (· = some .proceed) x a) (i : ℕ) :
    ∃ j, i ≤ j ∧ ((x j).sharding.producer = .stopping n
      ∨ ¬ ((x j).Waits ∧ ∀ k < n, Done k (x j))) := by
  refine hproducer.eventually_of_pausing waitRank
    (fun c => c.sharding.producer = .stopping n ∨ ¬ (c.Waits ∧ ∀ k < n, Done k c)) hruns
    (fun i hnot => ?_) (fun i hnot hs => ?_) (fun i hnot act hact hs => ?_) i <;>
    rw [not_or, not_not] at hnot
  · obtain ⟨hn, hplaced, -⟩ := hkept i
    exact isSome_proceed hplaced hnot.2.1 (hn.symm ▸ hnot.1)
  · obtain ⟨-, hwaits, hdone⟩ := hnot
    obtain ⟨hn, hplaced, Q, q, pending, lost, hfollows, hi, ht⟩ := hkept i
    refine waitRank_proceed_lt hwaits hplaced (fun k hk => ?_) ht.loaded hs
    refine (hdone k (hn ▸ hk)).counters hfollows hi ht fun hp => ?_
    obtain ⟨-, hwaits⟩ := hwaits
    rw [hp] at hwaits
    rcases hwaits with hwaits | hwaits <;> cases hwaits
  · rcases busy_cases hnot.2.1.busy hs with rfl | ⟨j, rfl⟩
    · exact absurd rfl hact
    · exact (sameBut_worker hs).waitRank_eq.le

/-- The destructor has raised all flags, and joins. -/
def Joins (n : ℕ) (c : ShardedThreads) : Prop :=
  c.pushing = none ∧ c.sharding.producer = .stopping n

/-- A destructor that joins is a wait. -/
theorem Joins.waits {c : ShardedThreads} (h : c.Joins n) : c.Waits := ⟨h.1, .inr (by rw [h.2]; rfl)⟩

/-- While it joins, only workers take steps, and one that has left takes none. -/
theorem Joins.step {c c' : ShardedThreads} {act : Action} (h : c.Joins n) (hkept : c.Kept n)
    (hs : c.step act = some c') :
    c'.Joins n ∧ ∀ k, c.sharding.workers k = .exited → c'.sharding.workers k = .exited := by
  rcases busy_cases h.waits.busy hs with rfl | ⟨j, rfl⟩
  · simp [ShardedThreads.step, h.1, Sharding.proceed, h.2, hkept.numShards] at hs
  · have hsame := sameBut_worker hs
    refine ⟨⟨hsame.pushing.trans h.1, hsame.producer.trans h.2⟩, fun k hk => ?_⟩
    by_cases hkj : k = j
    · subst hkj
      simp [ShardedThreads.step, ShardedThreads.workerStep, Sharding.workerStep, hk] at hs
    · rw [hsame.worker k hkj, hk]

/-- **Every worker leaves** when the destructor joins it. -/
theorem eventually_exited (hkept : ∀ i, (x i).Kept n) (hruns : Runs (pausing step) x a)
    {k : ℕ} (hk : k < n) (hworker : Fair (pausing step) (· = some (.worker k)) x a) (i : ℕ) :
    ∃ j, i ≤ j ∧ ((x j).sharding.workers k = .exited ∨ ¬ (x j).Joins n) := by
  refine hworker.eventually_of_pausing (ahead k) (fun c => c.sharding.workers k = .exited
    ∨ ¬ c.Joins n)
    hruns (fun i hnot => ?_) (fun i hnot hs => ?_) (fun i hnot act hact hs => ?_) i <;>
    rw [not_or, not_not] at hnot
  · exact isSome_worker ((hkept i).numShards.symm ▸ hk) hnot.1
  · obtain ⟨-, hplaced, Q, -, -, -, hfollows, -, -⟩ := hkept i
    exact ahead_worker_lt hfollows (.inr ((hplaced.stopping n hnot.2.2).2 k hk)) hs
  · obtain ⟨Q, hfollows⟩ := (hkept i).follows
    exact (hnot.2.waits.step hfollows hs).2.2 k hact

/-- **Every call returns**: `submit` and `cancel`, `wait_idle`, and the destructor, as long as no
thread is forgotten for ever. -/
theorem calls_return_of_fair {r : InstrumentRegistry} {capacity : ℕ} {sm : ShardedMatcher}
    (h : ShardedMatcher.new r n capacity = .ok sm)
    (h₀ : Reach step (fun _ _ => True) (start sm) (x 0)) (hruns : Runs (pausing step) x a)
    (hproducer : Fair (pausing step) (· = some .proceed) x a)
    (hworkers : ∀ k < n, Fair (pausing step) (· = some (.worker k)) x a) (i : ℕ) :
    ∃ j, i ≤ j ∧ (x j).Returned := by
  by_contra hnever
  have hnot : ∀ j, i ≤ j → ¬ (x j).Returned := fun j hj hret => hnever ⟨j, hj, hret⟩
  have hkept : ∀ i, (x i).Kept n := fun i => kept_of_reach h (hruns.reach_of_pausing h₀ i)
  -- the producer is in a wait, and stays there
  obtain ⟨i₁, hi₁, hstart⟩ := eventually_waits hkept hruns hproducer i
  have hwaits : ∀ j, i₁ ≤ j → (x j).Waits := fun j hj => by
    refine hruns.stays (hstart.resolve_left (hnot i₁ hi₁)) (fun j hj act hw hs => ?_) hj
    obtain ⟨Q, hfollows⟩ := (hkept j).follows
    exact (hw.step hfollows hs).1.resolve_left (hnot _ ((hi₁.trans hj).trans (Nat.le_succ j)))
  -- so every shard gets done
  obtain ⟨i₂, hi₂, hdone⟩ : ∃ i₂, i₁ ≤ i₂ ∧ ∀ j, i₂ ≤ j → ∀ k < n, Done k (x j) := by
    refine eventually_forall (fun k _ j j' hj hjj' hdone => ?_) fun k hk j hj => ?_
    · refine hruns.stays hdone (fun m hm act hd hs => ?_) hjj'
      obtain ⟨Q, hfollows⟩ := (hkept m).follows
      exact ((hwaits m (hj.trans hm)).step hfollows hs).2.1 k hd
    · obtain ⟨j', hj', hgoal⟩ := eventually_done hkept hruns hk (hworkers k hk) j
      exact ⟨j', hj', hgoal.resolve_right (not_not_intro (hwaits j' (hj.trans hj')))⟩
  -- and the producer is past the counters: it was the destructor
  obtain ⟨i₃, hi₃, hgoal⟩ := eventually_past hkept hruns hproducer i₂
  have hwaiting := hwaits i₃ (hi₂.trans hi₃)
  have hstopping := hgoal.resolve_right (not_not_intro ⟨hwaiting, hdone i₃ hi₃⟩)
  have hjoins : ∀ j, i₃ ≤ j → (x j).Joins n := fun j hj =>
    hruns.stays ⟨hwaiting.1, hstopping⟩ (fun m _ _ hm hs => (hm.step (hkept m) hs).1) hj
  obtain ⟨i₄, hi₄, hexited⟩ : ∃ i₄, i₃ ≤ i₄ ∧ ∀ j, i₄ ≤ j → ∀ k < n,
      (x j).sharding.workers k = .exited := by
    refine eventually_forall (fun k _ j j' hj hjj' hexited => ?_) fun k hk j hj => ?_
    · exact hruns.stays (P := fun c => c.sharding.workers k = .exited) hexited (fun m hm _ he hs =>
        ((hjoins m (hj.trans hm)).step (hkept m) hs).2 k he) hjj'
    · obtain ⟨j', hj', hgoal⟩ := eventually_exited hkept hruns hk (hworkers k hk) j
      exact ⟨j', hj', hgoal.resolve_right (not_not_intro (hjoins j' (hj.trans hj')))⟩
  refine hnot i₄ (((hi₁.trans hi₂).trans hi₃).trans hi₄) ⟨(hjoins i₄ hi₄).1, .inr ?_⟩
  rw [(hkept i₄).numShards]
  exact ⟨(hjoins i₄ hi₄).2, hexited i₄ le_rfl⟩

end Fair

/-- The matcher is destroyed while an order waits in its ring. -/
theorem calls_return_of_destroyed :
    ∃ (x : ℕ → ShardedThreads) (a : ℕ → Option Action), Guarded.Runs (Guarded.pausing step) x a
      ∧ (x 0).sharding.producer = .stopping 0 ∧ (x 0).sharding.workers 0 = .check
      ∧ ((x 0).rings 0).waiting.length = 1
      ∧ ∃ j, 0 ≤ j ∧ (x j).Returned := by
  have hnew : ShardedMatcher.new ⟨[⟨1⟩], true⟩ 1 2 = .ok
      { pool := Pool.new 2
        numShards := 1
        shards := fun k => { engine := ShardedMatcher.shardEngine ⟨[⟨1⟩], true⟩ 1 k } } := rfl
  have hrun : (Guarded.run step (fun _ _ => True)
      (start
        { pool := Pool.new 2
          numShards := 1
          shards := fun k => { engine := ShardedMatcher.shardEngine ⟨[⟨1⟩], true⟩ 1 k } })
      [.acquire, .write 1 { id := 7, limitPrice := 100, initialQty := 10, instrument := 1 },
        .submit 1, .proceed, .proceed, .proceed, .proceed, .proceed, .destroy]).map
      (fun c => (decide (c.sharding.producer = .stopping 0 ∧ c.sharding.workers 0 = .check
          ∧ (c.rings 0).waiting.length = 1),
        (Guarded.run step (fun _ _ => True) c
            (.proceed :: List.replicate 11 (.worker 0))).map fun c' =>
          decide (c'.pushing = none ∧ c'.sharding.producer = .stopping c'.sharding.matcher.numShards
            ∧ c'.sharding.workers 0 = .exited))) = some (true, some true) := by decide +kernel
  obtain ⟨c, hc, hfacts⟩ := Option.map_eq_some_iff.mp hrun
  obtain ⟨hbefore, hrest⟩ := Prod.mk.inj hfacts
  obtain ⟨hproducer, hworker, hlen⟩ := of_decide_eq_true hbefore
  obtain ⟨c', hc', hafter⟩ := Option.map_eq_some_iff.mp hrest
  obtain ⟨hnone, hstopping, hexited⟩ := of_decide_eq_true hafter
  obtain ⟨x, a, hruns, rfl, hend⟩ := Guarded.exists_runs_of_run hc'
  -- at the end there is nothing that anybody can do
  have hproceed : c'.step .proceed = none := by
    simp [ShardedThreads.step, hnone, Sharding.proceed, hstopping]
  have hleft : c'.step (.worker 0) = none := by
    simp [ShardedThreads.step, ShardedThreads.workerStep, Sharding.workerStep, hexited]
  refine ⟨x, a, hruns, hproducer, hworker, hlen,
    calls_return_of_fair hnew (Guarded.Reach.of_run hc) hruns (Guarded.fair_of_stuck hend ?_)
      (fun k hk => Guarded.fair_of_stuck hend ?_) 0⟩
  · rintro b rfl
    exact hproceed
  · obtain rfl : k = 0 := Nat.lt_one_iff.mp hk
    rintro b rfl
    exact hleft

end ShardedThreads

end Ordbk
