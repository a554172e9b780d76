import Ordbk.Matching.ShardedThreads
import Ordbk.Refinement.BoundedQueue
import Ordbk.Refinement.Running

/-!
# Refinement/ShardedThreads — the rings as atomic queues

`Follows c Q`: the queues `Q` hold what waits in the rings, and every thread is where it says it is.
Then `c.sharding` with the queues `Q` is a state of the matcher with atomic queues, and a step of
`c` is a step of it where a call of a ring returns, or none (`Follows.step`).
-/

namespace Ordbk

/-! ## The queues, put in

Where the threads have rings in the middle of a push or a pop, the matcher with atomic queues has
the queues `Q`; everything else of the two states is the same. -/

/-- An atomic queue for each shard. -/
abbrev Queues : Type := ℕ → SpscRingBuffer Command kQueueCapacity

namespace ShardedMatcher

def withQueues (sm : ShardedMatcher) (Q : Queues) : ShardedMatcher :=
  { sm with shards := fun k => { sm.shards k with queue := Q k } }

/-- A shard is replaced, its queue aside. -/
theorem withQueues_setShard (sm : ShardedMatcher) (Q : Queues) (k : ℕ) (s : Shard) :
    (sm.setShard k s).withQueues Q = (sm.withQueues Q).setShard k { s with queue := Q k } := by
  unfold setShard withQueues
  congr 1
  funext j
  by_cases hj : j = k
  · subst hj
    simp only [Function.update_self]
  · simp only [Function.update_of_ne hj]

/-- A queue is replaced. -/
theorem setShard_withQueues (sm : ShardedMatcher) (Q : Queues) (k : ℕ)
    (queue : SpscRingBuffer Command kQueueCapacity) :
    (sm.withQueues Q).setShard k { sm.shards k with queue }
      = sm.withQueues (Function.update Q k queue) := by
  unfold setShard withQueues
  congr 1
  funext j
  by_cases hj : j = k
  · subst hj
    simp only [Function.update_self]
  · simp only [Function.update_of_ne hj]

/-- A push goes to the queue of the command's shard. -/
theorem withQueues_push (sm : ShardedMatcher) (Q : Queues) (cmd : Command) :
    (sm.withQueues Q).push cmd
      = (sm.withQueues (Function.update Q (sm.shardFor cmd.instrument)
          ((Q (sm.shardFor cmd.instrument)).push cmd).1),
        ((Q (sm.shardFor cmd.instrument)).push cmd).2) :=
  Prod.ext (sm.setShard_withQueues Q _ _) rfl

/-- An engine does not look at the queues. -/
theorem withQueues_execute (sm : ShardedMatcher) (Q : Queues) (k : ℕ) (cmd : Command) :
    (sm.withQueues Q).execute k cmd = (sm.execute k cmd).withQueues Q := by
  obtain ⟨kind, i, id, order⟩ := cmd
  have hset : ∀ engine pool, ({ sm.setShard k { sm.shards k with engine } with pool } :
      ShardedMatcher).withQueues Q
        = { (sm.withQueues Q).setShard k { sm.shards k with queue := Q k, engine } with pool } := by
    intro engine pool
    have heq := congrArg (fun sm : ShardedMatcher => ({ sm with pool } : ShardedMatcher))
      (sm.withQueues_setShard Q k { sm.shards k with engine })
    exact heq
  cases kind with
  | submit =>
    cases order with
    | none => rfl
    | some a => exact (hset _ _).symm
  | cancel => exact (hset _ _).symm

end ShardedMatcher

namespace Entry

/-- The call that brings a command. -/
def action : Entry → Action
  | submit a _ => .submit a
  | cancel i id => .cancel i id

/-- What is left in the producer's hands. -/
def leaves (held : List Slot) : Entry → List Slot
  | submit a _ => held.erase a
  | cancel _ _ => held

end Entry

namespace Sharding

variable {x x' y : Sharding} {q : InstrumentId → QueueBook} {pending : List Entry}
  {lost : List Slot}
  {k : ℕ} {Q : Queues}

def withQueues (x : Sharding) (Q : Queues) : Sharding :=
  { x with matcher := x.matcher.withQueues Q }

/-! ## Steps that do not look at the queues

These are literally the same step with and without the queues put in. -/

/-- The producer inside `wait_idle` or the destructor. -/
theorem withQueues_proceed (x : Sharding) (Q : Queues) :
    (x.withQueues Q).proceed = x.proceed.map (·.withQueues Q) := by
  unfold proceed withQueues
  cases x.producer with
  | idle => rfl
  | pushed k =>
    simp only [Option.map_some, ShardedMatcher.withQueues_setShard]
    rfl
  | scan k =>
    simp only
    split_ifs <;> first | rfl | contradiction
  | scanned k v =>
    simp only
    split_ifs <;> first | rfl | contradiction
  | stopping k =>
    simp only
    split_ifs
    · simp only [Option.map_some, ShardedMatcher.withQueues_setShard]
      rfl
    · contradiction
    · contradiction
    · rfl

/-- A worker's step that is no pop. -/
theorem withQueues_workerStep (Q : Queues) (hpoll : x.workers k ≠ .poll)
    (hdrain : x.workers k ≠ .drain) :
    (x.withQueues Q).workerStep k = (x.workerStep k).map (·.withQueues Q) := by
  have hworkers : (x.withQueues Q).workers k = x.workers k := rfl
  unfold workerStep
  rw [hworkers]
  cases hw : x.workers k with
  | check => rfl
  | poll => exact absurd hw hpoll
  | hold cmd draining =>
    simp only [Option.map_some, withQueues, ShardedMatcher.withQueues_execute]
    rfl
  | count draining =>
    simp only [Option.map_some, withQueues, ShardedMatcher.withQueues_setShard]
    rfl
  | drain => exact absurd hw hdrain
  | exited => rfl

/-- The producer's steps that call no queue. -/
theorem withQueues_step (Q : Queues) {act : Action} (hsubmit : ∀ a, act ≠ .submit a)
    (hcancel : ∀ i id, act ≠ .cancel i id) (hworker : ∀ k, act ≠ .worker k) :
    (x.withQueues Q).step act = (x.step act).map (·.withQueues Q) := by
  cases act with
  | submit a => exact absurd rfl (hsubmit a)
  | cancel i id => exact absurd rfl (hcancel i id)
  | worker k => exact absurd rfl (hworker k)
  | proceed => exact x.withQueues_proceed Q
  | acquire =>
    unfold step withQueues
    simp only
    split_ifs
    · simp only [Option.map_map]
      rfl
    · rfl
  | write _ _ | waitIdle | destroy =>
    unfold step withQueues
    simp only
    split_ifs <;> rfl

/-! ## Steps that do

A push and a pop are several steps of a ring and one step of a queue; here is that one step. -/

/-- What `submit` asks of its caller. -/
def Ready (x : Sharding) (e : Entry) : Prop :=
  ∀ a o, e = .submit a o → a ∈ x.held ∧ x.order a = o ∧ o.filledQty = 0

/-- A call of `submit` or `cancel` whose push is accepted. -/
theorem step_accept {e : Entry} (hp : x.producer = .idle) (hready : x.Ready e)
    (hok : (x.matcher.push e.command).2 = true) :
    x.step e.action = some (x.afterSend e (e.leaves x.held)) := by
  cases e with
  | submit a o =>
    obtain ⟨ha, rfl, h0⟩ := hready a o rfl
    refine (if_pos ⟨hp, ha, h0⟩).trans ?_
    rw [send_of_ok hok, if_neg fun h => by cases h]
    rfl
  | cancel i id => exact (if_pos hp).trans (congrArg some (send_of_ok hok))

/-- And of one whose push is refused. -/
theorem step_refuse {e : Entry} (hp : x.producer = .idle) (hready : x.Ready e)
    (hok : (x.matcher.push e.command).2 = false) :
    x.step e.action = some { x with calls := x.calls ++ [(e, false)] } := by
  cases e with
  | submit a o =>
    obtain ⟨ha, rfl, h0⟩ := hready a o rfl
    refine (if_pos ⟨hp, ha, h0⟩).trans ?_
    rw [send_of_refused hok, if_pos hp]
  | cancel i id => exact (if_pos hp).trans (congrArg some (send_of_refused hok))

/-- **A call of `submit` or `cancel`**: its push is one of the queue of its shard. -/
theorem withQueues_action {e : Entry} {queue : SpscRingBuffer Command kQueueCapacity} {ok : Bool}
    (hp : x.producer = .idle) (hready : x.Ready e)
    (hpush : (Q (x.matcher.shardFor e.instrument)).push e.command = (queue, ok)) :
    (x.withQueues Q).step e.action = some (Sharding.withQueues
      (if ok then
        { x with
          held := e.leaves x.held
          producer := .pushed (x.matcher.shardFor e.instrument)
          calls := x.calls ++ [(e, true)] }
      else { x with calls := x.calls ++ [(e, false)] })
      (Function.update Q (x.matcher.shardFor e.instrument) queue)) := by
  have hpush' : (x.withQueues Q).matcher.push e.command
      = (x.matcher.withQueues (Function.update Q (x.matcher.shardFor e.instrument) queue), ok) := by
    have hpush' := x.matcher.withQueues_push Q e.command
    rw [e.instrument_command, hpush] at hpush'
    exact hpush'
  have hok : ((x.withQueues Q).matcher.push e.command).2 = ok := by rw [hpush']
  cases ok with
  | true =>
    rw [step_accept (x := x.withQueues Q) hp hready hok]
    unfold afterSend
    rw [hpush']
    rfl
  | false =>
    -- a refused push leaves the queue as it was
    have hsame : queue = Q (x.matcher.shardFor e.instrument) := by
      have hrefused := SpscRingBuffer.push_refused (congrArg Prod.snd hpush)
      rwa [hpush] at hrefused
    rw [step_refuse (x := x.withQueues Q) hp hready hok, hsame, Function.update_eq_self]
    rfl

/-- **A pop of a worker** is one of the queue of its shard. -/
theorem withQueues_popOr (draining : Bool) (otherwise : WorkerState) {out : Option Command}
    {queue : SpscRingBuffer Command kQueueCapacity}
    (hout : (Q k).pop.map (·.1) = out) (hqueue : ((Q k).pop.map (·.2)).getD (Q k) = queue) :
    (x.withQueues Q).popOr k draining otherwise
      = (x.withWorker k (out.elim otherwise fun cmd => .hold cmd draining)).withQueues
        (Function.update Q k queue) := by
  subst hout hqueue
  have hset := x.matcher.setShard_withQueues Q k
  have hqueue : ((x.withQueues Q).matcher.shards k).queue = Q k := rfl
  unfold popOr
  rw [hqueue]
  cases hpop : (Q k).pop with
  | none =>
    simp only [Option.map_none, Option.getD_none, Function.update_eq_self]
    rfl
  | some p =>
    obtain ⟨cmd, queue⟩ := p
    change _ = ({ x.withWorker k (.hold cmd draining) with
      matcher := x.matcher.withQueues (Function.update Q k queue) } : Sharding)
    rw [← hset]
    rfl

/-! ## What a worker leaves to the producer

A push takes several steps, and in between the workers run. They must not touch the order that is
being submitted, or its command would no longer be the caller's. -/

/-- Executing a command writes to no slot in the producer's hands. -/
theorem Inv.storage_execute (h : x.Inv q pending lost) {cmd : Command} {draining : Bool}
    (hw : x.workers k = .hold cmd draining) {a : Slot} (ha : a ∈ x.held) :
    (x.matcher.execute k cmd).pool.storage a = x.matcher.pool.storage a := by
  obtain ⟨e, l₁, l₂, rfl, -, hk, rfl, -⟩ := h.exists_next hw
  have hout : a ∈ x.out (l₁ ++ e :: l₂) lost := List.mem_append_left _ (List.mem_append_left _ ha)
  cases e with
  | cancel i id =>
    have he : (x.matcher.shards k).engine.matchers.lookup i = x.matcher.books i := by
      subst hk
      rfl
    obtain ⟨-, -, hst, -⟩ := h.custody.engineCancel he id
    exact hst a hout
  | submit b o =>
    have he : (x.matcher.shards k).engine.matchers.lookup o.instrument
        = x.matcher.books o.instrument := by
      subst hk
      rfl
    have hb : b ∈ (l₁ ++ Entry.submit b o :: l₂).filterMap Entry.slot :=
      List.mem_filterMap.mpr ⟨.submit b o, by simp, rfl⟩
    -- the slot on its way is no longer in the producer's hands
    have hne : a ≠ b := by
      rintro rfl
      have hnd := (h.custody.nodup 0).of_append_left.of_append_right.of_append_left
      exact List.disjoint_of_nodup_append hnd ha hb
    have hsound := OrderData.sound_of_fresh (h.fresh b o (h.mem_accepted (by simp)))
    obtain ⟨-, -, -, hst, -⟩ := h.custody.settle he
      (List.mem_append_left _ (List.mem_append_right _ hb)) (h.data b o (by simp)) hsound
    exact hst a hout hne

/-- **A worker leaves the producer's slots alone.** -/
theorem Inv.ready_workerStep (h : x.Inv q pending lost) (hs : x.workerStep k = some x') {e : Entry}
    (he : x.Ready e) : x'.producer = x.producer ∧ x'.Ready e := by
  -- only an execution writes to any order at all
  have hkeep : x'.producer = x.producer ∧ x'.held = x.held
      ∧ ∀ a ∈ x.held, x'.matcher.pool.storage a = x.matcher.pool.storage a := by
    unfold workerStep popOr at hs
    cases hw : x.workers k with
    | check | count _ =>
      simp only [hw, Option.some.injEq] at hs
      subst hs
      exact ⟨rfl, rfl, fun _ _ => rfl⟩
    | poll | drain =>
      simp only [hw, Option.some.injEq] at hs
      subst hs
      split <;> exact ⟨rfl, rfl, fun _ _ => rfl⟩
    | hold cmd draining =>
      simp only [hw, Option.some.injEq] at hs
      subst hs
      exact ⟨rfl, rfl, fun a ha => h.storage_execute hw ha⟩
    | exited => simp [hw] at hs
  obtain ⟨hproducer, hheld, hstorage⟩ := hkeep
  refine ⟨hproducer, fun a o ho => ?_⟩
  obtain ⟨ha, hdata, h0⟩ := he a o ho
  exact ⟨hheld ▸ ha, (Store.data_congr (hstorage a ha)).trans hdata, h0⟩

end Sharding

namespace ShardedThreads

variable {c c' : ShardedThreads} {Q : Queues} {k : ℕ}

/-- What is being pushed to shard `k`. -/
def pushingTo (c : ShardedThreads) (k : ℕ) : Option Command :=
  (c.pushing.filter (c.target · = k)).map Entry.command

/-- **The queues are what waits in the rings**, and the threads are where they say. -/
structure Follows (c : ShardedThreads) (Q : Queues) : Prop where
  /-- The queue holds what waits in the ring. -/
  queue : ∀ k, (Q k).Holds (c.rings k).waiting
  /-- Each ring is in the state its two threads say. -/
  ring : ∀ k, (c.rings k).Inv
  /-- The value in a push is the command being sent, and it goes to its shard. -/
  pushes : ∀ k, (c.rings k).producer.value = c.pushingTo k
  /-- The producer keeps its hands off an order it is submitting. -/
  ready : ∀ e, c.pushing = some e → c.sharding.producer = .idle ∧ c.sharding.Ready e
  /-- A worker in the middle of a pop is at one of the two places that pop. -/
  pops : ∀ k, (c.rings k).consumer ≠ .idle →
    c.sharding.workers k = .poll ∨ c.sharding.workers k = .drain

/-- A push that returns changes no ring, -/
theorem rings_pushReturned (c : ShardedThreads) (e : Entry) (ok : Bool) :
    (c.pushReturned e ok).rings = c.rings := by cases ok <;> rfl

/-- leaves nothing being pushed, -/
theorem pushing_pushReturned (c : ShardedThreads) (e : Entry) (ok : Bool) :
    (c.pushReturned e ok).pushing = none := by cases ok <;> rfl

/-- moves no worker, -/
theorem workers_pushReturned (c : ShardedThreads) (e : Entry) (ok : Bool) :
    (c.pushReturned e ok).sharding.workers = c.sharding.workers := by cases ok <;> rfl

/-- and tells the producer what came of it. -/
theorem sharding_pushReturned (c : ShardedThreads) (e : Entry) (ok : Bool) :
    (c.pushReturned e ok).sharding = if ok then
      { c.sharding with
        held := e.leaves c.sharding.held
        producer := .pushed (c.target e)
        calls := c.sharding.calls ++ [(e, true)] }
    else { c.sharding with calls := c.sharding.calls ++ [(e, false)] } := by
  cases ok <;> cases e <;> rfl

/-- A ring moves on, and its queue with it. -/
theorem Follows.setRing (h : c.Follows Q) (k : ℕ) (queue : SpscRingBuffer Command kQueueCapacity)
    {ring : SpscThreads Command kQueueCapacity} (hqueue : queue.Holds ring.waiting)
    (hring : ring.Inv) (j : ℕ) :
    (Function.update Q k queue j).Holds (Function.update c.rings k ring j).waiting
      ∧ (Function.update c.rings k ring j).Inv := by
  by_cases hj : j = k
  · subst hj
    rw [Function.update_self, Function.update_self]
    exact ⟨hqueue, hring⟩
  · rw [Function.update_of_ne hj, Function.update_of_ne hj]
    exact ⟨h.queue j, h.ring j⟩

/-- A step in a ring that no caller sees. -/
theorem Follows.stutter (h : c.Follows Q) {ring : SpscThreads Command kQueueCapacity}
    (hring : ring.Inv) (hwait : ring.waiting = (c.rings k).waiting)
    (hvalue : ring.producer.value = (c.rings k).producer.value)
    (hpop : ring.consumer ≠ .idle →
      c.sharding.workers k = .poll ∨ c.sharding.workers k = .drain) :
        (c.setRing k ring).Follows Q := by
  have hmove := h.setRing k (Q k) (hwait ▸ h.queue k) hring
  rw [Function.update_eq_self] at hmove
  refine ⟨fun j => (hmove j).1, fun j => (hmove j).2, fun j => ?_, h.ready, fun j hj => ?_⟩
  · change (Function.update c.rings k ring j).producer.value = c.pushingTo j
    by_cases hjk : j = k
    · rw [hjk, Function.update_self, hvalue]
      exact h.pushes k
    · rw [Function.update_of_ne hjk]
      exact h.pushes j
  · change (Function.update c.rings k ring j).consumer ≠ .idle at hj
    by_cases hjk : j = k
    · rw [hjk, Function.update_self] at hj
      rw [hjk]
      exact hpop hj
    · rw [Function.update_of_ne hjk] at hj
      exact h.pops j hj

/-- A step outside the rings. -/
theorem Follows.outside (h : c.Follows Q) {x : Sharding}
    (hn : x.matcher.numShards = c.sharding.matcher.numShards)
    (hworkers : ∀ k, (c.rings k).consumer ≠ .idle → x.workers k = c.sharding.workers k)
    (hready : ∀ e, c.pushing = some e → x.producer = .idle ∧ x.Ready e) :
    ({ c with sharding := x } : ShardedThreads).Follows Q := by
  have htarget : ∀ e, ({ c with sharding := x } : ShardedThreads).target e
      = c.target e := fun e => by
    unfold target ShardedMatcher.shardFor
    rw [hn]
  refine ⟨h.queue, h.ring, fun k => ?_, hready, fun k hk => ?_⟩
  · unfold pushingTo
    simp only [htarget]
    exact h.pushes k
  · rw [hworkers k hk]
    exact h.pops k hk

/-- **A push is called.** -/
theorem Follows.call (h : c.Follows Q) {e : Entry} (hnone : c.pushing = none)
    (hready : c.sharding.producer = .idle ∧ c.sharding.Ready e) (hs : c.call e = some c') :
    c'.sharding = c.sharding ∧ c'.Follows Q := by
  obtain ⟨ring, hring, rfl⟩ := Option.map_eq_some_iff.mp hs
  have hinv := (h.ring (c.target e)).step Sharding.kQueueCapacity_pow hring
  have hcalled : ring = { c.rings (c.target e) with producer := .called e.command } := by
    cases hp : (c.rings (c.target e)).producer with
    | idle =>
      simp only [SpscThreads.step, hp, Option.some.injEq] at hring
      exact hring.symm
    | called _ | loaded _ _ | writing _ _ | written _ _ => simp [SpscThreads.step, hp] at hring
  have hmove := h.setRing (c.target e) (Q (c.target e)) (by rw [hcalled]; exact h.queue _) hinv
  rw [Function.update_eq_self] at hmove
  refine ⟨rfl, fun j => (hmove j).1, fun j => (hmove j).2, fun j => ?_, fun e' he' => ?_,
    fun j hj => ?_⟩
  · change (Function.update c.rings (c.target e) ring j).producer.value
      = ((some e).filter (c.target · = j)).map Entry.command
    by_cases hj : j = c.target e
    · subst hj
      rw [Function.update_self, hcalled, Option.filter_some, decide_eq_true rfl]
      rfl
    · rw [Function.update_of_ne hj, h.pushes j, pushingTo, hnone, Option.filter_some,
        decide_eq_false (Ne.symm hj)]
      rfl
  · obtain rfl := Option.some.inj he'
    exact hready
  · change (Function.update c.rings (c.target e) ring j).consumer ≠ .idle at hj
    refine h.pops j ?_
    by_cases hjk : j = c.target e
    · rw [hjk, Function.update_self, hcalled] at hj
      rw [hjk]
      exact hj
    · rwa [Function.update_of_ne hjk] at hj

/-- **The producer goes on in a push**: nothing is seen of it until it returns, and then it is the
push of the queue. -/
theorem Follows.produce (h : c.Follows Q) {e : Entry} (hsome : c.pushing = some e)
    (hs : c.produce e = some c') :
    (c'.sharding = c.sharding ∧ c'.Follows Q)
      ∨ ∃ Q', (c.sharding.withQueues Q).step e.action = some (c'.sharding.withQueues Q')
        ∧ c'.Follows Q' := by
  obtain ⟨ring, hring, rfl⟩ := Option.map_eq_some_iff.mp hs
  have hinv := (h.ring (c.target e)).produce Sharding.kQueueCapacity_pow hring
  obtain ⟨hconsumer, hcases⟩ := SpscThreads.produce_cases hring
  rcases hcases with ⟨hreturned, hvalue⟩ | ⟨value, ok, hvalue, hreturned, hidle⟩
  · -- the push goes on, and what waits in the ring is the same
    refine .inl ?_
    simp only [hreturned]
    refine ⟨rfl, h.stutter hinv ?_ hvalue fun hne => h.pops _ (hconsumer ▸ hne)⟩
    rcases (h.ring (c.target e)).returned_produce Sharding.kQueueCapacity_pow hring with
      ⟨-, hwait⟩ | ⟨_, hret, -⟩
    · exact hwait
    · rw [hreturned] at hret
      cases hret
  · -- the value is the command, and the answer is the queue's
    obtain rfl : value = e.command := by
      have hpush := h.pushes (c.target e)
      rw [hvalue, pushingTo, hsome, Option.filter_some, decide_eq_true rfl] at hpush
      exact Option.some.inj hpush
    obtain ⟨hans, hholds⟩ := (h.queue (c.target e)).pushed Sharding.kQueueCapacity_pow e.command
    obtain ⟨hok, hwait⟩ : (boundedQueue (kQueueCapacity - 1) (c.rings (c.target e)).waiting
          (.push e.command)).2 = .pushed ok
        ∧ ring.waiting = (boundedQueue (kQueueCapacity - 1) (c.rings (c.target e)).waiting
          (.push e.command)).1 := by
      rcases (h.ring (c.target e)).returned_produce Sharding.kQueueCapacity_pow hring with
        ⟨hret, -⟩ | ⟨call, hret, hwait⟩
      · rw [hreturned] at hret
        cases hret
      · rw [hreturned] at hret
        obtain ⟨rfl, hok⟩ := Prod.mk.inj (List.cons.inj hret).1
        exact ⟨hok.symm, hwait⟩
    have hpush : (Q (c.target e)).push e.command = (((Q (c.target e)).push e.command).1, ok) :=
      Prod.ext rfl (QueueAnswer.pushed.inj (hans.symm.trans hok))
    obtain ⟨hproducer, hready⟩ := h.ready e hsome
    have hmove := h.setRing (c.target e) _ (by rw [hwait]; exact hholds) hinv
    -- there is one push at a time, so no other ring has one
    have hother : ∀ j, j ≠ c.target e → (c.rings j).producer.value = none := fun j hj => by
      rw [h.pushes j, pushingTo, hsome, Option.filter_some, decide_eq_false (Ne.symm hj)]
      rfl
    refine .inr ⟨Function.update Q (c.target e) ((Q (c.target e)).push e.command).1, ?_, ?_⟩
    · simp only [hreturned]
      rw [sharding_pushReturned]
      exact Sharding.withQueues_action hproducer hready hpush
    · simp only [hreturned]
      refine ⟨fun j => ?_, fun j => ?_, fun j => ?_, fun e' he' => ?_, fun j hj => ?_⟩
      · rw [rings_pushReturned]
        exact (hmove j).1
      · rw [rings_pushReturned]
        exact (hmove j).2
      · rw [rings_pushReturned, pushingTo, pushing_pushReturned]
        change (Function.update c.rings (c.target e) ring j).producer.value = none
        by_cases hj : j = c.target e
        · rw [hj, Function.update_self, hidle]
          rfl
        · rw [Function.update_of_ne hj]
          exact hother j hj
      · rw [pushing_pushReturned] at he'
        cases he'
      · rw [rings_pushReturned] at hj
        change (Function.update c.rings (c.target e) ring j).consumer ≠ .idle at hj
        rw [workers_pushReturned]
        refine h.pops j ?_
        by_cases hjk : j = c.target e
        · rw [hjk, Function.update_self, hconsumer] at hj
          rw [hjk]
          exact hj
        · rwa [Function.update_of_ne hjk] at hj

/-- A pop that returns moves its worker on. -/
theorem popReturned_eq (c : ShardedThreads) (k : ℕ) (draining : Bool) (otherwise : WorkerState)
    (out : Option Command) : c.popReturned k draining otherwise out
      = c.withWorker k (out.elim otherwise fun cmd => .hold cmd draining) := by
  cases out <;> rfl

/-- **A worker goes on in a pop**: nothing is seen of it until it returns, and then it is the pop of
the queue. -/
theorem Follows.consume (h : c.Follows Q) {draining : Bool} {otherwise : WorkerState}
    (hw : c.sharding.workers k = .poll ∨ c.sharding.workers k = .drain)
    (hs : c.consume k draining otherwise = some c') :
    (c'.sharding = c.sharding ∧ c'.Follows Q)
      ∨ ∃ Q', (c.sharding.withQueues Q).popOr k draining otherwise = c'.sharding.withQueues Q'
        ∧ c'.Follows Q' := by
  obtain ⟨ring, hring, rfl⟩ := Option.map_eq_some_iff.mp hs
  have hinv := (h.ring k).consume Sharding.kQueueCapacity_pow hring
  have hret := (h.ring k).returned_consume hring
  obtain ⟨hproducer, hcases⟩ := SpscThreads.consume_cases hring
  rcases hcases with hreturned | ⟨out, hreturned, hidle⟩
  · refine .inl ?_
    simp only [hreturned]
    refine ⟨rfl, h.stutter hinv ?_ (by rw [hproducer]) fun _ => hw⟩
    rcases hret with ⟨-, hwait⟩ | ⟨_, hret, -⟩
    · exact hwait
    · rw [hreturned] at hret
      cases hret
  · -- the answer is the queue's
    obtain ⟨hans, hholds⟩ := (h.queue k).popped Sharding.kQueueCapacity_pow
    obtain ⟨hout, hwait⟩ :
        (boundedQueue (kQueueCapacity - 1) (c.rings k).waiting .pop).2 = .popped out
          ∧ ring.waiting = (boundedQueue (kQueueCapacity - 1) (c.rings k).waiting .pop).1 := by
      rcases hret with ⟨hret, -⟩ | ⟨call, hret, hwait⟩
      · rw [hreturned] at hret
        cases hret
      · rw [hreturned] at hret
        obtain ⟨rfl, hout⟩ := Prod.mk.inj (List.cons.inj hret).1
        exact ⟨hout.symm, hwait⟩
    have hpop : (Q k).pop.map (·.1) = out := QueueAnswer.popped.inj (hans.symm.trans hout)
    have hmove := h.setRing k _ (by rw [hwait]; exact hholds) hinv
    refine .inr ⟨Function.update Q k (((Q k).pop.map (·.2)).getD (Q k)), ?_, ?_⟩
    · simp only [hreturned]
      rw [popReturned_eq]
      exact Sharding.withQueues_popOr draining otherwise hpop rfl
    · simp only [hreturned]
      rw [popReturned_eq]
      refine ⟨fun j => (hmove j).1, fun j => (hmove j).2, fun j => ?_, h.ready, fun j hj => ?_⟩
      · change (Function.update c.rings k ring j).producer.value = c.pushingTo j
        by_cases hjk : j = k
        · rw [hjk, Function.update_self, hproducer]
          exact h.pushes k
        · rw [Function.update_of_ne hjk]
          exact h.pushes j
      · change (Function.update c.rings k ring j).consumer ≠ .idle at hj
        have hjk : j ≠ k := by
          rintro rfl
          rw [Function.update_self] at hj
          exact hj hidle
        rw [Function.update_of_ne hjk] at hj
        change Function.update c.sharding.workers k _ j = _
          ∨ Function.update c.sharding.workers k _ j = _
        rw [Function.update_of_ne hjk]
        exact h.pops j hj

/-- A pop that is called, or goes on. -/
theorem Follows.pop (h : c.Follows Q) {draining : Bool} {otherwise : WorkerState}
    (hw : c.sharding.workers k = .poll ∨ c.sharding.workers k = .drain)
    (hs : c.pop k draining otherwise = some c') :
    (c'.sharding = c.sharding ∧ c'.Follows Q)
      ∨ ∃ Q', (c.sharding.withQueues Q).popOr k draining otherwise = c'.sharding.withQueues Q'
        ∧ c'.Follows Q' := by
  unfold ShardedThreads.pop at hs
  cases hc : (c.rings k).consumer with
  | idle =>
    simp only [hc] at hs
    obtain ⟨ring, hring, rfl⟩ := Option.map_eq_some_iff.mp hs
    have hcalled : ring = { c.rings k with consumer := .called } := by
      simp only [SpscThreads.step, hc, Option.some.injEq] at hring
      exact hring.symm
    have hinv := (h.ring k).step Sharding.kQueueCapacity_pow hring
    exact .inl ⟨rfl, h.stutter hinv (by rw [hcalled]; rfl) (by rw [hcalled]) fun _ => hw⟩
  | called | loaded _ | reading _ | read _ _ =>
    simp only [hc] at hs
    exact h.consume hw hs

/-! ## One step

The simulation, thread by thread: a step of the threads is one step of the matcher with atomic
queues where a call of a ring returns, and none where it does not. -/

/-- A worker's step that is no pop. -/
theorem Follows.workerStep (h : c.Follows Q) {q : InstrumentId → QueueBook} {pending : List Entry}
    {lost : List Slot} (hi : (c.sharding.withQueues Q).Inv q pending lost)
    (hk : k < c.sharding.matcher.numShards) (hpoll : c.sharding.workers k ≠ .poll)
    (hdrain : c.sharding.workers k ≠ .drain)
    (hs : (c.sharding.workerStep k).map (fun sharding => { c with sharding }) = some c') :
    (c.sharding.withQueues Q).step (.worker k) = some (c'.sharding.withQueues Q)
      ∧ c'.Follows Q := by
  obtain ⟨x, hx, rfl⟩ := Option.map_eq_some_iff.mp hs
  have hworker : (c.sharding.withQueues Q).workerStep k = some (x.withQueues Q) := by
    rw [Sharding.withQueues_workerStep Q hpoll hdrain, hx]
    rfl
  have hstep : (c.sharding.withQueues Q).step (.worker k) = some (x.withQueues Q) :=
    (if_pos hk).trans hworker
  have hframe := Sharding.frame_step hstep
  refine ⟨hstep, h.outside hframe.numShards (fun j hj => ?_) fun e he => ?_⟩
  · refine hframe.workers j fun hkj => ?_
    obtain rfl := Action.worker.inj hkj
    exact (h.pops k hj).elim hpoll hdrain
  · obtain ⟨hproducer, hready⟩ := h.ready e he
    obtain ⟨hproducer', hready'⟩ := hi.ready_workerStep hworker (e := e) hready
    exact ⟨hproducer'.trans hproducer, hready'⟩

/-- A step of the producer that calls no queue. -/
theorem Follows.producerStep (h : c.Follows Q) (hnone : c.pushing = none) {act : Action}
    (hsubmit : ∀ a, act ≠ .submit a) (hcancel : ∀ i id, act ≠ .cancel i id)
    (hworker : ∀ k, act ≠ .worker k)
    (hs : (c.sharding.step act).map (fun sharding => { c with sharding }) = some c') :
    (c.sharding.withQueues Q).step act = some (c'.sharding.withQueues Q) ∧ c'.Follows Q := by
  obtain ⟨x, hx, rfl⟩ := Option.map_eq_some_iff.mp hs
  have hstep : (c.sharding.withQueues Q).step act = some (x.withQueues Q) := by
    rw [Sharding.withQueues_step Q hsubmit hcancel hworker, hx]
    rfl
  have hframe := Sharding.frame_step hstep
  refine ⟨hstep, h.outside hframe.numShards (fun j _ => hframe.workers j (hworker j))
    fun e he => ?_⟩
  rw [hnone] at he
  cases he

/-- What a step of the threads is with atomic queues. -/
def Matched (c : ShardedThreads) (Q : Queues) (c' : ShardedThreads) : Prop :=
  (c'.sharding = c.sharding ∧ c'.Follows Q)
    ∨ ∃ act Q', (c.sharding.withQueues Q).step act = some (c'.sharding.withQueues Q')
      ∧ c'.Follows Q'

/-- **Each step of the threads** is one step, or none. -/
theorem Follows.step (h : c.Follows Q) {q : InstrumentId → QueueBook} {pending : List Entry}
    {lost : List Slot} (hi : (c.sharding.withQueues Q).Inv q pending lost) {act : Action}
    (hs : c.step act = some c') : c.Matched Q c' := by
  have hproducer : ∀ {act}, c.pushing = none → (∀ a, act ≠ .submit a) →
      (∀ i id, act ≠ .cancel i id) → (∀ k, act ≠ .worker k) →
      (c.sharding.step act).map (fun sharding => { c with sharding }) = some c' → c.Matched Q c' :=
    fun {act} hnone hsubmit hcancel hworker hs =>
      .inr ⟨act, Q, h.producerStep hnone hsubmit hcancel hworker hs⟩
  cases act with
  | acquire | write _ _ | waitIdle | destroy =>
    simp only [ShardedThreads.step] at hs
    split_ifs at hs with hnone
    exact hproducer hnone (fun _ h => by cases h) (fun _ _ h => by cases h)
      (fun _ h => by cases h) hs
  | submit a =>
    simp only [ShardedThreads.step] at hs
    split_ifs at hs with hcond
    obtain ⟨hnone, hp, ha, h0⟩ := hcond
    refine .inl (h.call hnone ⟨hp, fun b o hbo => ?_⟩ hs)
    obtain ⟨rfl, rfl⟩ := Entry.submit.inj hbo
    exact ⟨ha, rfl, h0⟩
  | cancel i id =>
    simp only [ShardedThreads.step] at hs
    split_ifs at hs with hcond
    exact .inl (h.call hcond.1 ⟨hcond.2, fun _ _ h => by cases h⟩ hs)
  | proceed =>
    simp only [ShardedThreads.step] at hs
    cases hsome : c.pushing with
    | none =>
      have hs' : (c.sharding.step .proceed).map (fun sharding => { c with sharding })
          = some c' := by
        change c.sharding.proceed.map _ = _
        simpa only [hsome] using hs
      exact hproducer hsome (fun _ h => by cases h) (fun _ _ h => by cases h)
        (fun _ h => by cases h) hs'
    | some e =>
      simp only [hsome] at hs
      refine (h.produce hsome hs).imp_right ?_
      rintro ⟨Q', hstep, hfollows⟩
      exact ⟨_, Q', hstep, hfollows⟩
  | worker k =>
    simp only [ShardedThreads.step] at hs
    split_ifs at hs with hk
    have hpop : ∀ {draining otherwise}, c.sharding.workers k = .poll
      ∨ c.sharding.workers k = .drain →
        (c.sharding.withQueues Q).workerStep k
          = some ((c.sharding.withQueues Q).popOr k draining otherwise) →
        c.pop k draining otherwise = some c' → c.Matched Q c' := by
      intro draining otherwise hw hworker hs
      refine (h.pop hw hs).imp_right ?_
      rintro ⟨Q', hpop, hfollows⟩
      exact ⟨.worker k, Q', (if_pos hk).trans (hworker.trans (congrArg some hpop)), hfollows⟩
    have hworkers : (c.sharding.withQueues Q).workers k = c.sharding.workers k := rfl
    unfold ShardedThreads.workerStep at hs
    cases hw : c.sharding.workers k with
    | poll =>
      simp only [hw] at hs
      exact hpop (.inl hw) (by simp only [Sharding.workerStep, hworkers, hw]) hs
    | drain =>
      simp only [hw] at hs
      exact hpop (.inr hw) (by simp only [Sharding.workerStep, hworkers, hw]) hs
    | check | hold _ _ | count _ | exited =>
      simp only [hw] at hs
      exact .inr ⟨_, Q, h.workerStep hi hk (by rw [hw]; exact fun h => by cases h)
        (by rw [hw]; exact fun h => by cases h) hs⟩

end ShardedThreads

end Ordbk
