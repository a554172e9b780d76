import Ordbk.Refinement.Sharded

/-!
# Refinement/Waiting — what the counters and flags tell

`wait_idle` reads two counters of each shard in turn, and the destructor's workers look at a flag
and at their queue.  `Sharding.Timing` is what these readings are worth: how the counters lag behind
the logs, that a shard found done stays done while the producer waits, that nobody drains or leaves
before the producer has stopped sending.
-/

namespace Ordbk

namespace ProducerState

/-- In `wait_idle`, the number of shards found done. -/
def seen : ProducerState → Option ℕ
  | scan k => some k
  | scanned k _ => some k
  | _ => none

/-- In the destructor. -/
def ending : ProducerState → Bool
  | stopping _ => true
  | _ => false

end ProducerState

namespace Sharding

variable {x x' : Sharding} {q : InstrumentId → QueueBook} {pending : List Entry} {lost : List Slot}
  {k : ℕ}

/-- **What the counters tell** of the logs. -/
structure Timing (x : Sharding) (pending : List Entry) : Prop where
  /-- The counter is behind the log while the producer stands between the push and the count. -/
  submitted : ∀ k, (x.matcher.shards k).submitted + (if x.producer = .pushed k then 1 else 0)
    = UInt64.ofNat (part x.matcher.numShards k x.accepted).length
  /-- And so is the other while a worker stands between execution and count. -/
  processed : ∀ k, (x.matcher.shards k).processed + (if (x.workers k).counting then 1 else 0)
    = UInt64.ofNat (part x.matcher.numShards k (x.executed.map (·.2))).length
  /-- What `wait_idle` has found done stays done. -/
  seen : ∀ m, x.producer.seen = some m → ∀ k < m,
    part x.matcher.numShards k pending = [] ∧ (x.workers k).counting = false
  /-- The value read is still the counter's: only the producer itself raises it. -/
  loaded : ∀ k v, x.producer = .scanned k v → v = (x.matcher.shards k).submitted
  /-- Nobody is told to stop before the destructor. -/
  stopped : ∀ k, (x.matcher.shards k).stop = true → x.producer.ending = true
  /-- A worker drains only once it has seen the flag, -/
  draining : ∀ k, (x.workers k).draining = true → (x.matcher.shards k).stop = true
  /-- and leaves only once its queue is empty. -/
  exited : ∀ k, x.workers k = .exited → part x.matcher.numShards k pending = []

/-- A worker moves on, and its shard's counters with it. -/
theorem Timing.worker (h : x.Timing pending) {w : WorkerState} {s : Shard}
    {executed : List (ℕ × Entry)} {pending' : List Entry} (pool : Pool)
    (hsub : s.submitted = (x.matcher.shards k).submitted)
    (hstop : s.stop = (x.matcher.shards k).stop)
    (hproc : s.processed + (if w.counting then 1 else 0)
      = UInt64.ofNat (part x.matcher.numShards k (executed.map (·.2))).length)
    (hother : ∀ j, j ≠ k → part x.matcher.numShards j (executed.map (·.2))
      = part x.matcher.numShards j (x.executed.map (·.2)))
    (hparts : ∀ j, part x.matcher.numShards j pending = [] →
      part x.matcher.numShards j pending' = [] ∧ (j = k → w.counting = false))
    (hdrain : w.draining = true → (x.matcher.shards k).stop = true)
    (hexit : w = .exited → part x.matcher.numShards k pending' = []) :
    ({ x.withWorker k w with
        matcher := { x.matcher.setShard k s with pool }
        executed } : Sharding).Timing pending' := by
  have hsub' := x.matcher.proj_setShard (·.submitted) hsub
  have hstop' := x.matcher.proj_setShard (·.stop) hstop
  have hworker : ∀ j, Function.update x.workers k w j = if j = k then w else x.workers j :=
    fun j => Function.update_apply ..
  -- field by field: the worker's own shard by hypothesis, every other one as it was
  refine ⟨fun j => ?_, fun j => ?_, fun m hm j hj => ?_, fun j v hv => ?_, fun j hj => ?_,
    fun j hj => ?_, fun j hj => ?_⟩
  · exact (congrArg (· + _) (hsub' j)).trans (h.submitted j)
  · change (Function.update x.matcher.shards k s j).processed
      + (if (Function.update x.workers k w j).counting then 1 else 0)
        = UInt64.ofNat (part x.matcher.numShards j (executed.map (·.2))).length
    by_cases hjk : j = k
    · rw [hjk, Function.update_self, Function.update_self]
      exact hproc
    · rw [Function.update_of_ne hjk, Function.update_of_ne hjk, hother j hjk]
      exact h.processed j
  · obtain ⟨hnil, hcount⟩ := h.seen m hm j hj
    obtain ⟨hnil', hw⟩ := hparts j hnil
    refine ⟨hnil', ?_⟩
    change (Function.update x.workers k w j).counting = false
    rw [hworker]
    split_ifs with hjk
    · exact hw hjk
    · exact hcount
  · exact (h.loaded j v hv).trans (hsub' j).symm
  · exact h.stopped j ((hstop' j).symm.trans hj)
  · change (Function.update x.workers k w j).draining = true at hj
    refine (hstop' j).trans ?_
    rw [hworker] at hj
    split_ifs at hj with hjk
    · rw [hjk]
      exact hdrain hj
    · exact h.draining j hj
  · change Function.update x.workers k w j = .exited at hj
    rw [hworker] at hj
    split_ifs at hj with hjk
    · rw [hjk]
      exact hexit hj
    · exact (hparts j (h.exited j hj)).1

/-- A worker moves on, and nothing else. -/
theorem Timing.withWorker (h : x.Timing pending) {w : WorkerState}
    (hcount : (x.workers k).counting = false) (hw : w.counting = false)
    (hdrain : w.draining = true → (x.matcher.shards k).stop = true)
    (hexit : w = .exited → part x.matcher.numShards k pending = []) :
    (x.withWorker k w).Timing pending := by
  have hsame : x.withWorker k w = { x.withWorker k w with
      matcher := { x.matcher.setShard k (x.matcher.shards k) with pool := x.matcher.pool }
      executed := x.executed } := by
    simp only [ShardedMatcher.setShard, Function.update_eq_self]
    rfl
  have hproc := h.processed k
  rw [hcount] at hproc
  rw [hsame]
  exact h.worker x.matcher.pool rfl rfl (hw ▸ hproc) (fun _ _ => rfl)
    (fun j hj => ⟨hj, fun _ => hw⟩) hdrain hexit

/-- The producer goes on without touching the queues. -/
theorem Timing.producer (h : x.Timing pending) {p : ProducerState} {sm : ShardedMatcher}
    (hn : sm.numShards = x.matcher.numShards)
    (hsub : ∀ k, (sm.shards k).submitted + (if p = .pushed k then 1 else 0)
      = (x.matcher.shards k).submitted + (if x.producer = .pushed k then 1 else 0))
    (hproc : ∀ k, (sm.shards k).processed = (x.matcher.shards k).processed)
    (hseen : ∀ m, p.seen = some m → ∀ k < m,
      part x.matcher.numShards k pending = [] ∧ (x.workers k).counting = false)
    (hload : ∀ k v, p = .scanned k v → v = (sm.shards k).submitted)
    (hstopped : ∀ k, (sm.shards k).stop = true → p.ending = true)
    (hstop : ∀ k, (x.matcher.shards k).stop = true → (sm.shards k).stop = true) :
    ({ x with matcher := sm, producer := p } : Sharding).Timing pending := by
  refine ⟨fun k => ?_, fun k => ?_, ?_, hload, hstopped, fun k hk => hstop k (h.draining k hk), ?_⟩
  · change _ = UInt64.ofNat (part sm.numShards k x.accepted).length
    rw [hn]
    exact (hsub k).trans (h.submitted k)
  · change (sm.shards k).processed + _
      = UInt64.ofNat (part sm.numShards k (x.executed.map (·.2))).length
    rw [hn, hproc k]
    exact h.processed k
  · intro m hm k hk
    change part sm.numShards k pending = [] ∧ _
    rw [hn]
    exact hseen m hm k hk
  · intro k hk
    change part sm.numShards k pending = []
    rw [hn]
    exact h.exited k hk

/-! ## One step

Each step is checked against three things at once: the books and queues (`Inv`), the counters
(`Timing`) and the slots (`Keeps`). -/

/-- What a step keeps of the slots. -/
structure Keeps (x : Sharding) (act : Action) (q : InstrumentId → QueueBook) (pending : List Entry)
    (lost : List Slot) (x' : Sharding) (q' : InstrumentId → QueueBook) (pending' : List Entry)
    (lost' : List Slot) : Prop where
  /-- No slot gets lost otherwise. -/
  retains : Retains x.matcher.pool q (x.out pending lost) x'.matcher.pool q'
    (x'.out pending' lost')
  /-- A slot gets lost only with an order that neither rests nor has ended. -/
  lost : lost' = lost ∨ ∃ k a, act = .worker k
    ∧ (x.workers k).held = [(Entry.submit a (x.order a)).command]
    ∧ x.matcher.shardFor (x.order a).instrument = k ∧ (x.order a).filledQty = 0
    ∧ (submitOutcome (x.matcher.shards k).engine q a (x.order a)).order.leaks = true

/-- A step that touches no slot. -/
theorem Keeps.of_eq {act : Action} (hpool : x'.matcher.pool = x.matcher.pool)
    (hheld : x'.held = x.held) : x.Keeps act q pending lost x' q pending lost := by
  refine ⟨?_, .inl rfl⟩
  unfold out
  rw [hpool, hheld]
  exact .refl

/-- Popping from a shard's queue. -/
theorem popOr_spec (hi : x.Inv q pending lost) (ht : x.Timing pending)
    (hheld : (x.workers k).held = []) (hcount : (x.workers k).counting = false) {draining : Bool}
    {w : WorkerState} (hw : w.held = []) (hwc : w.counting = false)
    (hdrain : draining = true ∨ w.draining = true → (x.matcher.shards k).stop = true)
    {act : Action} :
    (x.popOr k draining w).Inv q pending lost ∧ (x.popOr k draining w).Timing pending
      ∧ x.Keeps act q pending lost (x.popOr k draining w) q pending lost := by
  unfold popOr
  cases hpop : (x.matcher.shards k).queue.pop with
  | none =>
    refine ⟨hi.congr rfl rfl (fun _ => rfl) (fun _ => rfl) (fun j => ?_) rfl rfl rfl,
      ht.withWorker hcount hwc (fun h => hdrain (.inr h)) fun _ => ?_, .of_eq rfl rfl⟩
    · change (Function.update x.workers k w j).held = _
      by_cases hj : j = k
      · rw [hj, Function.update_self, hw, hheld]
      · rw [Function.update_of_ne hj]
    · -- the queue is empty and the worker's hands are
      obtain ⟨l, hl, hpipe⟩ := hi.pipe k
      rw [hheld, hl.of_pop_none kQueueCapacity_pow hpop] at hpipe
      exact List.map_eq_nil_iff.mp hpipe.symm
  | some p =>
    obtain ⟨cmd, queue⟩ := p
    have hproc := ht.processed k
    rw [hcount] at hproc
    refine ⟨hi.pop hheld hpop draining, ?_, .of_eq rfl rfl⟩
    exact ht.worker x.matcher.pool rfl rfl hproc (fun _ _ => rfl)
      (fun j hj => ⟨hj, fun _ => rfl⟩) (fun h => hdrain (.inl h)) nofun

/-- A worker's step that only moves it on. -/
theorem withWorker_spec (hi : x.Inv q pending lost) (ht : x.Timing pending) {w : WorkerState}
    (hheld : (x.workers k).held = []) (hcount : (x.workers k).counting = false) (hw : w.held = [])
    (hwc : w.counting = false) (hdrain : w.draining = true → (x.matcher.shards k).stop = true)
    (hexit : w ≠ .exited) {act : Action} :
    (x.withWorker k w).Inv q pending lost ∧ (x.withWorker k w).Timing pending
      ∧ x.Keeps act q pending lost (x.withWorker k w) q pending lost := by
  refine ⟨hi.congr rfl rfl (fun _ => rfl) (fun _ => rfl) (fun j => ?_) rfl rfl rfl,
    ht.withWorker hcount hwc hdrain fun h => absurd h hexit, .of_eq rfl rfl⟩
  change (Function.update x.workers k w j).held = _
  by_cases hj : j = k
  · rw [hj, Function.update_self, hw, hheld]
  · rw [Function.update_of_ne hj]

/-- A worker counts the command it has executed. -/
theorem count_spec (hi : x.Inv q pending lost) (ht : x.Timing pending) {draining : Bool}
    (hw : x.workers k = .count draining) {act : Action} :
    let s := { x.matcher.shards k with processed := (x.matcher.shards k).processed + 1 }
    let x' := { x.withWorker k (if draining then .drain else .check) with
      matcher := x.matcher.setShard k s }
    x'.Inv q pending lost ∧ x'.Timing pending ∧ x.Keeps act q pending lost x' q pending lost := by
  have hheld : (if draining then WorkerState.drain else .check).held = [] := by
    cases draining <;> rfl
  have hcount : (if draining then WorkerState.drain else .check).counting = false := by
    cases draining <;> rfl
  refine ⟨hi.congr rfl rfl (x.matcher.proj_setShard (·.engine) rfl)
    (x.matcher.proj_setShard (·.queue) rfl) (fun j => ?_) rfl rfl rfl, ?_, .of_eq rfl rfl⟩
  · change (Function.update x.workers k _ j).held = _
    by_cases hj : j = k
    · rw [hj, Function.update_self, hheld, hw]
      rfl
    · rw [Function.update_of_ne hj]
  · have hproc := ht.processed k
    rw [hw] at hproc
    refine ht.worker x.matcher.pool rfl rfl ?_ (fun _ _ => rfl)
      (fun j hj => ⟨hj, fun _ => hcount⟩) (fun h => ht.draining k ?_) ?_
    · rw [hcount]
      exact (UInt64.add_zero _).trans hproc
    · rw [hw]
      cases draining
      · cases h
      · rfl
    · cases draining <;> nofun

/-- A worker executes the command in its hands. -/
theorem execute_spec (hi : x.Inv q pending lost) (ht : x.Timing pending) {cmd : Command}
    {draining : Bool} (hw : x.workers k = .hold cmd draining) :
    ∃ q' pending' lost', (x.afterExecute k cmd draining).Inv q' pending' lost'
      ∧ (x.afterExecute k cmd draining).Timing pending'
      ∧ x.Keeps (.worker k) q pending lost (x.afterExecute k cmd draining) q' pending' lost' := by
  obtain ⟨q', pending', lost', hinv, hex⟩ := hi.execute hw
  refine ⟨q', pending', lost', hinv, ?_, hex.retains, hex.lost.imp_right ?_⟩
  · -- the log grows by this command, which is this shard's; the counter follows a step later
    obtain ⟨-, engine, pool, -, hexec⟩ := x.matcher.execute_eq k cmd
    have hk : (cmd.entry x.matcher.pool).shard x.matcher.numShards = k := by
      have howner := hinv.owner (k, cmd.entry x.matcher.pool) (by simp)
      change k = Entry.shard (x.matcher.execute k cmd).numShards _ at howner
      rw [hexec] at howner
      exact howner.symm
    have hlog : ∀ j, part x.matcher.numShards j
        ((x.executed ++ [(k, cmd.entry x.matcher.pool)]).map (·.2))
          = part x.matcher.numShards j (x.executed.map (·.2))
            ++ if k = j then [cmd.entry x.matcher.pool] else [] := fun j => by
      rw [List.map_append, part_append, ← hk]
      exact congrArg _ (part_singleton ..)
    have hproc := ht.processed k
    rw [hw] at hproc
    unfold afterExecute
    rw [hexec]
    refine ht.worker pool rfl rfl ?_ (fun j hj => ?_) (fun j hj => ?_)
      (fun h => ht.draining k ?_) nofun
    · rw [hlog, if_pos rfl, List.length_append, UInt64.ofNat_add, ← hproc]
      change _ + 1 = _ + 0 + 1
      rw [UInt64.add_zero]
    · rw [hlog, if_neg (Ne.symm hj), List.append_nil]
    · -- a shard with nothing pending has not been executing
      obtain ⟨e, hparts⟩ := hex.parts
      rw [hparts, List.append_eq_nil_iff] at hj
      refine ⟨hj.2, fun hjk => ?_⟩
      rw [if_pos hjk] at hj
      cases hj.1
    · rw [hw]
      exact h
  · rintro ⟨a, hmem, hk, hcmd, hleaks⟩
    exact ⟨k, a, rfl, hcmd, hk, hi.fresh _ _ (hi.mem_accepted hmem), hleaks⟩

/-- **One step of a worker.** -/
theorem workerStep_spec (hi : x.Inv q pending lost) (ht : x.Timing pending)
    (hs : x.workerStep k = some x') :
    ∃ q' pending' lost', x'.Inv q' pending' lost' ∧ x'.Timing pending'
      ∧ x.Keeps (.worker k) q pending lost x' q' pending' lost' := by
  unfold workerStep at hs
  cases hw : x.workers k with
  | check =>
    simp only [hw, Option.some.injEq] at hs
    subst hs
    refine ⟨q, pending, lost, withWorker_spec hi ht (by rw [hw]; rfl) (by rw [hw]; rfl) ?_ ?_ ?_ ?_⟩
    all_goals split_ifs with hstop
    all_goals first | rfl | exact fun _ => hstop | nofun
  | poll =>
    simp only [hw, Option.some.injEq] at hs
    subst hs
    exact ⟨q, pending, lost, popOr_spec hi ht (by rw [hw]; rfl) (by rw [hw]; rfl) rfl rfl
      (by simp [WorkerState.draining])⟩
  | hold cmd draining =>
    simp only [hw, Option.some.injEq] at hs
    subst hs
    exact execute_spec hi ht hw
  | count draining =>
    simp only [hw, Option.some.injEq] at hs
    subst hs
    exact ⟨q, pending, lost, count_spec hi ht hw⟩
  | drain =>
    simp only [hw, Option.some.injEq] at hs
    subst hs
    have hstop := ht.draining k (by rw [hw]; rfl)
    exact ⟨q, pending, lost, popOr_spec hi ht (by rw [hw]; rfl) (by rw [hw]; rfl) rfl rfl
      fun _ => hstop⟩
  | exited => simp [hw] at hs

/-! ## The producer

The only thread that sends, so while it waits the queues can only get shorter. -/

/-- A worker holds one command at most. -/
theorem length_held_le (w : WorkerState) : w.held.length ≤ 1 := by
  cases w <;> simp [WorkerState.held]

/-- A shard's pending commands fit in its worker's hands and its queue. -/
theorem Inv.length_part_le (h : x.Inv q pending lost) (k : ℕ) :
    (part x.matcher.numShards k pending).length ≤ kQueueCapacity := by
  obtain ⟨l, hl, hpipe⟩ := h.pipe k
  have hlen := congrArg List.length hpipe
  rw [List.length_append, List.length_map] at hlen
  have hheld := length_held_le (x.workers k)
  have hfits := hl.fits
  omega

/-- **Equal counters mean a shard that is done**: there are far too few pending commands for the
counters to have come round. -/
theorem Timing.done (ht : x.Timing pending) (hi : x.Inv q pending lost)
    (hp : x.producer ≠ .pushed k)
    (heq : (x.matcher.shards k).submitted = (x.matcher.shards k).processed) :
    part x.matcher.numShards k pending = [] ∧ (x.workers k).counting = false := by
  have hsub := ht.submitted k
  have hproc := ht.processed k
  have hlen := hi.length_part_le k
  rw [if_neg hp, UInt64.add_zero, hi.logs k, List.length_append, UInt64.ofNat_add, ← hproc, heq,
    UInt64.add_assoc] at hsub
  -- what is pending, and what is executed and not counted, is nothing
  have hzero := (left_eq_add (M := UInt64)).mp hsub
  unfold kQueueCapacity at hlen
  cases hc : (x.workers k).counting with
  | false =>
    rw [hc] at hzero
    have hnat := congrArg UInt64.toNat hzero
    simp at hnat
    refine ⟨List.eq_nil_of_length_eq_zero ?_, rfl⟩
    omega
  | true =>
    rw [hc] at hzero
    have hnat := congrArg UInt64.toNat hzero
    simp at hnat
    omega

/-- While the producer is in no call, nobody has been told to stop. -/
theorem Timing.stop_eq_false (ht : x.Timing pending) (hp : x.producer = .idle) (k : ℕ) :
    (x.matcher.shards k).stop = false := by
  refine Bool.eq_false_iff.mpr fun h => ?_
  have hend := ht.stopped k h
  rw [hp] at hend
  cases hend

/-- A command is accepted. -/
theorem Timing.send (ht : x.Timing pending) (hp : x.producer = .idle) (e : Entry)
    (held : List Slot) : (x.afterSend e held).Timing (pending ++ [e]) := by
  have hstop : ∀ j, ((x.matcher.push e.command).1.shards j).stop = false := fun j =>
    (x.matcher.proj_push (·.stop) (fun _ _ => rfl) _ j).trans (ht.stop_eq_false hp j)
  refine ⟨fun j => ?_, fun j => ?_, nofun, nofun, fun j hj => ?_, fun j hj => ?_, fun j hj => ?_⟩
  · have hsub := ht.submitted j
    rw [hp, if_neg nofun, UInt64.add_zero] at hsub
    rw [accepted_afterSend]
    change ((x.matcher.push e.command).1.shards j).submitted
      + (if ProducerState.pushed (e.shard x.matcher.numShards) = .pushed j then 1 else 0)
        = UInt64.ofNat (part x.matcher.numShards j (x.accepted ++ [e])).length
    rw [x.matcher.proj_push (·.submitted) (fun _ _ => rfl), hsub, part_append, part_singleton,
      List.length_append, UInt64.ofNat_add]
    simp only [ProducerState.pushed.injEq]
    split_ifs <;> rfl
  · exact (congrArg (· + _) (x.matcher.proj_push (·.processed) (fun _ _ => rfl) _ j)).trans
      (ht.processed j)
  · exact absurd hj (Bool.eq_false_iff.mp (hstop j))
  · have hdrain := ht.draining j hj
    rw [ht.stop_eq_false hp] at hdrain
    cases hdrain
  · -- no worker leaves before it is told to
    have hdrain := ht.draining j (by rw [show x.workers j = .exited from hj]; rfl)
    rw [ht.stop_eq_false hp] at hdrain
    cases hdrain

/-- A call of `submit` or `cancel` whose command is accepted. -/
theorem send_spec (hi : x.Inv q pending lost) (ht : x.Timing pending) (hp : x.producer = .idle)
    {e : Entry} {held : List Slot} (hok : (x.matcher.push e.command).2 = true)
    (hheld : (held ++ e.slot.toList).Perm x.held)
    (hdata : ∀ a o, e = .submit a o → x.order a = o ∧ o.filledQty = 0) {act : Action} :
    (x.afterSend e held).Inv q (pending ++ [e]) lost ∧ (x.afterSend e held).Timing (pending ++ [e])
      ∧ x.Keeps act q pending lost (x.afterSend e held) q (pending ++ [e]) lost := by
  refine ⟨hi.send hok hheld hdata, ht.send hp e held, Retains.refl.repool_right rfl ?_, .inl rfl⟩
  intro d hd
  change d ∈ x.matcher.pool.freeSlots ++ (held ++ (pending ++ [e]).filterMap Entry.slot ++ lost)
  rw [List.filterMap_append, e.filterMap_slot]
  have hmem := hheld.mem_iff (a := d)
  simp only [List.mem_append] at hd hmem ⊢
  tauto

/-- A call that is refused. -/
theorem refuse_spec (hi : x.Inv q pending lost) (ht : x.Timing pending) {e : Entry} {act : Action} :
    let x' := { x with calls := x.calls ++ [(e, false)] }
    x'.Inv q pending lost ∧ x'.Timing pending ∧ x.Keeps act q pending lost x' q pending lost := by
  have hacc : ({ x with calls := x.calls ++ [(e, false)] } : Sharding).accepted = x.accepted := by
    simp [accepted]
  refine ⟨hi.congr rfl rfl (fun _ => rfl) (fun _ => rfl) (fun _ => rfl) rfl hacc rfl,
    ⟨fun k => ?_, ht.processed, ht.seen, ht.loaded, ht.stopped, ht.draining, ht.exited⟩,
    .of_eq rfl rfl⟩
  rw [hacc]
  exact ht.submitted k

/-- The producer moves on, and nothing else. -/
theorem producer_spec (hi : x.Inv q pending lost) (ht : x.Timing pending) (p : ProducerState)
    (hpush : ∀ k, x.producer ≠ .pushed k) (hpush' : ∀ k, p ≠ .pushed k)
    (hseen : ∀ m, p.seen = some m → ∀ k < m,
      part x.matcher.numShards k pending = [] ∧ (x.workers k).counting = false)
    (hload : ∀ k v, p = .scanned k v → v = (x.matcher.shards k).submitted)
    (hend : x.producer.ending = true → p.ending = true) {act : Action} :
    let x' := { x with producer := p }
    x'.Inv q pending lost ∧ x'.Timing pending ∧ x.Keeps act q pending lost x' q pending lost := by
  refine ⟨hi.congr rfl rfl (fun _ => rfl) (fun _ => rfl) (fun _ => rfl) rfl rfl rfl,
    ht.producer rfl (fun k => ?_) (fun _ => rfl) hseen hload (fun k hk => hend (ht.stopped k hk))
      fun _ h => h, .of_eq rfl rfl⟩
  rw [if_neg (hpush k), if_neg (hpush' k)]

/-- The producer goes on inside a call. -/
theorem proceed_spec (hi : x.Inv q pending lost) (ht : x.Timing pending)
    (hs : x.proceed = some x') :
    x'.Inv q pending lost ∧ x'.Timing pending
      ∧ x.Keeps .proceed q pending lost x' q pending lost := by
  unfold proceed at hs
  cases hp : x.producer with
  | idle => simp [hp] at hs
  | pushed k =>
    -- the push is counted: with the count the counter has caught up with the log
    simp only [hp, Option.some.injEq] at hs
    subst hs
    have hend : ∀ j, (x.matcher.shards j).stop = true → False := fun j hj => by
      have hend := ht.stopped j hj
      rw [hp] at hend
      cases hend
    refine ⟨hi.congr rfl rfl (x.matcher.proj_setShard (·.engine) rfl)
      (x.matcher.proj_setShard (·.queue) rfl) (fun _ => rfl) rfl rfl rfl, ?_, .of_eq rfl rfl⟩
    refine ht.producer rfl (fun j => ?_) (x.matcher.proj_setShard (·.processed) rfl) nofun nofun
      (fun j hj => ?_) fun j hj => (hend j hj).elim
    · change (Function.update x.matcher.shards k _ j).submitted + 0 = _
      rw [UInt64.add_zero, hp]
      by_cases hj : j = k
      · rw [hj, Function.update_self, if_pos rfl]
      · rw [Function.update_of_ne hj, if_neg, UInt64.add_zero]
        exact fun h => hj (ProducerState.pushed.inj h).symm
    · refine (hend j (Eq.trans (Eq.symm (x.matcher.proj_setShard (·.stop) ?_ j)) hj)).elim
      rfl
  | scan k =>
    simp only [hp] at hs
    have hpush : ∀ j, x.producer ≠ .pushed j := by
      rw [hp]
      nofun
    have hend : ∀ p : ProducerState, x.producer.ending = true → p.ending = true := by
      rw [hp]
      nofun
    split_ifs at hs
    · obtain rfl := Option.some.inj hs
      refine producer_spec hi ht (.scanned k _) hpush nofun (fun m hm => ?_) (fun j v hv => ?_)
        (hend _)
      · exact ht.seen m (hp ▸ hm)
      · obtain ⟨rfl, rfl⟩ := ProducerState.scanned.inj hv
        rfl
    · obtain rfl := Option.some.inj hs
      exact producer_spec hi ht .idle hpush nofun nofun nofun (hend _)
  | scanned k v =>
    -- the second of the two loads; only the worker writes to its counter, and it only lags behind
    simp only [hp] at hs
    have hpush : ∀ j, x.producer ≠ .pushed j := by
      rw [hp]
      nofun
    have hend : ∀ p : ProducerState, x.producer.ending = true → p.ending = true := by
      rw [hp]
      nofun
    split_ifs at hs with hv
    · obtain rfl := Option.some.inj hs
      refine producer_spec hi ht (.scan 0) hpush nofun (fun m hm j hj => ?_) nofun (hend _)
      obtain rfl := Option.some.inj hm
      omega
    · obtain rfl := Option.some.inj hs
      refine producer_spec hi ht (.scan (k + 1)) hpush nofun (fun m hm j hj => ?_) nofun (hend _)
      obtain rfl := Option.some.inj hm
      rcases Nat.lt_succ_iff_lt_or_eq.mp hj with hj | rfl
      · exact ht.seen k (by rw [hp]; rfl) j hj
      · -- this shard too is done, if the counters agree
        exact ht.done hi (hpush j) ((ht.loaded j v hp).symm.trans (not_not.mp hv))
  | stopping k =>
    -- a flag is set, and flags are never reset
    simp only [hp] at hs
    split_ifs at hs
    obtain rfl := Option.some.inj hs
    refine ⟨hi.congr rfl rfl (x.matcher.proj_setShard (·.engine) rfl)
      (x.matcher.proj_setShard (·.queue) rfl) (fun _ => rfl) rfl rfl rfl, ?_, .of_eq rfl rfl⟩
    refine ht.producer rfl (fun j => ?_) (x.matcher.proj_setShard (·.processed) rfl) nofun nofun
      (fun _ _ => rfl) fun j hj => ?_
    · rw [if_neg nofun, hp, if_neg nofun]
      refine congrArg (· + 0) (x.matcher.proj_setShard (·.submitted) ?_ j)
      rfl
    · change (Function.update x.matcher.shards k _ j).stop = true
      by_cases hjk : j = k
      · rw [hjk, Function.update_self]
      · rw [Function.update_of_ne hjk]
        exact hj

/-! ## Any step

Whoever takes it. -/

/-- A command that its queue accepts. -/
theorem send_of_ok {e : Entry} (hok : (x.matcher.push e.command).2 = true) :
    x.send e = x.afterSend e x.held := by
  simp only [send, hok, if_true]

/-- And one that it does not: the producer notes the refusal, and nothing else happens. -/
theorem send_of_refused {e : Entry} (hok : (x.matcher.push e.command).2 = false) :
    x.send e = { x with calls := x.calls ++ [(e, false)] } := by
  simp only [send, hok, Bool.false_eq_true, if_false]

/-- **One step of the system**, whoever takes it. -/
theorem step_spec (hi : x.Inv q pending lost) (ht : x.Timing pending) {act : Action}
    (hs : x.step act = some x') :
    ∃ q' pending' lost', x'.Inv q' pending' lost' ∧ x'.Timing pending'
      ∧ x.Keeps act q pending lost x' q' pending' lost' := by
  cases act with
  | acquire =>
    simp only [step] at hs
    split_ifs at hs
    obtain ⟨⟨a, pool⟩, hacq, rfl⟩ := Option.map_eq_some_iff.mp hs
    obtain ⟨hfree, hcap, -⟩ := Pool.acquire_eq_some hacq
    refine ⟨q, pending, lost, hi.acquire hacq, ?_, Retains.refl.repool_right hcap ?_, .inl rfl⟩
    · exact ⟨ht.submitted, ht.processed, ht.seen, ht.loaded, ht.stopped, ht.draining, ht.exited⟩
    · intro c hc
      rw [hfree] at hc
      change c ∈ pool.freeSlots ++ (a :: x.held ++ _ ++ _)
      simp only [List.mem_append, List.mem_cons] at hc ⊢
      tauto
  | write a o =>
    simp only [step] at hs
    split_ifs at hs with hok
    obtain rfl := Option.some.inj hs
    refine ⟨q, pending, lost, hi.write hok.2 o, ?_, ⟨rfl, fun _ hc => hc⟩, .inl rfl⟩
    exact ⟨ht.submitted, ht.processed, ht.seen, ht.loaded, ht.stopped, ht.draining, ht.exited⟩
  | submit a =>
    simp only [step] at hs
    by_cases hok : x.producer = .idle ∧ a ∈ x.held ∧ (x.order a).filledQty = 0
    · rw [if_pos hok] at hs
      obtain ⟨hp, ha, h0⟩ := hok
      obtain rfl := Option.some.inj hs
      cases hok : (x.matcher.push (Entry.submit a (x.order a)).command).2 with
      | true =>
        rw [send_of_ok hok, if_neg (fun h => by cases h)]
        refine ⟨q, _, lost, send_spec hi ht hp hok ?_ ?_⟩
        · exact List.perm_append_comm.trans (List.perm_cons_erase ha).symm
        · rintro b o hb
          obtain ⟨rfl, rfl⟩ := Entry.submit.inj hb
          exact ⟨rfl, h0⟩
      | false =>
        rw [send_of_refused hok, if_pos hp]
        exact ⟨q, pending, lost, refuse_spec hi ht⟩
    · rw [if_neg hok] at hs
      cases hs
  | cancel i id =>
    simp only [step] at hs
    split_ifs at hs with hp
    obtain rfl := Option.some.inj hs
    cases hok : (x.matcher.push (Entry.cancel i id).command).2 with
    | true =>
      rw [send_of_ok hok]
      exact ⟨q, _, lost, send_spec hi ht hp hok (by simp [Entry.slot])
        fun a o h => by cases h⟩
    | false =>
      rw [send_of_refused hok]
      exact ⟨q, pending, lost, refuse_spec hi ht⟩
  | waitIdle =>
    simp only [step] at hs
    split_ifs at hs with hp
    obtain rfl := Option.some.inj hs
    refine ⟨q, pending, lost, producer_spec hi ht (.scan 0) (fun k h => by cases hp.symm.trans h)
      (fun k h => by cases h) (fun m hm j hj => ?_) (fun k v h => by cases h)
      (fun h => by rw [hp] at h; cases h)⟩
    obtain rfl := Option.some.inj hm
    omega
  | destroy =>
    simp only [step] at hs
    split_ifs at hs with hp
    obtain rfl := Option.some.inj hs
    exact ⟨q, pending, lost, producer_spec hi ht (.stopping 0) (fun k h => by cases hp.symm.trans h)
      (fun k h => by cases h) (fun m h => by cases h) (fun k v h => by cases h)
      (fun h => by rw [hp] at h; cases h)⟩
  | proceed => exact ⟨q, pending, lost, proceed_spec hi ht hs⟩
  | worker k =>
    simp only [step] at hs
    split_ifs at hs
    exact workerStep_spec hi ht hs

end Sharding

end Ordbk
