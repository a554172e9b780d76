import Ordbk.Refinement.Running
import Ordbk.Refinement.Sequential

/-!
# Theorems/Sharding — one engine or many, the books are the same

Along every run of the sharded matcher, whatever the order in which the producer and the workers
take their steps, each shard executes its accepted commands once each and in the order of the calls;
a worker that keeps taking steps gets to each of them; and when `wait_idle` returns, or the
destructor has joined the workers, the books are those of a single engine that executed the accepted
commands one after the other.
-/

namespace Ordbk

/-- Whether an action is a step of worker `k`. -/
def Action.isWorker (k : ℕ) : Action → Bool
  | .worker j => j = k
  | _ => false

namespace WorkerState

/-- How many steps a worker with something to do is from executing it. -/
def rank : WorkerState → ℕ
  | hold _ _ => 1
  | poll => 2
  | drain => 2
  | check => 3
  | count _ => 4
  | exited => 0

theorem rank_le (w : WorkerState) : w.rank ≤ 4 := by
  cases w <;> simp [rank]

end WorkerState

namespace ShardedMatcher

/-- What a reader sees of an instrument's book, if there is one. -/
def view (sm : ShardedMatcher) (i : InstrumentId) :
    Option (List (Price × List OrderData) × List (Price × List OrderData)) :=
  (sm.book i).map (·.view sm.pool)

end ShardedMatcher

namespace Sharding

/-- What worker `k` has executed, in order. -/
def executedBy (x : Sharding) (k : ℕ) : List Entry := (x.executed.filter (·.1 = k)).map (·.2)

/-- The accepted commands about the instruments of shard `k`, in the order of the calls. -/
def acceptedFor (x : Sharding) (k : ℕ) : List Entry :=
  x.accepted.filter fun e => x.matcher.shardFor e.instrument = k

/-- `wait_idle` returns, or the destructor has joined all workers. -/
def Quiet (x : Sharding) : Prop :=
  x.producer = .scan x.matcher.numShards
    ∨ x.producer = .stopping x.matcher.numShards
      ∧ ∀ k < x.matcher.numShards, x.workers k = .exited

/-- **Sharding is invisible.** -/
structure Invisible (r : InstrumentRegistry) (x : Sharding) : Prop where
  /-- Each accepted command is executed at most once, and in the order of the calls. -/
  inOrder : ∀ k, x.executedBy k <+: x.acceptedFor k
  /-- An engine has only the instruments of its shard. -/
  alone : ∀ k i, (x.matcher.shards k).engine.book i ≠ none → k = x.matcher.shardFor i
  /-- And is given only commands about them. -/
  owner : ∀ p ∈ x.executed, p.1 = x.matcher.shardFor p.2.instrument
  /-- A refused call leaves everything as it was. -/
  inert : ∀ act x' e, x.step act = some x' → x'.calls = x.calls ++ [(e, false)] →
    x' = { x with calls := x'.calls }
  /-- Given enough steps of its worker, a shard has executed all that is accepted by now. -/
  delivers : ∀ k acts x', Guarded.run step (fun _ _ => True) x acts = some x' →
    4 * ((x.acceptedFor k).length - (x.executedBy k).length) < acts.countP (·.isWorker k) →
    x.acceptedFor k <+: x'.executedBy k
  /-- At rest, everything has been executed, as one engine would have. -/
  quiet : x.Quiet → (∀ k, (x.matcher.shards k).queue.pop = none)
    ∧ (∀ k, x.executedBy k = x.acceptedFor k)
    ∧ ∃ e, Engine.new r = .ok e ∧ ∀ capacity, x.accepted.length ≤ capacity →
      ∀ i, x.matcher.view i = (Sequential.executeAll ⟨e, Pool.new capacity⟩ x.accepted).view i

variable {x x' : Sharding} {q : InstrumentId → QueueBook} {pending : List Entry} {lost : List Slot}
  {r : InstrumentRegistry} {n k : ℕ}

/-! ## The logs

The logs say what was accepted for a shard and what its worker has executed; the second is a prefix
of the first. -/

theorem Inv.executedBy_eq (h : x.Inv q pending lost) (k : ℕ) :
    x.executedBy k = part x.matcher.numShards k (x.executed.map (·.2)) := by
  unfold executedBy part
  rw [List.filter_map]
  refine congrArg _ (List.filter_congr fun p hp => ?_)
  rw [h.owner p hp]
  rfl

theorem Inv.acceptedFor_eq (h : x.Inv q pending lost) (k : ℕ) :
    x.acceptedFor k = x.executedBy k ++ part x.matcher.numShards k pending := by
  rw [h.executedBy_eq]
  exact h.logs k

theorem Inv.length_acceptedFor (h : x.Inv q pending lost) (k : ℕ) : (x.acceptedFor k).length
    = (x.executedBy k).length + (part x.matcher.numShards k pending).length := by
  rw [h.acceptedFor_eq, List.length_append]

/-- A call whose result is false. -/
theorem refused_eq {act : Action} {e : Entry} (hs : x.step act = some x')
    (hcalls : x'.calls = x.calls ++ [(e, false)]) : x' = { x with calls := x'.calls } := by
  obtain heq | ⟨e', heq | rfl⟩ := (frame_step hs).calls
  · rw [heq] at hcalls
    simp at hcalls
  · rw [heq] at hcalls
    simp at hcalls
  · rfl

/-! ## Progress

A worker that is given steps executes what is in its ring, however the others are scheduled in
between. -/

/-- A step of a worker that has something to do brings it closer, or is the execution. -/
theorem progress (hi : x.Inv q pending lost)
    (hne : part x.matcher.numShards k pending ≠ []) (hs : x.workerStep k = some x') :
    (x'.executed = x.executed ∧ (x'.workers k).rank < (x.workers k).rank)
      ∨ ∃ e, x'.executed = x.executed ++ [(k, e)] ∧ (x.workers k).rank = 1
        ∧ (x'.workers k).rank = 4 := by
  have hself : ∀ w, (Function.update x.workers k w k).rank = w.rank := fun w => by
    rw [Function.update_self]
  -- empty hands and a pending command: the queue is not empty
  have hpop : (x.workers k).held = [] → ∀ draining w, (x.popOr k draining w).executed = x.executed
      ∧ ((x.popOr k draining w).workers k).rank = 1 := by
    intro hheld draining w
    unfold popOr
    cases hq : (x.matcher.shards k).queue.pop with
    | none =>
      obtain ⟨l, hl, hpipe⟩ := hi.pipe k
      rw [hheld, hl.of_pop_none kQueueCapacity_pow hq] at hpipe
      exact absurd (List.map_eq_nil_iff.mp hpipe.symm) hne
    | some p => exact ⟨rfl, hself _⟩
  unfold workerStep at hs
  cases hw : x.workers k with
  | check =>
    simp only [hw, Option.some.injEq] at hs
    subst hs
    refine .inl ⟨rfl, ?_⟩
    change (Function.update x.workers k _ k).rank < 3
    rw [hself]
    split_ifs <;> decide
  | poll =>
    simp only [hw, Option.some.injEq] at hs
    subst hs
    obtain ⟨hexec, hrank⟩ := hpop (by rw [hw]; rfl) false .check
    exact .inl ⟨hexec, by rw [hrank]; decide⟩
  | hold cmd draining =>
    simp only [hw, Option.some.injEq] at hs
    subst hs
    exact .inr ⟨_, rfl, rfl, hself _⟩
  | count draining =>
    simp only [hw, Option.some.injEq] at hs
    subst hs
    refine .inl ⟨rfl, ?_⟩
    change (Function.update x.workers k _ k).rank < 4
    rw [hself]
    split_ifs <;> decide
  | drain =>
    simp only [hw, Option.some.injEq] at hs
    subst hs
    obtain ⟨hexec, hrank⟩ := hpop (by rw [hw]; rfl) true .exited
    exact .inl ⟨hexec, by rw [hrank]; decide⟩
  | exited => simp [hw] at hs

/-- The logs of a shard only grow, the log of executions by its own worker. -/
theorem Frame.prefix_logs {act : Action} (h : x.Frame act x') (k : ℕ) :
    x.acceptedFor k <+: x'.acceptedFor k ∧ x.executedBy k <+: x'.executedBy k
      ∧ (act.isWorker k = false → x'.executedBy k = x.executedBy k) := by
  refine ⟨?_, ?_⟩
  · unfold acceptedFor accepted ShardedMatcher.shardFor
    rw [h.numShards]
    exact ((h.prefix_calls.filter _).map _).filter _
  · unfold executedBy
    obtain heq | ⟨j, e, rfl, heq⟩ := h.executed
    · rw [heq]
      exact ⟨List.prefix_rfl, fun _ => rfl⟩
    · rw [heq, List.filter_append, List.map_append]
      refine ⟨List.prefix_append .., fun hj => ?_⟩
      have hjk : j ≠ k := of_decide_eq_false hj
      simp [hjk]

/-- How many steps of its worker a shard needs until it has executed `m` commands. -/
def stepsTo (x : Sharding) (k m : ℕ) : ℕ :=
  4 * (m - (x.executedBy k).length - 1) + (x.workers k).rank

/-- **Each step of its worker brings a shard closer**, and no other step sets it back. -/
theorem step_stepsTo (hi : x.Inv q pending lost) {act : Action} {m : ℕ}
    (hs : x.step act = some x') (hm : m ≤ (x.acceptedFor k).length)
    (hlt : (x'.executedBy k).length < m) :
    x'.stepsTo k m + (if act.isWorker k then 1 else 0) ≤ x.stepsTo k m := by
  have hf := frame_step hs
  obtain ⟨-, hpre, hsame⟩ := hf.prefix_logs k
  unfold stepsTo
  by_cases hact : act.isWorker k = true
  · obtain rfl : act = .worker k := by
      cases act <;> simp_all [Action.isWorker]
    have hne : part x.matcher.numShards k pending ≠ [] := by
      intro hnil
      have hlen := hi.length_acceptedFor k
      rw [hnil, List.length_nil] at hlen
      have hle := hpre.length_le
      omega
    simp only [step] at hs
    split_ifs at hs
    rw [if_pos hact]
    rcases progress hi hne hs with ⟨hexec, hrank⟩ | ⟨e, hexec, hrank, hrank'⟩
    · have heq : x'.executedBy k = x.executedBy k := by
        unfold executedBy
        rw [hexec]
      rw [heq]
      omega
    · have heq : (x'.executedBy k).length = (x.executedBy k).length + 1 := by
        unfold executedBy
        rw [hexec]
        simp
      rw [heq] at hlt ⊢
      rw [hrank, hrank']
      omega
  · have hne : act ≠ .worker k := by
      rintro rfl
      simp [Action.isWorker] at hact
    rw [if_neg hact, hf.workers k hne, hsame (by simpa using hact)]
    exact Nat.le_refl _

/-- The logs along a run. -/
theorem run_logs {acts : List Action}
    (hrun : Guarded.run step (fun _ _ => True) x acts = some x') (k : ℕ) :
    x.acceptedFor k <+: x'.acceptedFor k ∧ x.executedBy k <+: x'.executedBy k := by
  refine (Guarded.Reach.of_run hrun).invariant
    (I := fun y => x.acceptedFor k <+: y.acceptedFor k ∧ x.executedBy k <+: y.executedBy k)
    ⟨List.prefix_rfl, List.prefix_rfl⟩ ?_
  rintro y act y' ⟨h1, h2⟩ - hs
  obtain ⟨h1', h2', -⟩ := (frame_step hs).prefix_logs k
  exact ⟨h1.trans h1', h2.trans h2'⟩

/-- As long as a shard has not executed `m` commands, its worker's steps add up. -/
theorem run_stepsTo {acts : List Action} {m : ℕ} (hi : x.Inv q pending lost) (ht : x.Timing pending)
    (hrun : Guarded.run step (fun _ _ => True) x acts = some x')
    (hm : m ≤ (x.acceptedFor k).length) (hlt : (x'.executedBy k).length < m) :
    x'.stepsTo k m + acts.countP (·.isWorker k) ≤ x.stepsTo k m := by
  induction acts generalizing x q pending lost with
  | nil =>
    obtain rfl : x = x' := Option.some.inj hrun
    exact Nat.le_refl _
  | cons act acts ih =>
    rw [Guarded.run, if_pos trivial] at hrun
    obtain ⟨y, hs, hrun⟩ := Option.bind_eq_some_iff.mp hrun
    obtain ⟨q', pending', lost', hi', ht', -⟩ := step_spec hi ht hs
    have hm' := hm.trans ((frame_step hs).prefix_logs k).1.length_le
    have hlt' := lt_of_le_of_lt (run_logs hrun k).2.length_le hlt
    have hstep := step_stepsTo hi hs hm hlt'
    have hrest := ih hi' ht' hrun hm'
    rw [List.countP_cons]
    omega

/-- **A worker that keeps taking steps executes what its shard was given.** -/
theorem delivers {acts : List Action} (hi : x.Inv q pending lost) (ht : x.Timing pending)
    (hi' : ∃ q pending lost, x'.Inv q pending lost)
    (hrun : Guarded.run step (fun _ _ => True) x acts = some x')
    (hcount : 4 * ((x.acceptedFor k).length - (x.executedBy k).length)
      < acts.countP (·.isWorker k)) :
    x.acceptedFor k <+: x'.executedBy k := by
  obtain ⟨q', pending', lost', hi'⟩ := hi'
  obtain ⟨hacc, hexec⟩ := run_logs hrun k
  have hpre : x'.executedBy k <+: x'.acceptedFor k := ⟨_, (hi'.acceptedFor_eq k).symm⟩
  refine List.prefix_of_prefix_length_le hacc hpre (Nat.le_of_not_lt fun hlt => ?_)
  have hsteps := run_stepsTo hi ht hrun (Nat.le_refl _) hlt
  have hrank := (x.workers k).rank_le
  have hle := hexec.length_le
  unfold stepsTo at hsteps
  omega

/-! ## At rest

When nothing is pending, what the books are can be compared with a single engine that executed the
same commands in order. -/

/-- Nothing is pending when every shard of the matcher has nothing pending. -/
theorem pending_eq_nil (hn : 0 < x.matcher.numShards)
    (hparts : ∀ k < x.matcher.numShards, part x.matcher.numShards k pending = []) :
    pending = [] := by
  refine List.eq_nil_iff_forall_not_mem.mpr fun e he => ?_
  have hmem := mem_part_shard x.matcher.numShards he
  rw [hparts (e.shard _) (Nat.mod_lt _ hn)] at hmem
  simp at hmem

theorem Timing.pending_of_quiet (ht : x.Timing pending) (hn : 0 < x.matcher.numShards)
    (hq : x.Quiet) : pending = [] := by
  refine pending_eq_nil hn fun k hk => ?_
  rcases hq with hp | ⟨-, hw⟩
  · exact (ht.seen x.matcher.numShards (by rw [hp]; rfl) k hk).1
  · exact ht.exited k (hw k hk)

/-- With nothing pending the queues are empty. -/
theorem Inv.pop_eq_none (h : x.Inv q [] lost) (k : ℕ) :
    (x.matcher.shards k).queue.pop = none := by
  obtain ⟨l, hl, hpipe⟩ := h.pipe k
  obtain ⟨-, rfl⟩ := List.append_eq_nil_iff.mp hpipe
  exact hl.pop_nil

/-- **With nothing pending the books are the sequential engine's.** -/
theorem Inv.view_eq (h : x.Inv q [] lost) (hserves : x.Serves r n) {e : Engine}
    (he : Engine.new r = .ok e) {capacity : ℕ} (hcap : x.accepted.length ≤ capacity)
    (i : InstrumentId) :
    x.matcher.view i = (Sequential.executeAll ⟨e, Pool.new capacity⟩ x.accepted).view i := by
  have hstart : Sequential.Inv ⟨e, Pool.new capacity⟩ [] x.accepted.length
      (fun i => ⟨i, [], [], ∅⟩) [] :=
    ⟨engineInv_new he, fun i _ => .nil, by simpa [Pool.new] using hcap⟩
  obtain ⟨q', held', hseq⟩ := hstart.executeAll h.fresh
  have hsome := (Sequential.isSome_executeAll ⟨e, Pool.new capacity⟩ x.accepted i).trans
    ((isSome_new he i).trans (Bool.true_and _))
  unfold ShardedMatcher.view Sequential.view
  rw [hserves.book_eq, Engine.book_eq (hseq.engine.ptrs i)]
  rw [← hserves.isSome_books i] at hsome
  -- the commands about the instrument are the same, and in the same order
  have habout : about i (x.executed.map (·.2)) = about i ([] ++ x.accepted) := by
    rw [List.nil_append, ← about_part x.matcher.numShards i x.accepted, h.logs, ← about_part]
    exact congrArg _ (List.append_nil _).symm
  refine map_eq_of_isSome hsome.symm fun hbk hbk' hb hb' => ?_
  have hp := h.performs i (by rw [hb]; nofun)
  have hp' := hseq.performs i (by rw [show Engine.books _ i = _ from hb']; nofun)
  rw [habout] at hp
  exact (hseq.engine.custody.rep i hbk' hb').view_eq (h.custody.rep i hbk hb)
    (hseq.engine.custody.length_slots_le i) (h.custody.length_slots_le i) (hp'.alike hp)

/-- **Sharding is invisible**, for every registry, every number of shards and every run. -/
theorem invisible_of_reach {capacity : ℕ} {sm : ShardedMatcher}
    (h : ShardedMatcher.new r n capacity = .ok sm)
    (hx : Guarded.Reach step (fun _ _ => True) (start sm) x) : x.Invisible r := by
  have hall : ∀ y, Guarded.Reach step (fun _ _ => True) (start sm) y →
      y.Serves r n ∧ ∃ q pending lost, y.Inv q pending lost ∧ y.Timing pending := by
    intro y hy
    obtain ⟨hserves, q, pending, lost, hi, ht, -⟩ := exists_inv (J := fun _ _ _ _ => True) h
      trivial (fun _ _ _ _ _ _ _ _ _ _ _ _ _ _ _ _ => trivial) hy
    exact ⟨hserves, q, pending, lost, hi, ht⟩
  obtain ⟨hserves, q, pending, lost, hi, ht⟩ := hall x hx
  obtain ⟨hn, hr, -⟩ := new_eq h
  refine ⟨fun k => ⟨_, (hi.acceptedFor_eq k).symm⟩, fun k i hk => ?_, hi.owner,
    fun act x' e => refused_eq, fun k acts x' hrun hcount => ?_, fun hq => ?_⟩
  · rw [Engine.book_eq (hserves.ptrs k i)] at hk
    have hsome := (hserves.isSome k i).symm.trans (Option.isSome_iff_ne_none.mpr hk)
    have hfilter := (Bool.and_eq_true_iff.mp hsome).1
    rw [ShardedMatcher.shardFor, hserves.numShards]
    exact (beq_iff_eq.mp hfilter).symm
  · obtain ⟨-, q', pending', lost', hi', -⟩ := hall x' (hx.trans (Guarded.Reach.of_run hrun))
    exact delivers hi ht ⟨q', pending', lost', hi'⟩ hrun hcount
  · obtain rfl := ht.pending_of_quiet (hserves.numShards ▸ hn) hq
    have he : Engine.new r = .ok (r.all.foldl (Engine.addBook fun _ => true) {}) := by
      rw [Engine.new, if_pos hr]
    refine ⟨hi.pop_eq_none, fun k => ?_, _, he, fun capacity hcap i => hi.view_eq hserves he hcap i⟩
    rw [hi.acceptedFor_eq]
    exact (List.append_nil _).symm

/-- Two shards: a cross on instrument 1, an order and its cancel on instrument 2, the workers busy
while the producer is still between its push and its count. -/
theorem invisible_of_crossing :
    ∃ sm x, ShardedMatcher.new ⟨[⟨1⟩, ⟨2⟩], true⟩ 2 4 = .ok sm
      ∧ Guarded.Reach step (fun _ _ => True) (start sm) x
      ∧ x.Quiet ∧ x.executed.map (·.1) = [1, 1, 0, 0]
      ∧ x.matcher.view 1 = some
          ([(100, [⟨1, 100, 10, 4, 1, 0, .partiallyFilled, .buy, .limit, .gtc, 0⟩])], [])
      ∧ x.Invisible ⟨[⟨1⟩, ⟨2⟩], true⟩ := by
  have hnew : ShardedMatcher.new ⟨[⟨1⟩, ⟨2⟩], true⟩ 2 4 = .ok
      { pool := Pool.new 4
        numShards := 2
        shards := fun k => { engine := ShardedMatcher.shardEngine ⟨[⟨1⟩, ⟨2⟩], true⟩ 2 k } } := rfl
  have hrun : (Guarded.run step (fun _ _ => True)
      (start
        { pool := Pool.new 4
          numShards := 2
          shards := fun k => { engine := ShardedMatcher.shardEngine ⟨[⟨1⟩, ⟨2⟩], true⟩ 2 k } })
      [.acquire, .write 3 { id := 1, limitPrice := 100, initialQty := 10, instrument := 1 },
        .submit 3, .worker 1, .worker 1, .proceed,
        .acquire,
        .write 2 { id := 2, limitPrice := 100, initialQty := 4, instrument := 1, side := .sell },
        .submit 2, .proceed, .worker 1,
        .acquire, .write 1 { id := 3, limitPrice := 50, initialQty := 7, instrument := 2 },
        .submit 1, .proceed, .worker 1, .worker 1, .worker 1, .worker 1, .worker 1,
        .cancel 2 3, .worker 0, .worker 0, .worker 0, .proceed, .worker 0, .worker 0, .worker 0,
        .worker 0, .worker 0,
        .waitIdle, .proceed, .proceed, .proceed, .proceed]).map
      (fun x => decide (x.producer = .scan x.matcher.numShards ∧ x.executed.map (·.1) = [1, 1, 0, 0]
        ∧ x.matcher.view 1 = some
          ([(100, [⟨1, 100, 10, 4, 1, 0, .partiallyFilled, .buy, .limit, .gtc, 0⟩])], [])))
      = some true := by decide +kernel
  obtain ⟨x, hx, heq⟩ := Option.map_eq_some_iff.mp hrun
  obtain ⟨hp, hexec, hview⟩ := of_decide_eq_true heq
  have hreach := Guarded.Reach.of_run hx
  exact ⟨_, x, hnew, hreach, .inl hp, hexec, hview, invisible_of_reach hnew hreach⟩

end Sharding

end Ordbk
