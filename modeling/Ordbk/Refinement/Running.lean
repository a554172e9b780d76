import Ordbk.Refinement.Waiting

/-!
# Refinement/Running — whole runs of the sharded matcher

The invariants of `Refinement/Sharded` and `Refinement/Waiting` hold at the start and along every
run, and no step changes which engine serves which instrument.
-/

namespace Ordbk

namespace Sharding

variable {x x' : Sharding} {q : InstrumentId → QueueBook} {pending : List Entry} {lost : List Slot}
  {k : ℕ}

/-! ## What a step leaves alone

One record for every kind of step, enough to carry along what the invariants do not speak of: which
engine serves whom, who has executed what, which calls were refused. -/

/-- **The frame of a step.** -/
structure Frame (x : Sharding) (act : Action) (x' : Sharding) : Prop where
  /-- The shards stay as many, -/
  numShards : x'.matcher.numShards = x.matcher.numShards
  /-- the engines serve whom they served, -/
  engines : ∀ k, ∃ i, Engine.Touches i (x.matcher.shards k).engine (x'.matcher.shards k).engine
  /-- one worker takes a step at a time, -/
  workers : ∀ k, act ≠ .worker k → x'.workers k = x.workers k
  /-- and logs one execution at most. -/
  executed : x'.executed = x.executed
    ∨ ∃ k e, act = .worker k ∧ x'.executed = x.executed ++ [(k, e)]
  /-- A refused call is recorded, and that is all. -/
  calls : x'.calls = x.calls ∨ ∃ e, x'.calls = x.calls ++ [(e, true)]
    ∨ x' = { x with calls := x.calls ++ [(e, false)] }

/-- A step that neither executes nor calls. -/
theorem Frame.of_eq {act : Action} (hn : x'.matcher.numShards = x.matcher.numShards)
    (hengine : ∀ k, (x'.matcher.shards k).engine = (x.matcher.shards k).engine)
    (hworkers : ∀ k, act ≠ .worker k → x'.workers k = x.workers k)
    (hexec : x'.executed = x.executed) (hcalls : x'.calls = x.calls) : x.Frame act x' :=
  ⟨hn, fun k => ⟨0, hengine k ▸ .refl _ _⟩, hworkers, .inl hexec, .inl hcalls⟩

/-- No call is forgotten. -/
theorem Frame.prefix_calls {act : Action} (h : x.Frame act x') : x.calls <+: x'.calls := by
  obtain heq | ⟨e, heq | rfl⟩ := h.calls
  · rw [heq]
  · exact ⟨_, heq.symm⟩
  · exact List.prefix_append ..

/-- The others stay where they are. -/
theorem workers_withWorker (x : Sharding) (w : WorkerState) {j : ℕ}
    (hj : Action.worker k ≠ .worker j) : (x.withWorker k w).workers j = x.workers j := by
  change Function.update x.workers k w j = _
  exact Function.update_of_ne (fun h => hj (congrArg _ h.symm)) _ _

/-- A call that is accepted, -/
theorem frame_accept (x : Sharding) (e : Entry) (held : List Slot) (act : Action) :
    x.Frame act (x.afterSend e held) := by
  refine ⟨rfl, fun k => ⟨0, ?_⟩, fun _ _ => rfl, .inl rfl, .inr ⟨e, .inl rfl⟩⟩
  change Engine.Touches 0 _ ((x.matcher.push e.command).1.shards k).engine
  rw [x.matcher.proj_push (·.engine) fun _ _ => rfl]
  exact .refl _ _

/-- and one that is refused. -/
theorem frame_refuse (x : Sharding) (e : Entry) (act : Action) :
    x.Frame act { x with calls := x.calls ++ [(e, false)] } :=
  ⟨rfl, fun _ => ⟨0, .refl _ _⟩, fun _ _ => rfl, .inl rfl, .inr ⟨e, .inr rfl⟩⟩

/-- A step inside a wait. -/
theorem frame_proceed (hs : x.proceed = some x') : x.Frame .proceed x' := by
  unfold proceed at hs
  cases hp : x.producer with
  | idle => simp [hp] at hs
  | pushed k =>
    simp only [hp, Option.some.injEq] at hs
    subst hs
    exact .of_eq rfl (x.matcher.proj_setShard (·.engine) rfl) (fun _ _ => rfl) rfl rfl
  | scan k =>
    simp only [hp] at hs
    split_ifs at hs
    all_goals
      obtain rfl := Option.some.inj hs
      exact .of_eq rfl (fun _ => rfl) (fun _ _ => rfl) rfl rfl
  | scanned k v =>
    simp only [hp] at hs
    split_ifs at hs
    all_goals
      obtain rfl := Option.some.inj hs
      exact .of_eq rfl (fun _ => rfl) (fun _ _ => rfl) rfl rfl
  | stopping k =>
    simp only [hp] at hs
    split_ifs at hs
    obtain rfl := Option.some.inj hs
    exact .of_eq rfl (x.matcher.proj_setShard (·.engine) rfl) (fun _ _ => rfl) rfl rfl

/-- A pop. -/
theorem frame_popOr (x : Sharding) (k : ℕ) (draining : Bool) (w : WorkerState) :
    x.Frame (.worker k) (x.popOr k draining w) := by
  unfold popOr
  split
  · exact .of_eq rfl (fun _ => rfl) (fun _ hj => x.workers_withWorker _ hj) rfl rfl
  · exact .of_eq rfl (x.matcher.proj_setShard (·.engine) rfl)
      (fun _ hj => x.workers_withWorker _ hj) rfl rfl

/-- An execution. -/
theorem frame_execute (x : Sharding) (k : ℕ) (cmd : Command) (draining : Bool) :
    x.Frame (.worker k) (x.afterExecute k cmd draining) := by
  obtain ⟨i, engine, pool, ht, hexec⟩ := x.matcher.execute_eq k cmd
  unfold afterExecute
  rw [hexec]
  refine ⟨rfl, fun j => ⟨i, ?_⟩, fun _ hj => x.workers_withWorker _ hj, .inr ⟨k, _, rfl, rfl⟩,
    .inl rfl⟩
  change Engine.Touches i (x.matcher.shards j).engine
    (Function.update x.matcher.shards k _ j).engine
  by_cases hj : j = k
  · rw [hj, Function.update_self]
    exact ht
  · rw [Function.update_of_ne hj]
    exact .refl _ _

/-- **Any step.** -/
theorem frame_step {act : Action} (hs : x.step act = some x') : x.Frame act x' := by
  cases act with
  | acquire =>
    simp only [step] at hs
    split_ifs at hs
    obtain ⟨⟨a, pool⟩, -, rfl⟩ := Option.map_eq_some_iff.mp hs
    exact .of_eq rfl (fun _ => rfl) (fun _ _ => rfl) rfl rfl
  | write a o =>
    simp only [step] at hs
    split_ifs at hs
    obtain rfl := Option.some.inj hs
    exact .of_eq rfl (fun _ => rfl) (fun _ _ => rfl) rfl rfl
  | submit a =>
    simp only [step] at hs
    by_cases hok : x.producer = .idle ∧ a ∈ x.held ∧ (x.order a).filledQty = 0
    · rw [if_pos hok] at hs
      obtain rfl := Option.some.inj hs
      cases hpush : (x.matcher.push (Entry.submit a (x.order a)).command).2 with
      | true =>
        rw [send_of_ok hpush]
        exact x.frame_accept _ _ _
      | false =>
        rw [send_of_refused hpush, if_pos hok.1]
        exact x.frame_refuse _ _
    · rw [if_neg hok] at hs
      cases hs
  | cancel i id =>
    simp only [step] at hs
    split_ifs at hs
    obtain rfl := Option.some.inj hs
    cases hpush : (x.matcher.push (Entry.cancel i id).command).2 with
    | true =>
      rw [send_of_ok hpush]
      exact x.frame_accept _ _ _
    | false =>
      rw [send_of_refused hpush]
      exact x.frame_refuse _ _
  | waitIdle =>
    simp only [step] at hs
    split_ifs at hs
    obtain rfl := Option.some.inj hs
    exact .of_eq rfl (fun _ => rfl) (fun _ _ => rfl) rfl rfl
  | destroy =>
    simp only [step] at hs
    split_ifs at hs
    obtain rfl := Option.some.inj hs
    exact .of_eq rfl (fun _ => rfl) (fun _ _ => rfl) rfl rfl
  | proceed => exact frame_proceed hs
  | worker k =>
    simp only [step] at hs
    split_ifs at hs
    unfold workerStep at hs
    cases hw : x.workers k with
    | check =>
      simp only [hw, Option.some.injEq] at hs
      subst hs
      exact .of_eq rfl (fun _ => rfl) (fun _ hj => x.workers_withWorker _ hj) rfl rfl
    | poll =>
      simp only [hw, Option.some.injEq] at hs
      subst hs
      exact x.frame_popOr _ _ _
    | hold cmd draining =>
      simp only [hw, Option.some.injEq] at hs
      subst hs
      exact x.frame_execute k cmd draining
    | count draining =>
      simp only [hw, Option.some.injEq] at hs
      subst hs
      exact .of_eq rfl (x.matcher.proj_setShard (·.engine) rfl)
        (fun _ hj => x.workers_withWorker _ hj) rfl rfl
    | drain =>
      simp only [hw, Option.some.injEq] at hs
      subst hs
      exact x.frame_popOr _ _ _
    | exited => simp [hw] at hs

/-! ## The start

The constructor makes one engine for each shard, over the instruments its filter picks, all on one
pool. -/

variable {r : InstrumentRegistry} {n capacity : ℕ} {sm : ShardedMatcher}

/-- What the constructor makes, if it does not throw. -/
theorem new_eq (h : ShardedMatcher.new r n capacity = .ok sm) :
    0 < n ∧ r.frozen = true ∧ sm =
      { pool := Pool.new capacity
        numShards := n
        shards := fun k => { engine := ShardedMatcher.shardEngine r n k } } := by
  unfold ShardedMatcher.new at h
  split_ifs at h with hn hr
  refine ⟨Nat.pos_of_ne_zero hn, by simpa using hr, (Except.ok.inj h).symm⟩

/-- The engine of a shard is one that the engine's constructor makes. -/
theorem new_shardEngine (hr : r.frozen = true) (n k : ℕ) :
    Engine.new r (ShardedMatcher.shardFilter n k) = .ok (ShardedMatcher.shardEngine r n k) := by
  simp only [ShardedMatcher.shardEngine, Engine.new, hr, if_true]

/-- **Each engine serves the instruments of its shard.** -/
structure Serves (r : InstrumentRegistry) (n : ℕ) (x : Sharding) : Prop where
  /-- There are `n` shards, -/
  numShards : x.matcher.numShards = n
  /-- each with a book for every instrument it owns, -/
  isSome : ∀ k i, ((x.matcher.shards k).engine.matchers.lookup i).isSome
    = (ShardedMatcher.shardFilter n k i && r.all.any (·.id = i))
  /-- and a pointer to each book. -/
  ptrs : ∀ k i, (x.matcher.shards k).engine.bookPtrs.lookup i
    = if ((x.matcher.shards k).engine.matchers.lookup i).isSome then some i else none

/-- At the start, -/
theorem serves_start (h : ShardedMatcher.new r n capacity = .ok sm) : (start sm).Serves r n := by
  obtain ⟨-, hr, rfl⟩ := new_eq h
  exact ⟨rfl, fun k i => isSome_new (new_shardEngine hr n k) i,
    fun k => (built_new (new_shardEngine hr n k)).ptrs⟩

/-- and after every step. -/
theorem Serves.step (h : x.Serves r n) {act : Action} (hf : x.Frame act x') : x'.Serves r n := by
  refine ⟨hf.numShards.trans h.numShards, fun k i => ?_, fun k i => ?_⟩
  · obtain ⟨j, ht⟩ := hf.engines k
    rw [ht.isSome, h.isSome]
  · obtain ⟨j, ht⟩ := hf.engines k
    rw [ht.ptrs, ht.isSome, h.ptrs]

/-- What a caller reads is the book of the instrument. -/
theorem Serves.book_eq (h : x.Serves r n) (i : InstrumentId) :
    x.matcher.book i = x.matcher.books i :=
  Engine.book_eq (h.ptrs _ i)

/-- Every instrument has its book with its owner. -/
theorem Serves.isSome_books (h : x.Serves r n) (i : InstrumentId) :
    (x.matcher.books i).isSome = r.all.any (·.id = i) := by
  have hfilter : ShardedMatcher.shardFilter n (x.matcher.shardFor i) i = true := by
    rw [ShardedMatcher.shardFor, h.numShards]
    exact beq_self_eq_true _
  exact (h.isSome _ i).trans (by rw [hfilter, Bool.true_and])

/-- The books are empty, and all slots free. -/
theorem inv_start (h : ShardedMatcher.new r n capacity = .ok sm) :
    (start sm).Inv (fun i => ⟨i, [], [], ∅⟩) [] [] := by
  obtain ⟨-, hr, rfl⟩ := new_eq h
  -- nothing has been accepted and nothing executed
  refine ⟨custody_new fun i hb hi => ?_, fun _ => rfl, fun _ _ h => absurd h List.not_mem_nil,
    fun k => ⟨[], ?_, rfl⟩, fun _ => rfl, fun _ h => absurd h List.not_mem_nil, fun i _ => .nil,
    fun _ _ h => absurd h List.not_mem_nil⟩
  · exact ((built_new (new_shardEngine hr n _)).fresh i hb hi).1
  · exact SpscRingBuffer.holds_empty (Nat.succ_pos _)

/-- All counters are 0. -/
theorem timing_start (h : ShardedMatcher.new r n capacity = .ok sm) : (start sm).Timing [] := by
  obtain ⟨-, -, rfl⟩ := new_eq h
  refine ⟨fun _ => rfl, fun _ => rfl, nofun, nofun, nofun, nofun, nofun⟩

/-! ## Runs

The induction, once for all: later modules bring their own property `J` and show that a step keeps
it. -/

/-- **The invariant of the runs**: there is an account of the books and of what is on its way, and
any property `J` of it that the steps keep. -/
theorem exists_inv {ok : Sharding → Action → Prop}
    {J : Sharding → (InstrumentId → QueueBook) → List Entry → List Slot → Prop}
    (h : ShardedMatcher.new r n capacity = .ok sm)
    (h₀ : J (start sm) (fun i => ⟨i, [], [], ∅⟩) [] [])
    (hJ : ∀ x act x' q pending lost q' pending' lost', x.Serves r n → x.Inv q pending lost →
      J x q pending lost → ok x act → x.step act = some x' → x'.Inv q' pending' lost' →
      x.Keeps act q pending lost x' q' pending' lost' → J x' q' pending' lost')
    (hx : Guarded.Reach step ok (start sm) x) :
    x.Serves r n ∧ ∃ q pending lost, x.Inv q pending lost ∧ x.Timing pending
      ∧ J x q pending lost := by
  refine hx.invariant (I := fun x => x.Serves r n ∧ ∃ q pending lost, x.Inv q pending lost
    ∧ x.Timing pending ∧ J x q pending lost)
    ⟨serves_start h, _, [], [], inv_start h, timing_start h, h₀⟩ ?_
  rintro x act x' ⟨hserves, q, pending, lost, hi, ht, hj⟩ hok hs
  obtain ⟨q', pending', lost', hi', ht', hkeeps⟩ := step_spec hi ht hs
  exact ⟨hserves.step (frame_step hs), q', pending', lost', hi', ht',
    hJ _ _ _ _ _ _ _ _ _ hserves hi hj hok hs hi' hkeeps⟩

end Sharding

end Ordbk
