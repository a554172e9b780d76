import Ordbk.Refinement.ShardedThreads
import Ordbk.Theorems.Fifo
import Ordbk.Theorems.Sharding

/-!
# Theorems/Rings — the sharded matcher does not depend on atomic queues

Whatever the interleaving of the loads and stores of the producer and the workers, inside the calls
of the queues too, the sharded matcher is in a state that it can reach with queues that push and pop
in one step (`atomic_of_reach`): no command is lost, doubled or torn, and at rest the books are
those of a single engine.
-/

namespace Ordbk

namespace ShardedThreads

/-- **As with atomic queues.** -/
structure Atomic (r : InstrumentRegistry) (sm : ShardedMatcher) (c : ShardedThreads) : Prop where
  /-- The queues hold what waits in the rings, and all else is the same. -/
  run : ∃ Q : Queues, (∀ k, (Q k).Holds (c.rings k).waiting)
    ∧ Guarded.Reach Sharding.step (fun _ _ => True) (Sharding.start sm) (c.sharding.withQueues Q)
  /-- No cell is written while it is read. -/
  apart : ∀ k value tail head, (c.rings k).producer = .writing value tail →
    (c.rings k).consumer = .reading head → tail ≠ head
  /-- At rest nothing waits, and everything accepted has been executed, as one engine would have. -/
  quiet : c.Quiet → (∀ k, (c.rings k).waiting = [])
    ∧ ∃ e, Engine.new r = .ok e ∧ ∀ capacity, c.sharding.accepted.length ≤ capacity →
      ∀ i, c.sharding.matcher.view i
        = (Sequential.executeAll ⟨e, Pool.new capacity⟩ c.sharding.accepted).view i

variable {c : ShardedThreads} {Q : Queues} {r : InstrumentRegistry} {n capacity : ℕ}
  {sm : ShardedMatcher}

/-- A reader looks at the engines and the pool. -/
theorem view_withQueues (x : Sharding) (Q : Queues) (i : InstrumentId) :
    (x.withQueues Q).matcher.view i = x.matcher.view i := rfl

theorem follows_start (h : ShardedMatcher.new r n capacity = .ok sm) :
    (start sm).Follows (fun _ => .empty) ∧ (start sm).sharding.withQueues (fun _ => .empty)
      = .start sm := by
  obtain ⟨-, -, rfl⟩ := Sharding.new_eq h
  have hpos : 0 < kQueueCapacity := Nat.succ_pos _
  exact ⟨⟨fun _ => SpscRingBuffer.holds_empty hpos,
    fun _ => SpscThreads.inv_start hpos, fun _ => rfl,
    fun _ he => (by cases he), fun _ hk => absurd rfl hk⟩, rfl⟩

theorem quiet_withQueues (h : c.Quiet) : (c.sharding.withQueues Q).Quiet := h.2

/-- **Every run with rings is a run with atomic queues**, and their invariants hold. -/
theorem exists_follows (h : ShardedMatcher.new r n capacity = .ok sm)
    (hc : Guarded.Reach step (fun _ _ => True) (start sm) c) :
    ∃ Q, Guarded.Reach Sharding.step (fun _ _ => True) (Sharding.start sm) (c.sharding.withQueues Q)
      ∧ c.Follows Q ∧ (c.sharding.withQueues Q).Serves r n
      ∧ ∃ q pending lost, (c.sharding.withQueues Q).Inv q pending lost
        ∧ (c.sharding.withQueues Q).Timing pending := by
  have hall : ∀ x, Guarded.Reach Sharding.step (fun _ _ => True) (Sharding.start sm) x →
      x.Serves r n ∧ ∃ q pending lost, x.Inv q pending lost ∧ x.Timing pending := by
    intro x hx
    obtain ⟨hserves, q, pending, lost, hi, ht, -⟩ :=
      Sharding.exists_inv (J := fun _ _ _ _ => True) h
      trivial (fun _ _ _ _ _ _ _ _ _ _ _ _ _ _ _ _ => trivial) hx
    exact ⟨hserves, q, pending, lost, hi, ht⟩
  obtain ⟨hfollows₀, hstart⟩ := follows_start h
  obtain ⟨x, hx, Q, rfl, hfollows⟩ : ∃ x, Guarded.Reach Sharding.step (fun _ _ => True)
      (Sharding.start sm) x ∧ ∃ Q, x = c.sharding.withQueues Q ∧ c.Follows Q :=
    hc.simulate (R := fun c x => ∃ Q, x = c.sharding.withQueues Q ∧ c.Follows Q)
      ⟨_, hstart.symm, hfollows₀⟩ <| by
      rintro c act c' x ⟨Q, rfl, hfollows⟩ hx - hs
      obtain ⟨-, q, pending, lost, hi, -⟩ := hall _ hx
      rcases hfollows.step hi hs with ⟨hsame, hfollows'⟩ | ⟨act', Q', hs', hfollows'⟩
      · exact ⟨_, .init, Q, by rw [hsame], hfollows'⟩
      · exact ⟨_, .step .init trivial hs', Q', rfl, hfollows'⟩
  exact ⟨Q, hx, hfollows, hall _ hx⟩

/-- **The sharded matcher over its rings is the sharded matcher**, for every registry, every number
of shards and every interleaving. -/
theorem atomic_of_reach (h : ShardedMatcher.new r n capacity = .ok sm)
    (hc : Guarded.Reach step (fun _ _ => True) (start sm) c) : c.Atomic r sm := by
  obtain ⟨Q, hx, hfollows, hserves, q, pending, lost, hi, ht⟩ := exists_follows h hc
  refine ⟨⟨Q, hfollows.queue, hx⟩, fun k _ _ _ hp hr =>
    (hfollows.ring k).writes hp hr, fun hq => ?_⟩
  obtain ⟨hn, hr, -⟩ := Sharding.new_eq h
  obtain rfl := ht.pending_of_quiet (hserves.numShards ▸ hn) (quiet_withQueues hq)
  have he : Engine.new r = .ok (r.all.foldl (Engine.addBook fun _ => true) {}) := by
    rw [Engine.new, if_pos hr]
  refine ⟨fun k => ?_, _, he, fun capacity hcap i => ?_⟩
  · have hnone := hi.pop_eq_none k
    exact (hfollows.queue k).of_pop_none Sharding.kQueueCapacity_pow hnone
  · rw [← view_withQueues c.sharding Q]
    exact hi.view_eq hserves he hcap i

/-- A worker finds its queue empty in the middle of a push, and comes back for the command. -/
theorem atomic_of_overtaken :
    ∃ sm c, ShardedMatcher.new ⟨[⟨1⟩, ⟨2⟩], true⟩ 2 4 = .ok sm
      ∧ Guarded.Reach step (fun _ _ => True) (start sm) c
      ∧ c.Quiet ∧ (c.rings 1).pops = [none, some ⟨.submit, 1, 7, some 3⟩]
      ∧ c.sharding.matcher.view 1
        = some ([(100, [⟨7, 100, 10, 0, 1, 0, .new, .buy, .limit, .gtc, 0⟩])], [])
      ∧ c.Atomic ⟨[⟨1⟩, ⟨2⟩], true⟩ sm := by
  have hnew : ShardedMatcher.new ⟨[⟨1⟩, ⟨2⟩], true⟩ 2 4 = .ok
      { pool := Pool.new 4
        numShards := 2
        shards := fun k => { engine := ShardedMatcher.shardEngine ⟨[⟨1⟩, ⟨2⟩], true⟩ 2 k } } := rfl
  have hrun : (Guarded.run step (fun _ _ => True)
      (start
        { pool := Pool.new 4
          numShards := 2
          shards := fun k => { engine := ShardedMatcher.shardEngine ⟨[⟨1⟩, ⟨2⟩], true⟩ 2 k } })
      [.acquire, .write 3 { id := 7, limitPrice := 100, initialQty := 10, instrument := 1 },
        .submit 3, .proceed, .worker 1, .worker 1, .proceed, .worker 1, .worker 1, .proceed,
        .worker 1, .worker 1, .proceed, .worker 1, .worker 1, .worker 1, .worker 1, .proceed,
        .worker 1, .worker 1, .waitIdle, .proceed, .proceed, .proceed, .proceed]).map
      (fun c => decide (c.pushing = none ∧ c.sharding.producer = .scan c.sharding.matcher.numShards
        ∧ (c.rings 1).pops = [none, some ⟨.submit, 1, 7, some 3⟩]
        ∧ c.sharding.matcher.view 1
          = some ([(100, [⟨7, 100, 10, 0, 1, 0, .new, .buy, .limit, .gtc, 0⟩])], [])))
      = some true := by decide +kernel
  obtain ⟨c, hc, heq⟩ := Option.map_eq_some_iff.mp hrun
  obtain ⟨hnone, hp, hpops, hview⟩ := of_decide_eq_true heq
  have hreach := Guarded.Reach.of_run hc
  exact ⟨_, c, hnew, hreach, ⟨hnone, .inl hp⟩, hpops, hview, atomic_of_reach hnew hreach⟩

end ShardedThreads

end Ordbk
