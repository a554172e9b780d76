import Ordbk.Refinement.Admission
import Ordbk.Refinement.Running
import Mathlib.Algebra.Order.BigOperators.Group.Finset

/-!
# Theorems/SlotLedger — where every slot is

A slot handed out comes back through `is_terminal`: whoever submits an order gives its slot back if
the order has ended.  A market or immediate-or-cancel order that trades and is then dropped is left
`PartiallyFilled`, which does not count as an end, and nobody ever gives its slot back.

`ledger_of_reach`: as long as no order meets that fate, every slot is free, at rest in one book, or
on its way, and the numbers add up — behind the gateway and among the workers.
`not_ledger_of_dropped` is one slot short.
-/

namespace Ordbk

/-! ## The ledger

Three places for a slot. Custody already says that no slot is in two of them; here none is in no
place at all. -/

/-- **Every slot has one place**: on the free stack, out of hand, or at rest in one book. -/
structure Ledger (pool : Pool) (out : List Slot) (ids : Finset InstrumentId)
    (resting : InstrumentId → List Slot) : Prop where
  /-- One of the three, and no other, -/
  place : ∀ c < pool.capacity,
    (c ∈ pool.freeSlots ∧ c ∉ out ∧ ∀ i, c ∉ resting i)
      ∨ (c ∉ pool.freeSlots ∧ c ∈ out ∧ ∀ i, c ∉ resting i)
      ∨ (c ∉ pool.freeSlots ∧ c ∉ out ∧ ∃! i, c ∈ resting i)
  /-- so that the numbers add up. -/
  balance : pool.availableApprox + out.length + ∑ i ∈ ids, (resting i).length = pool.capacity

section Ledger

variable {pool : Pool} {books : InstrumentId → Option OrderBook} {q : InstrumentId → QueueBook}
  {out : List Slot} {ids : Finset InstrumentId}

/-- **Custody of every slot adds up.** -/
theorem Custody.balance (h : Custody pool books q out)
    (hown : ∀ c < pool.capacity, Owned pool q out c) (hids : ∀ i, i ∉ ids → books i = none) :
    pool.freeSlots.length + out.length + ∑ i ∈ ids, (q i).slots.length = pool.capacity := by
  have hall : (pool.freeSlots ++ out).toFinset ∪ ids.biUnion (fun i => (q i).slots.toFinset)
      = Finset.range pool.capacity := by
    ext c
    simp only [Finset.mem_union, Finset.mem_biUnion, List.mem_toFinset, Finset.mem_range]
    constructor
    · rintro (hc | ⟨i, -, hc⟩)
      · exact h.bound 0 c (List.mem_append_left _ hc)
      · exact h.bound i c (List.mem_append_right _ hc)
    · intro hc
      refine (hown c hc).imp_right fun ⟨i, hi⟩ => ⟨i, ?_, hi⟩
      by_contra hnot
      rw [h.absent i (hids i hnot)] at hi
      simp at hi
  have hdisj : Disjoint (pool.freeSlots ++ out).toFinset
      (ids.biUnion fun i => (q i).slots.toFinset) := by
    refine Finset.disjoint_left.mpr fun c hc hc' => ?_
    obtain ⟨i, -, hi⟩ := Finset.mem_biUnion.mp hc'
    exact h.notMem_of_mem_slots (List.mem_toFinset.mp hi) (List.mem_toFinset.mp hc)
  have hcard := congrArg Finset.card hall
  rw [Finset.card_union_of_disjoint hdisj, Finset.card_biUnion fun i _ j _ hij => ?_,
    List.toFinset_card_of_nodup (h.nodup 0).of_append_left, List.length_append,
    Finset.card_range] at hcard
  · rw [← hcard]
    refine congrArg _ (Finset.sum_congr rfl fun i _ => ?_)
    exact (List.toFinset_card_of_nodup (h.wf i).nodup).symm
  · refine Finset.disjoint_left.mpr fun c hi hj => ?_
    exact h.apart i j hij (List.mem_toFinset.mp hi) (List.mem_toFinset.mp hj)

theorem Custody.ledger (h : Custody pool books q out)
    (hown : ∀ c < pool.capacity, Owned pool q out c)
    (hids : ∀ i, i ∉ ids → books i = none) {resting : InstrumentId → List Slot}
    (hrest : ∀ i, resting i = (q i).slots) : Ledger pool out ids resting := by
  refine ⟨fun c hc => ?_, ?_⟩
  · simp only [hrest]
    have hnd := (h.nodup 0).of_append_left
    rcases hown c hc with hfree | ⟨i, hi⟩
    · have hbooks : ∀ i, c ∉ (q i).slots := fun i hi => h.notMem_of_mem_slots hi hfree
      rcases List.mem_append.mp hfree with hc | hc
      · exact .inl ⟨hc, List.disjoint_of_nodup_append hnd hc, hbooks⟩
      · exact .inr (.inl ⟨fun hf => List.disjoint_of_nodup_append hnd hf hc, hc, hbooks⟩)
    · have hnot := h.notMem_of_mem_slots hi
      refine .inr (.inr ⟨fun hf => hnot (List.mem_append_left _ hf),
        fun ho => hnot (List.mem_append_right _ ho), i, hi, fun j hj => ?_⟩)
      by_contra hji
      exact h.apart j i hji hj hi
  · simp only [hrest]
    exact h.balance hown hids

end Ledger

/-- The orders at rest in an instrument's book, if there is one. -/
def Engine.resting (e : Engine) (pool : Pool) (i : InstrumentId) : List Slot :=
  match e.book i with
  | none => []
  | some hb => hb.restingSlots pool

/-- Who is rejected for want of a book has ended. -/
theorem exists_book_of_leaks {e : Engine} {q : InstrumentId → QueueBook} {a : Slot} {o : OrderData}
    (hl : (submitOutcome e q a o).order.leaks = true) :
    ∃ hb, e.matchers.lookup o.instrument = some hb
      ∧ ((q o.instrument).submit a o).order.leaks = true := by
  rcases submitOutcome_cases e q a o with ⟨-, hout⟩ | ⟨hb, hb', hout⟩
  · rw [hout] at hl
    simp [OrderData.leaks, OrderData.isTerminal, OrderData.withStatus] at hl
  · rw [hout] at hl
    exact ⟨hb, hb', hl⟩

/-! ## Behind the gateway

Between two messages nobody has a slot in hand: one that is neither free nor lost is at rest. -/

/-- The order does not trade and then lose its remainder. -/
def Dispatcher.Spares (d : Dispatcher) (s : Session) (m : NewOrderMsg) : Prop :=
  ∀ k ∈ d.meets s m, k.strands (m.order s.clientId) = false

instance (d : Dispatcher) (s : Session) (m : NewOrderMsg) : Decidable (d.Spares s m) :=
  inferInstanceAs (Decidable (∀ k ∈ d.meets s m, _))

namespace Exchange

/-- The event is the gateway's own, not the operator's. -/
def isTraffic : Event → Bool
  | .expire _ => false
  | _ => true

/-- Where the slots behind the gateway are; nobody has any in hand between two messages. -/
def Accounted (x : Exchange) : Prop :=
  Ledger x.dispatcher.pool [] x.dispatcher.engine.matchers.keys
    (x.dispatcher.engine.resting x.dispatcher.pool)

theorem Inv.resting_eq {x : Exchange} {q : InstrumentId → QueueBook} {lost : List Slot}
    (h : x.Inv q lost) (i : InstrumentId) :
    x.dispatcher.engine.resting x.dispatcher.pool i = (q i).slots := by
  unfold Engine.resting
  rw [Engine.book_eq (EngineInv.ptrs h i)]
  cases hb : x.dispatcher.engine.books i with
  | none => exact (EngineInv.custody h |>.absent i hb).symm
  | some hbk => exact EngineInv.restingSlots_eq h hb

/-- Nothing is lost with an order that is spared. -/
theorem lost_eq_nil {x x' : Exchange} {q q' : InstrumentId → QueueBook} {lost' : List Slot}
    {ev : Event} (h : x.Inv q []) (hok : isTraffic ev = true ∧ x.Entering Dispatcher.Spares ev)
    (hh : x.Happens q [] ev x' q' lost') :
    lost' = [] ∧ Retains x.dispatcher.pool q [] x'.dispatcher.pool q' lost' := by
  cases hh with
  | quiet same _ =>
    rw [same]
    exact ⟨rfl, .refl⟩
  | cancel _ _ retains _ => exact ⟨rfl, retains⟩
  | expire _ _ => cases hok.1
  | @order k m a _ pending active slot retains _ =>
    refine ⟨if_neg fun hl => ?_, retains⟩
    obtain ⟨hb, hi, hl⟩ := exists_book_of_leaks hl
    have hstrands := (EngineInv.custody h).strands_of_leaks hi rfl hl
    have hspared := hok.2.order pending _ (Dispatcher.meets_eq active slot hi)
    rw [hspared] at hstrands
    cases hstrands

theorem accounted_of_reach {r : InstrumentRegistry} {filter : InstrumentId → Bool} {e : Engine}
    {capacity : ℕ} {x : Exchange} (hnew : Engine.new r filter = .ok e)
    (hx : Guarded.Reach Exchange.step
      (fun x ev => isTraffic ev = true ∧ x.Entering Dispatcher.Spares ev) (start e capacity) x) :
    x.Accounted := by
  have hstart : ∀ c < capacity, Owned (Pool.new capacity)
      (fun i : InstrumentId => ⟨i, [], [], ∅⟩) [] c :=
        fun c hc => .inl (by simpa [Pool.new] using hc)
  obtain ⟨q, lost, hinv, rfl, hown⟩ := exists_inv
    (J := fun x q lost => lost = [] ∧ ∀ c < x.dispatcher.pool.capacity,
      Owned x.dispatcher.pool q lost c) hnew ⟨rfl, hstart⟩
    (fun x q lost ev x' q' lost' hinv hJ hok hh _ => by
      obtain ⟨rfl, hown⟩ := hJ
      obtain ⟨rfl, hret⟩ := lost_eq_nil hinv hok hh
      exact ⟨rfl, fun c hc => hret.owned c (hown c (hret.capacity ▸ hc))⟩) hx
  refine (EngineInv.custody hinv).ledger hown (fun i hi => ?_) (Inv.resting_eq hinv)
  exact Finmap.lookup_eq_none.mpr fun hmem => hi (Finmap.mem_keys.mpr hmem)

end Exchange

/-! ## Among the workers

Here slots are also on their way, in a ring or in the hands of a worker. -/

namespace Sharding

/-- The order a worker is about to execute, and the matcher it meets. -/
def meets (x : Sharding) : Action → Option (Matcher × OrderData)
  | .worker k =>
    match x.workers k with
    | .hold ⟨.submit, _, _, some a⟩ _ =>
      ((x.matcher.shards k).engine.matchers.lookup (x.order a).instrument).map fun hb =>
        (⟨hb, x.matcher.pool⟩, x.order a)
    | _ => none
  | _ => none

/-- It does not trade and then lose its remainder. -/
def Spares (x : Sharding) (act : Action) : Prop := ∀ y ∈ x.meets act, y.1.strands y.2 = false

instance (x : Sharding) (act : Action) : Decidable (x.Spares act) :=
  inferInstanceAs (Decidable (∀ y ∈ x.meets act, _))

/-- The slots of the commands accepted and not yet executed. -/
def inFlight (x : Sharding) : List Slot :=
  (x.accepted.diff (x.executed.map (·.2))).filterMap Entry.slot

/-- Where the slots of a sharded matcher are: the producer may have some in hand, and there are
those on their way. -/
def Accounted (r : InstrumentRegistry) (x : Sharding) : Prop :=
  Ledger x.matcher.pool (x.held ++ x.inFlight) (r.all.map (·.id)).toFinset
    fun i => (x.matcher.shards (x.matcher.shardFor i)).engine.resting x.matcher.pool i

variable {x x' : Sharding} {q : InstrumentId → QueueBook} {pending : List Entry} {lost : List Slot}
  {r : InstrumentRegistry} {n : ℕ}

/-- What is accepted is executed or pending. -/
theorem Inv.accepted_perm (h : x.Inv q pending lost) :
    x.accepted.Perm (x.executed.map (·.2) ++ pending) := by
  refine List.perm_iff_count.mpr fun e => ?_
  have hpart : ∀ es : List Entry,
      (part x.matcher.numShards (e.shard x.matcher.numShards) es).count e = es.count e :=
    fun es => List.count_filter (by simp)
  rw [← hpart x.accepted, h.logs, ← part_append, hpart]

theorem Inv.inFlight_perm (h : x.Inv q pending lost) :
    x.inFlight.Perm (pending.filterMap Entry.slot) := by
  refine List.Perm.filterMap _ ?_
  rw [← Multiset.coe_eq_coe, ← Multiset.coe_sub, Multiset.coe_eq_coe.mpr h.accepted_perm,
    ← Multiset.coe_add, add_tsub_cancel_left]

theorem Inv.resting_eq (h : x.Inv q pending lost) (hserves : x.Serves r n) (i : InstrumentId) :
    (x.matcher.shards (x.matcher.shardFor i)).engine.resting x.matcher.pool i = (q i).slots := by
  unfold Engine.resting
  rw [Engine.book_eq (hserves.ptrs _ i)]
  cases hb : (x.matcher.shards (x.matcher.shardFor i)).engine.books i with
  | none => exact (h.custody.absent i hb).symm
  | some hbk =>
    exact (h.custody.rep i hbk hb).restingSlots_eq (h.custody.wf i).sorted
      (h.custody.length_slots_le i)

/-- Nothing is lost with an order that is spared. -/
theorem lost_eq_nil {act : Action} {q' : InstrumentId → QueueBook} {pending' : List Entry}
    {lost' : List Slot} (h : x.Inv q pending []) (hok : x.Spares act)
    (hk : x.Keeps act q pending [] x' q' pending' lost') : lost' = [] := by
  obtain heq | ⟨k, a, rfl, hheld, rfl, h0, hl⟩ := hk.lost
  · exact heq
  · obtain ⟨hb, hi, hl⟩ := exists_book_of_leaks hl
    have hstrands := h.custody.strands_of_leaks (i := (x.order a).instrument) hi h0 hl
    have hmeets : x.meets (.worker (x.matcher.shardFor (x.order a).instrument))
        = some (⟨hb, x.matcher.pool⟩, x.order a) := by
      cases hw : x.workers (x.matcher.shardFor (x.order a).instrument) with
      | hold cmd draining =>
        rw [hw] at hheld
        obtain rfl : cmd = (Entry.submit a (x.order a)).command := by
          simpa [WorkerState.held] using hheld
        simp only [meets, hw, Entry.command, hi, Option.map_some]
      | _ => simp [hw, WorkerState.held] at hheld
    rw [hok _ hmeets] at hstrands
    cases hstrands

theorem accounted_of_reach {capacity : ℕ} {sm : ShardedMatcher}
    (h : ShardedMatcher.new r n capacity = .ok sm)
    (hx : Guarded.Reach step Spares (start sm) x) : x.Accounted r := by
  have hstart : ∀ c < (start sm).matcher.pool.capacity, Owned (start sm).matcher.pool
      (fun i : InstrumentId => ⟨i, [], [], ∅⟩) ((start sm).out [] []) c := by
    obtain ⟨-, -, rfl⟩ := new_eq h
    exact fun c hc => .inl (by simpa [start, Pool.new] using hc)
  obtain ⟨hserves, q, pending, lost, hinv, -, rfl, hown⟩ := exists_inv
    (J := fun x q pending lost => lost = [] ∧ ∀ c < x.matcher.pool.capacity,
      Owned x.matcher.pool q (x.out pending lost) c) h ⟨rfl, hstart⟩
    (fun x act x' q pending lost q' pending' lost' _ hinv hJ hok _ _ hk => by
      obtain ⟨rfl, hown⟩ := hJ
      obtain rfl := lost_eq_nil hinv hok hk
      exact ⟨rfl, fun c hc => hk.retains.owned c (hown c (hk.retains.capacity ▸ hc))⟩) hx
  have hperm : (x.held ++ x.inFlight).Perm (x.out pending []) := by
    rw [out, List.append_nil]
    exact hinv.inFlight_perm.append_left _
  refine (hinv.custody.mono hperm.subperm).ledger
    (fun c hc => (hown c hc).repool (hperm.symm.append_left _).subset) (fun i hi => ?_)
    (hinv.resting_eq hserves)
  have hsome := hserves.isSome_books i
  rw [← Option.isNone_iff_eq_none, ← Option.isSome_eq_false_iff, hsome, List.any_eq_false]
  intro spec hspec heq
  exact hi (List.mem_toFinset.mpr (List.mem_map.mpr ⟨spec, hspec, by simpa using heq⟩))

end Sharding

/-! ## Both

The same ledger for both, under the same condition on the orders. -/

/-- **No slot is lost in trading**, behind the gateway or among the workers, as long as no order
trades and then loses its remainder. -/
theorem ledger_of_reach (r : InstrumentRegistry) (capacity : ℕ) :
    (∀ (filter : InstrumentId → Bool) (e : Engine) (x : Exchange), Engine.new r filter = .ok e →
      Guarded.Reach Exchange.step
        (fun x ev => Exchange.isTraffic ev = true ∧ x.Entering Dispatcher.Spares ev)
        (Exchange.start e capacity) x → x.Accounted)
      ∧ ∀ (n : ℕ) (sm : ShardedMatcher) (x : Sharding),
        ShardedMatcher.new r n capacity = .ok sm →
        Guarded.Reach Sharding.step Sharding.Spares (Sharding.start sm) x → x.Accounted r :=
  ⟨fun _ _ _ hnew hx => Exchange.accounted_of_reach hnew hx,
    fun _ _ _ hnew hx => Sharding.accounted_of_reach hnew hx⟩

/-- A bid half eaten by a market order and another bid cancelled; and the same bids in a sharded
matcher, the second still on its way. -/
theorem ledger_of_fillsAndCancel :
    (∃ x, Guarded.Reach Exchange.step
        (fun x ev => Exchange.isTraffic ev = true ∧ x.Entering Dispatcher.Spares ev)
        (Exchange.start ([⟨1⟩].foldl (Engine.addBook fun _ => true) {}) 3) x
      ∧ x.dispatcher.pool.freeSlots = [1, 0] ∧ x.Accounted)
      ∧ ∃ x, Guarded.Reach Sharding.step Sharding.Spares
          (Sharding.start
            { pool := Pool.new 3
              numShards := 1
              shards := fun k => { engine := ShardedMatcher.shardEngine ⟨[⟨1⟩], true⟩ 1 k } }) x
        ∧ (x.matcher.pool.freeSlots, x.held, x.inFlight) = ([0], [], [1])
        ∧ x.Accounted ⟨[⟨1⟩], true⟩ := by
  constructor
  · have hrun : (Guarded.run Exchange.step
        (fun x ev => Exchange.isTraffic ev = true ∧ x.Entering Dispatcher.Spares ev)
        (Exchange.start ([⟨1⟩].foldl (Engine.addBook fun _ => true) {}) 3)
        [.bytes 0 (encode 1 (.logon ⟨42⟩)), .turn 0,
          .bytes 0 (encode 2 (.newOrder ⟨5, 1, 0, 0, 0, 100, 10⟩)), .turn 0,
          .bytes 0 (encode 3 (.newOrder ⟨6, 1, 0, 0, 0, 99, 10⟩)), .turn 0,
          .bytes 0 (encode 4 (.newOrder ⟨7, 1, 1, 1, 1, 0, 4⟩)), .turn 0,
          .bytes 0 (encode 5 (.cancelOrder ⟨6, 1⟩)), .turn 0]).map
        (fun x => x.dispatcher.pool.freeSlots) = some [1, 0] := by decide +kernel
    obtain ⟨x, hx, hfree⟩ := Option.map_eq_some_iff.mp hrun
    have hreach := Guarded.Reach.of_run hx
    exact ⟨x, hreach, hfree, (ledger_of_reach ⟨[⟨1⟩], true⟩ 3).1 _ _ x rfl hreach⟩
  · have hrun : (Guarded.run Sharding.step Sharding.Spares
        (Sharding.start
          { pool := Pool.new 3
            numShards := 1
            shards := fun k => { engine := ShardedMatcher.shardEngine ⟨[⟨1⟩], true⟩ 1 k } })
        [.acquire, .write 2 { id := 1, limitPrice := 100, initialQty := 10, instrument := 1 },
          .submit 2, .proceed, .worker 0, .worker 0, .worker 0, .worker 0,
          .acquire, .write 1 { id := 2, limitPrice := 99, initialQty := 4, instrument := 1 },
          .submit 1, .worker 0, .worker 0]).map
        (fun x => (x.matcher.pool.freeSlots, x.held, x.inFlight)) = some ([0], [], [1]) := by
      decide +kernel
    obtain ⟨x, hx, hslots⟩ := Option.map_eq_some_iff.mp hrun
    have hreach := Guarded.Reach.of_run hx
    exact ⟨x, hreach, hslots, (ledger_of_reach ⟨[⟨1⟩], true⟩ 3).2 1 _ x rfl hreach⟩

/-- An offer of 4, then an immediate-or-cancel bid for 10: it trades 4, the rest is dropped, and of
the two slots one is free and none at rest. -/
theorem not_ledger_of_dropped :
    ¬ ∀ x, Guarded.Reach Exchange.step (fun _ ev => Exchange.isTraffic ev = true)
        (Exchange.start ([⟨1⟩].foldl (Engine.addBook fun _ => true) {}) 2) x → x.Accounted := by
  intro hall
  have hrun : (Guarded.run Exchange.step (fun _ ev => Exchange.isTraffic ev = true)
      (Exchange.start ([⟨1⟩].foldl (Engine.addBook fun _ => true) {}) 2)
      [.bytes 0 (encode 1 (.logon ⟨42⟩)), .turn 0,
        .bytes 0 (encode 2 (.newOrder ⟨5, 1, 1, 0, 0, 100, 4⟩)), .turn 0,
        .bytes 0 (encode 3 (.newOrder ⟨6, 1, 0, 0, 1, 100, 10⟩)), .turn 0]).map
      (fun x => decide (x.dispatcher.pool.freeSlots = [1] ∧ x.dispatcher.pool.capacity = 2
        ∧ x.dispatcher.engine.matchers.keys = {1}
        ∧ x.dispatcher.engine.resting x.dispatcher.pool 1 = [])) = some true := by decide +kernel
  obtain ⟨x, hx, heq⟩ := Option.map_eq_some_iff.mp hrun
  obtain ⟨hfree, hcap, hkeys, hrest⟩ := of_decide_eq_true heq
  have hbalance := (hall x (Guarded.Reach.of_run hx)).balance
  rw [Pool.availableApprox, hfree, hcap, hkeys, Finset.sum_singleton, hrest] at hbalance
  cases hbalance

end Ordbk
