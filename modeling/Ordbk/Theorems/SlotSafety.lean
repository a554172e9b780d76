import Ordbk.Refinement.Gateway

/-!
# Theorems/SlotSafety — no slot is released twice or used after its release

`Pool::release` checks nothing.  That the free stack stays a set, and that nothing on it is still
reachable from a book, is a property of who calls it when: `match` on a maker it has just taken out
of its level, `cancel` on the order it has just unlinked, `cancel_all` on the orders it visits, and
the dispatcher on a taker that has ended and does not rest.
-/

namespace Ordbk

/-- The orders of the level a locator names. -/
def OrderBook.namedLevel (b : OrderBook) (pool : Pool) (loc : Locator) : List Slot :=
  if loc.side = .buy then
    ((b.bids.find? loc.price).getD {}).slots pool.storage (pool.capacity + 1)
  else ((b.asks.find? loc.price).getD {}).slots pool.storage (pool.capacity + 1)

namespace Dispatcher

variable {d : Dispatcher} {q : InstrumentId → QueueBook} {lost : List Slot} {i : InstrumentId}
  {hb : OrderBook}

/-- **The free stack is a set of slots nobody uses.** -/
structure SlotSafe (d : Dispatcher) : Prop where
  /-- No slot is free twice. -/
  distinct : d.pool.freeSlots.Nodup
  /-- Each is a slot of the pool. -/
  inRange : ∀ a ∈ d.pool.freeSlots, a < d.pool.capacity
  /-- `stack_top_ ≤ capacity`. -/
  stackTop : d.pool.availableApprox ≤ d.pool.capacity
  /-- Nobody at rest has a slot that is free, -/
  levels : ∀ i hb, d.engine.matchers.lookup i = some hb →
    ∀ a ∈ hb.restingSlots d.pool, a ∉ d.pool.freeSlots
  /-- and no locator leads to one. -/
  locators : ∀ i hb, d.engine.matchers.lookup i = some hb →
    ∀ id loc, hb.orderMap.lookup id = some loc → loc.order ∉ d.pool.freeSlots
  /-- A slot handed out is at rest nowhere. -/
  acquired : ∀ a pool, d.pool.acquire = some (a, pool) →
    ∀ i hb, d.engine.matchers.lookup i = some hb → a ∉ hb.restingSlots d.pool
  /-- A locator leads to an order of the level it names. -/
  located : ∀ i hb, d.engine.matchers.lookup i = some hb →
    ∀ id loc, hb.orderMap.lookup id = some loc → loc.order ∈ hb.namedLevel d.pool loc

/-- The level a locator names holds the order it points to. -/
theorem mem_namedLevel (h : d.Inv q lost) (hi : d.engine.matchers.lookup i = some hb) {id : OrderId}
    {loc : Locator} (hl : hb.orderMap.lookup id = some loc) :
    loc.order ∈ (q i).slots ∧ loc.order ∈ hb.namedLevel d.pool loc := by
  have hrep := h.custody.rep i hb hi
  have hlen := h.custody.length_slots_le i
  rw [hrep.index] at hl
  obtain ⟨e, he, hslot, -, hprice⟩ := (h.custody.wf i).located id loc hl
  refine ⟨QueueBook.mem_slots.mpr ⟨_, e, he, hslot⟩, ?_⟩
  have hsplit : (q i).slots.length = (q i).bids.length + (q i).asks.length := by
    simp [QueueBook.slots, QueueBook.resting]
  unfold OrderBook.namedLevel
  unfold QueueBook.side at he
  split_ifs at he ⊢
  · rw [hrep.bids.slots_getD (by omega)]
    exact List.mem_map.mpr ⟨e, mem_queueAt.mpr ⟨he, hprice⟩, hslot⟩
  · rw [hrep.asks.slots_getD (by omega)]
    exact List.mem_map.mpr ⟨e, mem_queueAt.mpr ⟨he, hprice⟩, hslot⟩

theorem slotSafe_of_inv (h : d.Inv q lost) : d.SlotSafe := by
  have hfree : ∀ a ∈ d.pool.freeSlots, ∀ i, a ∉ (q i).slots := fun a ha i hmem =>
    h.custody.notMem_of_mem_slots hmem (List.mem_append_left _ ha)
  have hnd : d.pool.freeSlots.Nodup := ((h.custody.nodup 0).of_append_left).of_append_left
  have hrange : ∀ a ∈ d.pool.freeSlots, a < d.pool.capacity := fun a ha =>
    h.custody.bound 0 a (List.mem_append_left _ (List.mem_append_left _ ha))
  refine ⟨hnd, hrange, ?_, fun i hb hi a ha hfr => ?_, fun i hb hi id loc hl hfr => ?_,
    fun a pool ha i hb hi hmem => ?_, fun i hb hi id loc hl => (mem_namedLevel h hi hl).2⟩
  · have hsub : d.pool.freeSlots ⊆ List.range d.pool.capacity := fun a ha =>
      List.mem_range.mpr (hrange a ha)
    simpa [Pool.availableApprox] using (hnd.subperm hsub).length_le
  · rw [h.restingSlots_eq hi] at ha
    exact hfree a hfr i ha
  · exact hfree _ hfr i (mem_namedLevel h hi hl).1
  · rw [h.restingSlots_eq hi] at hmem
    refine hfree a ?_ i hmem
    rw [(Pool.acquire_eq_some ha).1]
    exact List.mem_cons_self ..

end Dispatcher

namespace Exchange

variable {r : InstrumentRegistry} {filter : InstrumentId → Bool} {e : Engine} {capacity : ℕ}
  {x : Exchange}

/-- **No double release, no use after release**: whatever bytes arrive on whatever sessions, and
whenever instruments expire. -/
theorem slotSafe_of_reach (hnew : Engine.new r filter = .ok e)
    (h : Guarded.Reach Exchange.step (fun _ _ => True) (start e capacity) x) :
    x.dispatcher.SlotSafe := by
  obtain ⟨q, lost, hinv, -⟩ := exists_inv (J := fun _ _ _ => True) hnew trivial
    (fun _ _ _ _ _ _ _ _ _ _ _ _ => trivial) h
  exact Dispatcher.slotSafe_of_inv hinv

/-- Two orders of one id on one session, the second on a level of its own; the instrument then
expires with both at rest. -/
theorem slotSafe_of_expiry :
    ∃ x, Guarded.Reach Exchange.step (fun _ _ => True)
        (start ([⟨1⟩].foldl (Engine.addBook fun _ => true) {}) 3) x
      ∧ x.dispatcher.pool.freeSlots = [1, 2, 0] ∧ x.dispatcher.SlotSafe := by
  have hrun : (Guarded.run Exchange.step (fun _ _ => True)
      (start ([⟨1⟩].foldl (Engine.addBook fun _ => true) {}) 3)
      [.bytes 0 (encode 1 (.logon ⟨42⟩)), .turn 0,
        .bytes 0 (encode 2 (.newOrder ⟨5, 1, 0, 0, 0, 100, 10⟩)), .turn 0,
        .bytes 0 (encode 3 (.newOrder ⟨5, 1, 0, 0, 0, 99, 10⟩)), .turn 0, .expire 1]).map
      (fun x => x.dispatcher.pool.freeSlots) = some [1, 2, 0] := by decide +kernel
  obtain ⟨x, hx, hfree⟩ := Option.map_eq_some_iff.mp hrun
  have hreach := Guarded.Reach.of_run hx
  exact ⟨x, hreach, hfree, slotSafe_of_reach (r := ⟨[⟨1⟩], true⟩) rfl hreach⟩

end Exchange

end Ordbk
