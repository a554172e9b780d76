import Ordbk.Refinement.Floor

/-!
# Theorems/Expiry — which orders an expiring instrument retires

`Engine::expire_instrument` is to cancel every order at rest and give back its slot.  The drain it
uses nulls an order's links before the iterator over the level steps, so it visits the first order
of each price level and no other.  `retires_iff`: the instrument is retired as meant exactly when
each of its levels holds a single order; the slots behind a level's first order are never given
back.
-/

namespace Ordbk

/-! ## Retiring an instrument

Each order is `Cancelled` and its slot given back, and no other book notices. -/

/-- **The instrument is retired**: every order at rest in its book is visited once, and nothing else
happens. -/
structure Retires (e : Engine) (pool : Pool) (i : InstrumentId) (hb : OrderBook) : Prop where
  /-- Each visit pushes the order's slot; every order at rest is visited once. -/
  visits : ∃ visited : List Slot, visited.Perm (hb.restingSlots pool)
    ∧ (e.expireInstrument pool i).2.1.freeSlots = visited.reverse ++ pool.freeSlots
  /-- And finds the order `Cancelled`. -/
  cancelled : ∀ a ∈ hb.restingSlots pool,
    ((e.expireInstrument pool i).2.1.storage a).status = .cancelled
  /-- Its slot is on the free stack once. -/
  released : ∀ a ∈ hb.restingSlots pool, (e.expireInstrument pool i).2.1.freeSlots.count a = 1
  /-- No other slot comes back. -/
  grows : (e.expireInstrument pool i).2.1.availableApprox
    = pool.availableApprox + (hb.restingSlots pool).length
  /-- The other books and their orders are as they were. -/
  others : ∀ j, j ≠ i →
    (e.expireInstrument pool i).1.matchers.lookup j = e.matchers.lookup j
      ∧ ∀ hb', e.matchers.lookup j = some hb' →
        hb'.restingSlots (e.expireInstrument pool i).2.1 = hb'.restingSlots pool
        ∧ ∀ a ∈ hb'.restingSlots pool, (e.expireInstrument pool i).2.1.storage a = pool.storage a

/-- No price level of the book holds two orders. -/
def OrderBook.Single (hb : OrderBook) (pool : Pool) : Prop :=
  (∀ x ∈ hb.bids.entries, (x.2.slots pool.storage (pool.capacity + 1)).length = 1)
    ∧ ∀ x ∈ hb.asks.entries, (x.2.slots pool.storage (pool.capacity + 1)).length = 1

instance (hb : OrderBook) (pool : Pool) : Decidable (hb.Single pool) :=
  inferInstanceAs (Decidable (_ ∧ _))

/-! ## What the drain visits

It visits the front of each level. That is everybody precisely where no level holds two. -/

/-- Each level holds one order iff every order is the front of its level. -/
theorem LevelsRep.single_iff {lt : Price → Price → Prop} [IsStrictTotalOrder Price lt]
    {levels : OrdMap lt PriceLevel} {st : Store} {l : List Resting} (h : LevelsRep st levels l)
    (hnd : l.Nodup) {fuel : ℕ} (hfuel : l.length < fuel) :
    (∀ x ∈ levels.entries, (x.2.slots st fuel).length = 1) ↔ fronts l = l := by
  rw [fronts_eq_self_iff hnd]
  constructor
  · intro hone e he
    obtain ⟨lv, hlv⟩ := h.find?_of_mem he
    have hx : (e.price, lv) ∈ levels.entries := levels.mem_entries.mpr hlv
    have hlen := hone _ hx
    rw [(h.slots_level hfuel hx).2, List.length_map] at hlen
    obtain ⟨g, hg⟩ := List.length_eq_one_iff.mp hlen
    have hmem : e ∈ queueAt e.price l := mem_queueAt.mpr ⟨he, rfl⟩
    change queueAt e.price l = [g] at hg
    rw [hg, List.mem_singleton] at hmem
    rw [hg, hmem]
  · intro hall x hx
    obtain ⟨hne, hslots⟩ := h.slots_level hfuel hx
    obtain ⟨e, es, hq⟩ := List.exists_cons_of_ne_nil hne
    obtain ⟨he, hprice⟩ := mem_queueAt.mp (show e ∈ queueAt x.1 l by simp [hq])
    rw [hslots, ← hprice, hall e he]
    rfl

variable {e : Engine} {pool : Pool} {q : InstrumentId → QueueBook} {held : List Slot}
  {i : InstrumentId} {hb : OrderBook}

theorem EngineInv.single_iff (h : EngineInv e pool q held) (hi : e.matchers.lookup i = some hb) :
    hb.Single pool ↔ (q i).fronts = (q i).resting := by
  have hrep := h.custody.rep i hb hi
  have hlen := h.custody.length_slots_le i
  have hnd : (q i).resting.Nodup := (h.custody.wf i).nodup.of_map _
  have hsplit : (q i).slots.length = (q i).bids.length + (q i).asks.length := by
    simp [QueueBook.slots, QueueBook.resting]
  unfold OrderBook.Single
  rw [hrep.bids.single_iff hnd.of_append_left (by omega),
    hrep.asks.single_iff hnd.of_append_right (by omega)]
  refine ⟨fun hsame => by rw [QueueBook.fronts, hsame.1, hsame.2, QueueBook.resting], fun heq => ?_⟩
  have hbids : (fronts (q i).bids).length ≤ (q i).bids.length := List.length_filter_le _ _
  have hasks : (fronts (q i).asks).length ≤ (q i).asks.length := List.length_filter_le _ _
  have hsum := congrArg List.length heq
  simp only [QueueBook.fronts, QueueBook.resting, List.length_append] at hsum
  exact ⟨List.filter_sublist.eq_of_length (by unfold fronts at *; omega),
    List.filter_sublist.eq_of_length (by unfold fronts at *; omega)⟩

/-- The pool after an expiry. -/
theorem EngineInv.expire_moves (h : EngineInv e pool q held) (hi : e.matchers.lookup i = some hb) :
    (e.expireInstrument pool i).1.matchers = e.matchers.erase i
      ∧ (e.expireInstrument pool i).2.1.freeSlots
        = ((q i).fronts.map (·.slot)).reverse ++ pool.freeSlots
      ∧ (∀ f ∈ (q i).fronts, ((e.expireInstrument pool i).2.1.storage f.slot).status = .cancelled)
      ∧ ∀ c, c ∉ (q i).slots → (e.expireInstrument pool i).2.1.storage c = pool.storage c := by
  have hm := cancelAll_moves (m := ⟨hb, pool⟩) (h.custody.rep i hb hi) (h.custody.wf i)
  unfold Engine.expireInstrument
  simp only [hi]
  refine ⟨trivial, ?_, fun f hf => ?_, fun c hc => hm.frame c List.not_mem_nil hc⟩
  · rw [hm.free, List.map_map]
    rfl
  · exact congrArg (·.status) (hm.last _ (List.mem_map_of_mem hf))

/-- The books of the others, and their orders, are what they were. -/
theorem EngineInv.expire_other (h : EngineInv e pool q held) (hi : e.matchers.lookup i = some hb)
    {j : InstrumentId} (hj : j ≠ i) :
    (e.expireInstrument pool i).1.matchers.lookup j = e.matchers.lookup j
      ∧ ∀ hb', e.matchers.lookup j = some hb' →
        hb'.restingSlots (e.expireInstrument pool i).2.1 = hb'.restingSlots pool
        ∧ ∀ a ∈ hb'.restingSlots pool, (e.expireInstrument pool i).2.1.storage a
          = pool.storage a := by
  obtain ⟨hmatchers, -, -, hframe⟩ := h.expire_moves hi
  have hsame : (e.expireInstrument pool i).1.matchers.lookup j = e.matchers.lookup j := by
    rw [hmatchers, Finmap.lookup_erase_ne hj]
  refine ⟨hsame, fun hb' hj' => ?_⟩
  have hafter := (h.expire hi).restingSlots_eq (hsame.trans hj')
  rw [Function.update_of_ne hj] at hafter
  rw [hafter, h.restingSlots_eq hj']
  exact ⟨rfl, fun a ha => hframe a fun hmem => h.custody.apart j i hj ha hmem⟩

/-- **An instrument is retired iff each of its levels holds a single order.** -/
theorem EngineInv.retires_iff_single (h : EngineInv e pool q held)
    (hi : e.matchers.lookup i = some hb) : Retires e pool i hb ↔ hb.Single pool := by
  obtain ⟨-, hfree, hstatus, -⟩ := h.expire_moves hi
  have hslots := h.restingSlots_eq hi
  rw [h.single_iff hi]
  constructor
  · intro hret
    have hlen := hret.grows
    rw [Pool.availableApprox, hfree, hslots] at hlen
    refine (q i).fronts_sublist.eq_of_length ?_
    simp only [List.length_append, List.length_reverse, List.length_map, Pool.availableApprox,
      QueueBook.slots] at hlen
    omega
  · intro hall
    rw [hall] at hfree hstatus
    change _ = (q i).slots.reverse ++ pool.freeSlots at hfree
    refine ⟨⟨(q i).slots, hslots ▸ List.Perm.refl _, hfree⟩, fun a ha => ?_, fun a ha => ?_, ?_,
      fun j hj => h.expire_other hi hj⟩
    · rw [hslots] at ha
      obtain ⟨f, hf, rfl⟩ := List.mem_map.mp ha
      exact hstatus f hf
    · rw [hslots] at ha
      have hnot : a ∉ pool.freeSlots := fun hmem =>
        h.custody.notMem_of_mem_slots ha (List.mem_append_left _ hmem)
      rw [hfree, List.count_append, List.count_reverse,
        List.count_eq_one_of_mem (h.custody.wf i).nodup ha, List.count_eq_zero_of_not_mem hnot]
    · rw [Pool.availableApprox, hfree, hslots]
      simp [Pool.availableApprox, Nat.add_comm]

namespace Floor

variable {r : InstrumentRegistry} {filter : InstrumentId → Bool} {capacity : ℕ} {f : Floor}

/-- **Expiry, from every reachable state of an engine**: it does what it is for exactly when no
price level of the book holds two orders. -/
theorem retires_iff (hnew : Engine.new r filter = .ok e)
    (h : Guarded.Reach Floor.call (fun _ _ => True) (start e capacity) f)
    (hi : f.engine.matchers.lookup i = some hb) :
    Retires f.engine f.pool i hb ↔ hb.Single f.pool := by
  obtain ⟨q, hinv⟩ := exists_inv hnew h
  exact EngineInv.retires_iff_single hinv hi

/-- A bid and an ask, each alone at its price. -/
theorem retires_of_twoLevels :
    ∃ f hb, Guarded.Reach Floor.call (fun _ _ => True)
        (start ([⟨1⟩].foldl (Engine.addBook fun _ => true) {}) 2) f
      ∧ f.engine.matchers.lookup 1 = some hb ∧ (hb.restingSlots f.pool).length = 2
      ∧ Retires f.engine f.pool 1 hb := by
  have hrun : (Guarded.run Floor.call (fun _ _ => True)
      (start ([⟨1⟩].foldl (Engine.addBook fun _ => true) {}) 2)
      [.acquire, .write 1 { id := 7, limitPrice := 100, initialQty := 5, instrument := 1 },
        .submit 1, .acquire,
        .write 0 { id := 8, limitPrice := 101, initialQty := 5, instrument := 1, side := .sell },
        .submit 0]).map
      (fun f => (f.engine.matchers.lookup 1).map fun hb =>
        ((hb.restingSlots f.pool).length, decide (hb.Single f.pool))) = some (some (2, true)) := by
    decide +kernel
  obtain ⟨f, hf, hbook⟩ := Option.map_eq_some_iff.mp hrun
  obtain ⟨hb, hlookup, hout⟩ := Option.map_eq_some_iff.mp hbook
  obtain ⟨hlen, hsingle⟩ := Prod.mk.inj hout
  have hreach := Guarded.Reach.of_run hf
  exact ⟨f, hb, hreach, hlookup, hlen,
    (retires_iff (r := ⟨[⟨1⟩], true⟩) rfl hreach hlookup).mpr (of_decide_eq_true hsingle)⟩

/-- Two bids at one price: expiring the instrument gives back one of the two slots. -/
theorem not_retires_of_sharedLevel :
    ¬ ∀ f hb, Guarded.Reach Floor.call (fun _ _ => True)
        (start ([⟨1⟩].foldl (Engine.addBook fun _ => true) {}) 2) f →
      f.engine.matchers.lookup 1 = some hb → Retires f.engine f.pool 1 hb := by
  intro hall
  have hrun : (Guarded.run Floor.call (fun _ _ => True)
      (start ([⟨1⟩].foldl (Engine.addBook fun _ => true) {}) 2)
      [.acquire, .write 1 { id := 7, limitPrice := 100, initialQty := 5, instrument := 1 },
        .submit 1,
        .acquire, .write 0 { id := 8, limitPrice := 100, initialQty := 5, instrument := 1 },
        .submit 0]).map
      (fun f => (f.engine.matchers.lookup 1).map fun hb =>
        ((hb.restingSlots f.pool).length, f.pool.availableApprox,
          (f.engine.expireInstrument f.pool 1).2.1.availableApprox)) = some (some (2, 0, 1)) := by
    decide +kernel
  obtain ⟨f, hf, hbook⟩ := Option.map_eq_some_iff.mp hrun
  obtain ⟨hb, hlookup, hout⟩ := Option.map_eq_some_iff.mp hbook
  simp only [Prod.mk.injEq] at hout
  have hgrows := (hall f hb (Guarded.Reach.of_run hf) hlookup).grows
  omega

end Floor

end Ordbk
