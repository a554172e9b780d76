import Ordbk.Theorems.Conservation
import Ordbk.Refinement.View

/-!
# Theorems/Cancelling — a cancel takes out one order

`cancelExact_of_reach`: by an id that somebody at rest has, `cancel` takes that order out of its
level and the index and gives its slot back, and changes nothing else; by any other id it changes
nothing at all.  An order that came to rest without trading can so be taken back without a trace.
-/

namespace Ordbk

/-- **The order in slot `c` is taken out**, under the id `id`, and nothing else changes. -/
structure Matcher.TakesOut (m : Matcher) (id : OrderId) (c : Slot) (m' : Matcher) : Prop where
  /-- It leaves its level; everybody else keeps his place. -/
  levels : ∀ s, m'.book.levels m'.pool s = strike c (m.book.levels m.pool s)
  /-- The id leads nowhere now. -/
  index : m'.book.orderMap = m.book.orderMap.erase id
  /-- The slot is back, on top of the stack. -/
  free : m'.pool.freeSlots = c :: m.pool.freeSlots
  /-- The order in it is marked, -/
  order : m'.pool.storage.data c = (m.pool.storage.data c).withStatus .cancelled
  /-- and no other order is touched. -/
  others : ∀ c', c' ≠ c → m'.pool.storage.data c' = m.pool.storage.data c'

/-! ## Levels and queues

A cancel is read off the levels as the iterators show them, not off the queue book. -/

section Levels

variable {pool pool' : Pool} {hb hb' : OrderBook} {b : QueueBook}

/-- An order leaves its queue: it is struck from the levels of both sides, only one of which has
it. -/
theorem BookRep.levels_strike {b' : QueueBook} {c : Slot} (h : BookRep pool.storage hb b)
    (h' : BookRep pool'.storage hb' b') (hnd : b.slots.Nodup)
    (hlen : b.slots.length ≤ pool.capacity) (hcap : pool'.capacity = pool.capacity)
    (hcut : ∀ s, b'.side s = (b.side s).filter fun e => e.slot ≠ c) (s : Side) :
    hb'.levels pool' s = strike c (hb.levels pool s) := by
  simp only [QueueBook.slots, QueueBook.resting, List.length_map, List.length_append] at hlen
  unfold OrderBook.levels
  split_ifs
  · refine h.bids.levelSlots_strike ?_ (BookRep.nodup_bids hnd) (by omega) hcap
    exact (hcut .buy : b'.bids = _) ▸ h'.bids
  · refine h.asks.levelSlots_strike ?_ (BookRep.nodup_asks hnd) (by omega) hcap
    exact (hcut .sell : b'.asks = _) ▸ h'.asks

/-- One queue book, the same levels. -/
theorem BookRep.levels_congr (h : BookRep pool.storage hb b) (h' : BookRep pool'.storage hb' b)
    (hlen : b.slots.length ≤ pool.capacity) (hcap : pool'.capacity = pool.capacity) (s : Side) :
    hb'.levels pool' s = hb.levels pool s := by
  simp only [QueueBook.slots, QueueBook.resting, List.length_map, List.length_append] at hlen
  unfold OrderBook.levels
  split_ifs
  · exact h.bids.levelSlots_congr h'.bids (by omega) (by omega)
  · exact h.asks.levelSlots_congr h'.asks (by omega) (by omega)

end Levels

namespace Desk

variable {d : Desk} {b : QueueBook} {id : OrderId}

/-- The orders in the levels are those of the queue book. -/
theorem Inv.mem_restingSlots (h : d.Inv b) {c : Slot} :
    c ∈ d.matcher.book.restingSlots d.matcher.pool
      ↔ ∃ e ∈ b.resting, e.slot = c ∧ e.order = d.order c := by
  rw [h.rep.restingSlots_eq h.wf.sorted h.length_le, QueueBook.slots, List.mem_map]
  constructor
  · rintro ⟨e, he, rfl⟩
    exact ⟨e, he, rfl, (h.rep.data he).symm⟩
  · rintro ⟨e, he, rfl, -⟩
    exact ⟨e, he, rfl⟩

/-- **A cancel that finds its order** takes it out. -/
theorem Inv.takesOut (h : d.Inv b) {loc : Locator} (hl : b.index.lookup id = some loc) :
    d.matcher.TakesOut id loc.order (d.matcher.cancel id).1 := by
  obtain ⟨hnone, -⟩ | ⟨loc', e, hl', he, hslot, -, -, hm⟩ := cancel_moves h.rep h.wf id
  · rw [hl] at hnone
    cases hnone
  obtain rfl : loc = loc' := Option.some.inj (hl.symm.trans hl')
  have hdata : d.matcher.pool.storage.data loc.order = e.order := hslot ▸ h.rep.data_side he
  refine ⟨h.rep.levels_strike hm.rep h.wf.nodup h.length_le hm.capacity
    (QueueBook.side_remove_eq h.wf hl), ?_, ?_, ?_, fun c hc => ?_⟩
  · rw [hm.rep.index, h.rep.index]
    rfl
  · rw [hm.free]
    exact congrArg (· :: _) hslot
  · rw [hdata, ← hslot]
    exact hm.last e.cancelled (List.mem_singleton.mpr rfl)
  · by_cases hmem : c ∈ b.slots
    · -- an order still at rest is the order it was
      obtain ⟨s, f, hf, rfl⟩ := QueueBook.mem_slots.mp hmem
      have hf' := (QueueBook.mem_side_remove h.wf hl).mpr ⟨hf, hc⟩
      exact (hm.rep.data_side hf').trans (h.rep.data_side hf).symm
    · exact Store.data_congr (hm.frame c List.not_mem_nil hmem)

/-- Whether there is anything to cancel. -/
theorem Inv.cancel_iff (h : d.Inv b) (hi : b.Indexed) (id : OrderId) :
    (d.matcher.cancel id).2 = true
      ↔ ∃ c ∈ d.matcher.book.restingSlots d.matcher.pool, (d.order c).id = id := by
  have hfound : (d.matcher.cancel id).2 = (b.index.lookup id).isSome := by
    obtain ⟨hl, hm⟩ | ⟨loc, e, hl, -, -, -, hm, -⟩ := cancel_moves h.rep h.wf id
    · rw [hm, hl]
      rfl
    · rw [hm, hl]
      rfl
  rw [hfound, hi.isSome_lookup h.wf]
  constructor
  · rintro ⟨e, he, hid⟩
    have hdata : e.order = d.order e.slot := (h.rep.data he).symm
    exact ⟨e.slot, h.mem_restingSlots.mpr ⟨e, he, rfl, hdata⟩, hdata ▸ hid⟩
  · rintro ⟨c, hc, hid⟩
    obtain ⟨e, he, -, hdata⟩ := h.mem_restingSlots.mp hc
    exact ⟨e, he, hdata ▸ hid⟩

/-- A cancel that finds nothing does nothing. -/
theorem Inv.cancel_eq_self (h : d.Inv b) (hnot : (d.matcher.cancel id).2 = false) :
    (d.matcher.cancel id).1 = d.matcher := by
  obtain ⟨-, hm⟩ | ⟨loc, e, -, -, -, -, hm, -⟩ := cancel_moves h.rep h.wf id
  · rw [hm]
  · rw [hm] at hnot
    cases hnot

/-! ## Taking an order back

An order that came to rest without a trade and is cancelled at once leaves the book as it was. -/

/-- Who is in the book after a submission has come to rest. -/
theorem rests_of_mem {a : Slot} {o : OrderData} (hw : b.WF) (ho : o.Sound) (ha : a ∉ b.slots)
    (hmem : a ∈ (b.submit a o).book.slots) : b.Rests o := by
  have hnot := QueueBook.slot_notMem_entered hw ho ha
  have hs := b.submitted a o
  generalize b.submit a o = r at hs hmem
  cases hs with
  | rejected _ => exact absurd hmem ha
  | filled _ _ => exact absurd hmem hnot
  | dropped _ _ _ => exact absurd hmem hnot
  | rested h1 h2 h3 => exact ⟨h1, h2, h3⟩

/-- **Taken back without a trace.** -/
theorem Inv.cancel_submit (h : d.Inv b) (hl : d.Ledger b) {a : Slot} (ha : a ∈ d.held)
    (h0 : (d.order a).filledQty = 0) (hid : d.FreshIds (.submit a))
    (hnone : (d.matcher.submit a).2.trades = [])
    (hrest : a ∈ (d.matcher.submit a).1.book.restingSlots (d.matcher.submit a).1.pool) :
    ((d.matcher.submit a).1.cancel (d.order a).id).2 = true
      ∧ (∀ s, ((d.matcher.submit a).1.cancel (d.order a).id).1.book.levels
          ((d.matcher.submit a).1.cancel (d.order a).id).1.pool s
            = d.matcher.book.levels d.matcher.pool s)
      ∧ ((d.matcher.submit a).1.cancel (d.order a).id).1.book.orderMap
        = d.matcher.book.orderMap := by
  have ho := OrderData.sound_of_fresh h0
  have hslot := h.notMem ha
  obtain ⟨hm, -, hres⟩ := h.submit_moves ha h0
  have hwf := QueueBook.wf_submit (a := a) h.wf ho hslot
  have hinv : (d.submit a).Inv (b.submit a (d.order a)).book :=
    h.call (c := .submit a) (if_pos ⟨ha, h0⟩)
  have hmem : a ∈ (b.submit a (d.order a)).book.slots := by
    rwa [hm.rep.restingSlots_eq hwf.sorted hinv.length_le] at hrest
  have hrests := rests_of_mem h.wf ho hslot hmem
  have htrades : (b.entry (d.order a)).trades = [] := by
    have hsub := QueueBook.trades_submit b a (d.order a)
    rw [hrests.accepted, if_neg Bool.false_ne_true] at hsub
    rw [← hsub, ← hnone, hres]
  -- the queue book rests the order and takes it back
  have hback : (b.submit a (d.order a)).book.cancel (d.order a).id = (b, some a) := by
    rw [QueueBook.book_of_untraded h.wf hrests htrades]
    refine QueueBook.cancel_rest (e := ⟨a, (d.order a).withStatus _⟩) hslot ?_
    exact QueueBook.lookup_eq_none h.wf fun e he => hl.id_ne h hid e he
  obtain ⟨hlook, -⟩ | ⟨loc, e, hlook, -, -, -, hfound, hm'⟩ :=
    cancel_moves hm.rep hwf (d.order a).id
  · rw [QueueBook.cancel, hlook] at hback
    cases (Prod.mk.inj hback).2
  · rw [QueueBook.cancel, hlook] at hback
    rw [(Prod.mk.inj hback).1] at hm'
    refine ⟨hfound, h.rep.levels_congr hm'.rep h.length_le (hm'.capacity.trans hm.capacity), ?_⟩
    rw [hm'.rep.index, h.rep.index]

/-- **Cancelling is exact**, in every state that submissions under distinct ids and cancels lead
to. -/
theorem cancelExact_of_reach {i : InstrumentId} {capacity : ℕ}
    (h : Guarded.Reach Desk.call FreshIds (start i capacity) d) :
    (∀ id, ((d.matcher.cancel id).2 = true
        ↔ ∃ c ∈ d.matcher.book.restingSlots d.matcher.pool, (d.order c).id = id)
      ∧ ((d.matcher.cancel id).2 = false → (d.matcher.cancel id).1 = d.matcher)
      ∧ ∀ c ∈ d.matcher.book.restingSlots d.matcher.pool, (d.order c).id = id →
        d.matcher.TakesOut id c (d.matcher.cancel id).1)
    ∧ ∀ a ∈ d.held, (d.order a).filledQty = 0 → d.FreshIds (.submit a) →
      (d.matcher.submit a).2.trades = [] →
      a ∈ (d.matcher.submit a).1.book.restingSlots (d.matcher.submit a).1.pool →
        ((d.matcher.submit a).1.cancel (d.order a).id).2 = true
        ∧ (∀ s, ((d.matcher.submit a).1.cancel (d.order a).id).1.book.levels
            ((d.matcher.submit a).1.cancel (d.order a).id).1.pool s
              = d.matcher.book.levels d.matcher.pool s)
        ∧ ((d.matcher.submit a).1.cancel (d.order a).id).1.book.orderMap
            = d.matcher.book.orderMap := by
  obtain ⟨b, hb, hl, hi⟩ := exists_ledger h
  refine ⟨fun id => ⟨hb.cancel_iff hi id, hb.cancel_eq_self, fun c hc hid => ?_⟩,
    fun a ha h0 hid hnone hrest => hb.cancel_submit hl ha h0 hid hnone hrest⟩
  obtain ⟨e, he, rfl, hdata⟩ := hb.mem_restingSlots.mp hc
  obtain ⟨loc, hloc, hslot⟩ := hi e he
  rw [hdata, hid] at hloc
  exact hslot ▸ hb.takesOut hloc

/-- Three bids at two prices, and a fourth in hand. -/
def bids : List Call :=
  [.acquire, .write 3 { id := 1, limitPrice := 10, initialQty := 5, instrument := 1 }, .submit 3,
    .acquire, .write 2 { id := 2, limitPrice := 10, initialQty := 6, instrument := 1 }, .submit 2,
    .acquire, .write 1 { id := 3, limitPrice := 9, initialQty := 7, instrument := 1 }, .submit 1,
    .acquire, .write 0 { id := 4, limitPrice := 10, initialQty := 8, instrument := 1 }]

/-- The first of two at its price is cancelled: its level keeps the other. -/
theorem cancelExact_of_bids :
    ∃ d, Guarded.run Desk.call FreshIds (start 1 4) bids = some d
      ∧ d.matcher.book.levels d.matcher.pool .buy = [(10, [3, 2]), (9, [1])]
      ∧ d.matcher.TakesOut 1 3 (d.matcher.cancel 1).1
      ∧ (d.matcher.cancel 1).1.book.levels (d.matcher.cancel 1).1.pool .buy = [(10, [2]), (9, [1])]
      ∧ ((d.matcher.submit 0).1.cancel 4).1.book.orderMap = d.matcher.book.orderMap := by
  have hrun : (Guarded.run Desk.call FreshIds (start 1 4) bids).map (fun d => decide
      (d.matcher.book.levels d.matcher.pool .buy = [(10, [3, 2]), (9, [1])]
        ∧ 3 ∈ d.matcher.book.restingSlots d.matcher.pool ∧ (d.order 3).id = 1
        ∧ 0 ∈ d.held ∧ (d.order 0).filledQty = 0 ∧ (d.order 0).id = 4 ∧ d.FreshIds (.submit 0)
        ∧ (d.matcher.submit 0).2.trades = []
        ∧ 0 ∈ (d.matcher.submit 0).1.book.restingSlots (d.matcher.submit 0).1.pool))
      = some true := by decide +kernel
  obtain ⟨d, hd, hval⟩ := Option.map_eq_some_iff.mp hrun
  obtain ⟨hlevels, hmem, hid, hheld, h0, hid', hfresh, hnone, hrest⟩ := of_decide_eq_true hval
  obtain ⟨hcancel, hback⟩ := cancelExact_of_reach (.of_run hd)
  have hout := (hcancel 1).2.2 3 hmem hid
  have hindex := (hback 0 hheld h0 hfresh hnone hrest).2.2
  rw [hid'] at hindex
  refine ⟨d, hd, hlevels, hout, ?_, hindex⟩
  rw [hout.levels, hlevels]
  decide

end Desk

end Ordbk
