import Ordbk.Refinement.Desk
import Ordbk.Abstract.Rested

/-!
# Theorems/FillOrKill — the dry run agrees with the run

`can_fully_fill` walks the levels without touching them, `match` peeks, fills and pops.  They are
two programs for one question, and on every book a run can reach they agree.  So a fill-or-kill
order is all or nothing: rejected without a trace, or filled to the last unit with nothing of it
resting.
-/

namespace Ordbk

namespace Desk

variable {d : Desk} {b : QueueBook} {a : Slot}

/-- **The dry run says whether the match fills the order.** -/
theorem Inv.canFullyFill_iff (h : d.Inv b) (ha : a ∈ d.held) (h0 : (d.order a).filledQty = 0)
    (hq : 0 < (d.order a).initialQty) :
    d.matcher.canFullyFill (d.order a) = true
      ↔ ((d.matcher.matchOrder a).1.pool.storage a).remaining = 0 := by
  have ho := OrderData.sound_of_fresh h0
  have hrem : (d.order a).remaining ≠ 0 := by
    rw [QueueBook.remaining_of_fresh h0]
    exact qty_pos_iff.mp hq
  obtain ⟨-, hd, -⟩ := matchOrder_moves h.rep h.wf h.length_le (h.notMem ha) rfl ho
  have hd' : ((d.matcher.matchOrder a).1.pool.storage a).toOrderData
      = (b.entry (d.order a)).taker := hd
  rw [canFullyFill_eq h.rep h.wf h.length_le, hd']
  exact covers_iff ho h.wf.open hrem

/-- A rejected order leaves everything as it was, its own status aside. -/
theorem Inv.submit_rejected (h : d.Inv b) (hrej : b.rejects (d.order a) = true) :
    d.matcher.submit a = (d.matcher.setStatus a .rejected, ⟨a, []⟩) := by
  have hrej' : d.matcher.rejects (d.matcher.pool.storage a).toOrderData = true :=
    (rejects_eq h.rep h.wf h.length_le _).trans hrej
  simp only [Matcher.submit, hrej', if_true]

/-- A filled taker has traded its whole quantity. -/
theorem tradedQty_of_filled {o : OrderData} (hw : b.WF) (h0 : o.filledQty = 0)
    (hfull : (b.entry o).taker.isFullyFilled = true) :
    tradedQty (b.entry o).trades = o.initialQty.toNat := by
  have hsum : (b.entry o).taker.filledQty.toNat
      = o.filledQty.toNat + tradedQty (b.entry o).trades :=
    toNat_filled_sweep (OrderData.sound_of_fresh h0) hw.open
  have hinit : (b.entry o).taker.initialQty = o.initialQty :=
    congrArg (·.initialQty) (QueueBook.ident_entry hw (OrderData.sound_of_fresh h0))
  rw [h0, UInt64.toNat_zero, Nat.zero_add, beq_iff_eq.mp hfull, hinit] at hsum
  exact hsum.symm

/-- How a fill-or-kill submission ends. -/
inductive AllOrNothing (m : Matcher) (a : Slot) (m' : Matcher) (ts : List Trade) : Prop
  /-- Rejected: no trade, and every level, every resting order, the index and the pool as before. -/
  | nothing : m'.pool.storage.data a = (m.pool.storage.data a).withStatus .rejected → ts = [] →
      m'.book = m.book →
      m'.book.restingSlots m'.pool = m.book.restingSlots m.pool →
      m'.pool.freeSlots = m.pool.freeSlots → m'.pool.capacity = m.pool.capacity →
      (∀ c ≠ a, m'.pool.storage c = m.pool.storage c) →
      a ∉ m'.book.restingSlots m'.pool → AllOrNothing m a m' ts
  /-- Filled: the trades add up to the whole order, and nothing of it rests. -/
  | all : (m'.pool.storage a).status = .filled →
      tradedQty ts = (m.pool.storage a).initialQty.toNat →
      (m'.pool.storage a).remaining = 0 →
      a ∉ m'.book.restingSlots m'.pool →
      (∀ id loc, m'.book.orderMap.lookup id = some loc → loc.order ≠ a) → AllOrNothing m a m' ts

/-- **Fill-or-kill is all or nothing.** -/
theorem Inv.allOrNothing (h : d.Inv b) (ha : a ∈ d.held) (h0 : (d.order a).filledQty = 0)
    (hfok : (d.order a).tif = .fok) :
    AllOrNothing d.matcher a (d.matcher.submit a).1 (d.matcher.submit a).2.trades := by
  have ho := OrderData.sound_of_fresh h0
  have hout := h.notMem ha
  have hrest := h.rep.restingSlots_eq h.wf.sorted h.length_le
  cases hrej : b.rejects (d.order a) with
  | true =>
    rw [h.submit_rejected hrej]
    have hrep : BookRep (d.matcher.setStatus a .rejected).pool.storage d.matcher.book b :=
      h.rep.frame fun c hc => setStatus_of_ne (ne_of_mem_of_not_mem hc hout) _
    have hrest' : d.matcher.book.restingSlots (d.matcher.setStatus a .rejected).pool = b.slots :=
      hrep.restingSlots_eq h.wf.sorted h.length_le
    exact .nothing (data_setStatus _ _ _) rfl rfl (hrest'.trans hrest.symm) rfl rfl
      (fun c hc => setStatus_of_ne hc _) (hrest'.symm ▸ hout)
  | false =>
    have hrem : (d.order a).remaining ≠ 0 := by
      rw [QueueBook.remaining_of_fresh h0]
      exact QueueBook.initialQty_of_accepted hrej
    have hfull := QueueBook.filled_of_fok h.wf ho hrem hrej hfok
    obtain ⟨hm, hd, htr⟩ := h.submit_moves ha h0
    have hout' := QueueBook.slot_notMem_entered h.wf ho hout
    have hsub : b.submit a (d.order a) = ⟨b.entered (d.order a),
        (b.entry (d.order a)).taker.withStatus .filled, (b.entry (d.order a)).trades,
        (b.entry (d.order a)).gone⟩ := by
      simp only [QueueBook.submit, hrej, hfull, Bool.false_eq_true, if_true, if_false]
    have hwf : (b.submit a (d.order a)).book.WF := QueueBook.wf_submit h.wf ho hout
    rw [hsub] at hm hd htr hwf
    have hlen : (b.entered (d.order a)).slots.length ≤ (d.matcher.submit a).1.pool.capacity := by
      have hperm := (QueueBook.slots_swept_perm (s := opposite (d.order a).side) h.wf ho).length_eq
      rw [List.length_append] at hperm
      exact hm.capacity ▸ le_trans (Nat.le.intro ((Nat.add_comm _ _).trans hperm)) h.length_le
    have hrest' := hm.rep.restingSlots_eq hwf.sorted hlen
    refine .all (congrArg (·.status) hd) ?_ ?_ (hrest'.symm ▸ hout') fun id loc hl hloc => ?_
    · rw [htr]
      exact tradedQty_of_filled h.wf h0 hfull
    · have hz := (QueueBook.isFullyFilled_iff (QueueBook.sound_entry h.wf ho)).mp hfull
      exact (congrArg OrderData.remaining hd).trans hz
    · rw [hm.rep.index] at hl
      obtain ⟨e, he, h1, -⟩ := hwf.located id loc hl
      exact hout' (QueueBook.mem_slots.mpr ⟨_, e, he, h1.trans hloc⟩)

/-- **On every book of every run the dry run agrees with the run**, and fill-or-kill is all or
nothing. -/
theorem fillOrKill_of_reach {i : InstrumentId} {capacity : ℕ}
    (h : Guarded.Reach Desk.call (fun _ _ => True) (start i capacity) d) (ha : a ∈ d.held)
    (h0 : (d.order a).filledQty = 0) :
    (0 < (d.order a).initialQty →
      (d.matcher.canFullyFill (d.order a) = true
        ↔ ((d.matcher.matchOrder a).1.pool.storage a).remaining = 0))
    ∧ ((d.order a).tif = .fok →
      AllOrNothing d.matcher a (d.matcher.submit a).1 (d.matcher.submit a).2.trades) := by
  obtain ⟨b, hb, -⟩ := exists_inv (J := fun _ => True) trivial (fun _ _ _ _ _ _ _ _ => trivial) h
  exact ⟨hb.canFullyFill_iff ha h0, hb.allOrNothing ha h0⟩

/-- An offer of 3 at 9, and a fill-or-kill bid for 2 at 9 in hand. -/
def killable : List Call :=
  [.acquire, .write 3 { id := 7, limitPrice := 9, initialQty := 3, instrument := 1, side := .sell },
    .submit 3, .acquire,
    .write 2 { id := 8, limitPrice := 9, initialQty := 2, instrument := 1, tif := .fok }]

theorem fillOrKill_of_killable :
    ∃ d, Guarded.run Desk.call (fun _ _ => True) (start 1 4) killable = some d
      ∧ d.matcher.canFullyFill (d.order 2) = true
      ∧ ((d.matcher.matchOrder 2).1.pool.storage 2).remaining = 0
      ∧ AllOrNothing d.matcher 2 (d.matcher.submit 2).1 (d.matcher.submit 2).2.trades := by
  have hrun : (Guarded.run Desk.call (fun _ _ => True) (start 1 4) killable).map (fun d =>
      (decide (2 ∈ d.held), (d.order 2).filledQty, (d.order 2).tif, (d.order 2).initialQty,
        d.matcher.canFullyFill (d.order 2))) = some (true, 0, .fok, 2, true) := by decide +kernel
  obtain ⟨d, hd, hval⟩ := Option.map_eq_some_iff.mp hrun
  simp only [Prod.mk.injEq, decide_eq_true_eq] at hval
  obtain ⟨hheld, h0, hfok, hqty, hcan⟩ := hval
  obtain ⟨hdry, hall⟩ := fillOrKill_of_reach (.of_run hd) hheld h0
  exact ⟨d, hd, hcan, (hdry (by rw [hqty]; decide)).mp hcan, hall hfok⟩

end Desk

end Ordbk
