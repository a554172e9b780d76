import Ordbk.Theorems.BookShape
import Ordbk.Theorems.Conservation
import Ordbk.Abstract.Reference

/-!
# Theorems/PriceTime — strict price-time priority

The matcher and the reference matcher of `Abstract/Reference`, run side by side: the reference book
follows every call the desk makes (`RefBook.follow`).  At every point the orders in the levels, read
in iteration order, are the reference lists, and every accepted order trades the same in both.

Arrival times exist only in the reference book.  What they buy is the last clause: whoever trades,
everybody before them in line has been filled to the last unit already.
-/

namespace Ordbk

/-- A desk and the reference book that follows it. -/
structure Lockstep where
  /-- The matcher as it is, with its caller, -/
  desk : Desk
  /-- and the flat list of who is waiting. -/
  ref : RefBook

namespace Desk

/-- The orders of a side, in the order the levels are iterated. -/
def queue (d : Desk) (s : Side) : List (OrderData × ℕ) :=
  (d.matcher.book.sideSlots d.matcher.pool s).map fun c => (d.order c).key

/-- The matcher accepts the order in this slot. -/
def Accepts (d : Desk) (a : Slot) : Prop :=
  ((d.matcher.submit a).1.pool.storage a).status ≠ .rejected

instance (d : Desk) (a : Slot) : Decidable (d.Accepts a) := inferInstanceAs (Decidable (_ ≠ _))

end Desk

/-- What the reference book does when the desk makes a call. -/
def RefBook.follow (r : RefBook) (d : Desk) : Call → RefBook
  | .submit a => if d.Accepts a then (r.submit (d.order a)).1 else r
  | .cancel id => r.cancel id
  | _ => r

namespace Lockstep

def start (instrument : InstrumentId) (capacity : ℕ) : Lockstep :=
  ⟨Desk.start instrument capacity, {}⟩

def call (p : Lockstep) (c : Call) : Option Lockstep :=
  (p.desk.call c).map fun d => ⟨d, p.ref.follow p.desk c⟩

/-- The side condition of a run: fresh ids, declared enumerators, no draining. -/
def Proper (p : Lockstep) (c : Call) : Prop := p.desk.FreshIds c ∧ p.desk.DeclaredOnly c

instance (p : Lockstep) (c : Call) : Decidable (p.Proper c) := inferInstanceAs (Decidable (_ ∧ _))

variable {p p' : Lockstep} {b : QueueBook} {c : Call}

/-- **The simulation invariant.** -/
structure Inv (p : Lockstep) (b : QueueBook) : Prop where
  /-- The book is a queue book, -/
  desk : p.desk.Inv b
  /-- every order is accounted for, -/
  ledger : p.desk.Ledger b
  /-- the index has them all, -/
  indexed : b.Indexed
  /-- and the reference waits for the same. -/
  sim : Sim b p.ref

/-- The order is accepted iff the queue book accepts it. -/
theorem accepts_iff {d : Desk} (h : d.Inv b) {a : Slot} (ha : a ∈ d.held)
    (h0 : (d.order a).filledQty = 0) : d.Accepts a ↔ b.rejects (d.order a) = false := by
  have hd : ((d.matcher.submit a).1.pool.storage a).toOrderData
      = (b.submit a (d.order a)).order := (h.submit_moves ha h0).2.1
  rw [Desk.Accepts, hd, ne_eq, QueueBook.status_rejected_iff, Bool.not_eq_true]

/-- **One call keeps the two books alike.** -/
theorem Inv.call (h : p.Inv b) (hok : p.Proper c) (hc : p.call c = some p') :
    p'.Inv (p.desk.next b c) := by
  obtain ⟨d', hd, rfl⟩ := Option.map_eq_some_iff.mp hc
  refine ⟨h.desk.call hd, h.ledger.call h.desk hok.1 hd,
    h.ledger.indexed h.desk h.indexed hok.1 hd, ?_⟩
  cases c with
  | submit a =>
    obtain ⟨⟨ha, h0⟩, -⟩ : (a ∈ p.desk.held ∧ (p.desk.order a).filledQty = 0)
        ∧ p.desk.submit a = d' := by simpa [Desk.call] using hd
    change Sim _ (if p.desk.Accepts a then _ else _)
    split_ifs with hacc
    · rw [accepts_iff h.desk ha h0] at hacc
      exact (h.sim.submit h.desk.wf h0 hok.2 hacc).1
    · have hrej : b.rejects (p.desk.order a) = true := by
        rw [← Bool.not_eq_false, ← accepts_iff h.desk ha h0]
        exact hacc
      have hsame : (b.submit a (p.desk.order a)).book = b := by
        simp only [QueueBook.submit, hrej, if_true]
      change Sim (b.submit a (p.desk.order a)).book _
      rw [hsame]
      exact h.sim
  | cancel id => exact h.sim.cancel h.indexed h.desk.wf id
  | cancelAll => exact hok.1.elim
  | acquire => exact h.sim
  | write a o => exact h.sim
  | release a => exact h.sim

theorem exists_inv {i : InstrumentId} {capacity : ℕ}
    (h : Guarded.Reach Lockstep.call Proper (start i capacity) p) : ∃ b, p.Inv b :=
  h.invariant (I := fun p => ∃ b, p.Inv b)
    ⟨_, Desk.inv_start i capacity, Desk.ledger_start i capacity, QueueBook.indexed_new i, sim_new i⟩
    fun _ _ _ ⟨_, hb⟩ hok hc => ⟨_, hb.call hok hc⟩

/-- The levels, in iteration order, are the reference lists. -/
theorem queue_eq {d : Desk} {r : RefBook} (h : d.Inv b) (hs : Sim b r) (s : Side) :
    d.queue s = (r.side s).map RefOrder.key := by
  rw [← hs.same s, Desk.queue, h.rep.sideSlots_eq h.wf.sorted h.length_le, List.map_map]
  refine List.map_congr_left fun e he => ?_
  exact congrArg OrderData.key (h.rep.data_side he)

/-! ## Who goes first

From the simulation: a maker is taken only when nobody stands before it. -/

/-- Every execution has its maker in the reference book, and nobody ahead of the maker has
anything left by then. -/
theorem Inv.nobody_overtaken (h : p.Inv b) {a : Slot} (h0 : (p.desk.order a).filledQty = 0)
    (hid : (p.desk.order a).id ∉ p.desk.accounts.map (·.order.id)) {ts₁ ts₂ : List Trade}
    {x : Trade} (hx : (b.entry (p.desk.order a)).trades = ts₁ ++ x :: ts₂) :
    ∃ k ∈ p.ref.side (opposite (p.desk.order a).side), k.order.id = x.makerId
      ∧ ∀ y ∈ p.ref.side (opposite (p.desk.order a).side),
        y.Ahead (opposite (p.desk.order a).side) k → volume y.order.id ts₁ = y.remaining := by
  have ho := OrderData.sound_of_fresh h0
  have hsame := h.sim.same (opposite (p.desk.order a).side)
  obtain ⟨e, he, -, hxe, -⟩ := mem_sweep_trades ho h.desk.wf.open
    (show x ∈ (b.entry (p.desk.order a)).trades from hx ▸ by simp)
  obtain ⟨k, hk, hkey⟩ := SameQueue.mem_of_mem hsame he
  have hkx : k.order.id = x.makerId := by
    rw [hxe, ← id_eq_of_key hkey]
    rfl
  refine ⟨k, hk, hkx, fun y hy hyk => ?_⟩
  obtain ⟨ks₁, ks₂, hks, hk₂⟩ := exists_split_of_ahead (h.sim.sorted _) hk hy hyk
  rw [hks] at hsame
  obtain ⟨l₁, f, l₂, hl, hfy, hsame₂⟩ := SameQueue.split hsame
  have hids : (b.side (opposite (p.desk.order a).side)).map (·.order.id) |>.Nodup := by
    have hperm := (b.resting_perm (opposite (p.desk.order a).side)).map
      fun e : Resting => e.order.id
    rw [List.map_append] at hperm
    exact (hperm.nodup_iff.mp (h.ledger.nodup_ids h.desk)).of_append_left
  have hkmem : x.makerId ∈ l₂.map (·.order.id) := by
    have hmem : k.key ∈ l₂.map fun e => e.order.key := hsame₂ ▸ List.mem_map_of_mem hk₂
    obtain ⟨g, hg, hgk⟩ := List.mem_map.mp hmem
    exact List.mem_map.mpr ⟨g, hg, (id_eq_of_key hgk).trans hkx⟩
  have hf : f ∈ b.side (opposite (p.desk.order a).side) := hl ▸ by simp
  rw [← id_eq_of_key hfy, remaining_eq_of_key hfy (h.desk.wf.open f hf).sound]
  exact volume_of_precedes ho h.desk.wf.open hids
    (fun m hm => h.ledger.id_ne h.desk hid m (b.mem_resting.mpr ⟨_, hm⟩)) hl hx hkmem

/-- **Strict price-time priority.** -/
theorem priceTime_of_reach {i : InstrumentId} {capacity : ℕ}
    (h : Guarded.Reach Lockstep.call Proper (start i capacity) p) :
    (∀ s, p.desk.queue s = (p.ref.side s).map RefOrder.key)
    ∧ (∀ s, (p.ref.side s).Pairwise (RefOrder.Ahead s))
    ∧ ∀ a ∈ p.desk.held, (p.desk.order a).filledQty = 0 → p.Proper (.submit a) →
      p.desk.Accepts a →
        (p.desk.matcher.submit a).2.trades.map Trade.toRef = (p.ref.submit (p.desk.order a)).2
        ∧ (∀ s, (p.desk.submit a).queue s
          = ((p.ref.submit (p.desk.order a)).1.side s).map RefOrder.key)
        ∧ ∀ ts₁ x ts₂, (p.desk.matcher.submit a).2.trades = ts₁ ++ x :: ts₂ →
          ∃ k ∈ p.ref.side (opposite (p.desk.order a).side), k.order.id = x.makerId
            ∧ ∀ y ∈ p.ref.side (opposite (p.desk.order a).side),
              y.Ahead (opposite (p.desk.order a).side) k → volume y.order.id ts₁ = y.remaining := by
  obtain ⟨b, hb⟩ := exists_inv h
  refine ⟨queue_eq hb.desk hb.sim, hb.sim.sorted, fun a ha h0 hok hacc => ?_⟩
  rw [accepts_iff hb.desk ha h0] at hacc
  obtain ⟨hsim, htrades⟩ := hb.sim.submit (a := a) hb.desk.wf h0 hok.2 hacc
  have htr : (p.desk.matcher.submit a).2.trades = (b.submit a (p.desk.order a)).trades :=
    congrArg MatchResult.trades (hb.desk.submit_moves ha h0).2.2
  have hent : (b.submit a (p.desk.order a)).trades = (b.entry (p.desk.order a)).trades := by
    rw [QueueBook.trades_submit, hacc, if_neg Bool.false_ne_true]
  refine ⟨htr ▸ htrades, queue_eq (hb.desk.submit ha h0) hsim, fun ts₁ x ts₂ hx => ?_⟩
  exact hb.nobody_overtaken h0 hok.1 ((htr.trans hent).symm.trans hx)

/-- Two bids at the same price, and an offer in hand that needs both. -/
def twoBids : List Call :=
  [.acquire, .write 3 { id := 1, limitPrice := 10, initialQty := 5, instrument := 1 }, .submit 3,
    .acquire, .write 2 { id := 2, limitPrice := 10, initialQty := 5, instrument := 1 }, .submit 2,
    .acquire,
    .write 1 { id := 3, limitPrice := 9, initialQty := 7, instrument := 1, side := .sell }]

theorem priceTime_of_twoBids :
    ∃ p, Guarded.run Lockstep.call Proper (start 1 4) twoBids = some p
      ∧ (p.desk.matcher.submit 1).2.trades.map (·.makerId) = [1, 2]
      ∧ (p.desk.matcher.submit 1).2.trades.map Trade.toRef = (p.ref.submit (p.desk.order 1)).2 := by
  have hrun : (Guarded.run Lockstep.call Proper (start 1 4) twoBids).map (fun p =>
      (decide (1 ∈ p.desk.held), (p.desk.order 1).filledQty, decide (p.Proper (.submit 1)),
        decide (p.desk.Accepts 1), (p.desk.matcher.submit 1).2.trades.map (·.makerId)))
      = some (true, 0, true, true, [1, 2]) := by decide +kernel
  obtain ⟨p, hp, hval⟩ := Option.map_eq_some_iff.mp hrun
  simp only [Prod.mk.injEq, decide_eq_true_eq] at hval
  obtain ⟨hheld, h0, hok, hacc, hmakers⟩ := hval
  exact ⟨p, hp, hmakers, ((priceTime_of_reach (.of_run hp)).2.2 1 hheld h0 hok hacc).1⟩

end Lockstep

end Ordbk
