import Ordbk.Refinement.Desk
import Ordbk.Lib.Total
import Mathlib.Algebra.BigOperators.Ring.Finset

/-!
# Theorems/LevelTotals — what a level is said to add up to

`bid_qty_at` and `ask_qty_at` add up 64-bit quantities in a 64-bit total, and quantities come from
outside, up to the largest there is: two orders are enough for a level to be reported empty
(`not_exactAt_of_twoHalves`).  The report is the true sum modulo `2^64`; it is exact, and no
addition on the way wraps, if and only if the true sum is below `2^64` (`exactAt_of_reach`).
`can_fully_fill` walks the same levels and has no such limit, for it counts down.
-/

namespace Ordbk

namespace OrderBook

/-- `bid_qty_at` for buyers, `ask_qty_at` for the others. -/
def sideQtyAt (b : OrderBook) (pool : Pool) (s : Side) (p : Price) : Quantity :=
  if s = .buy then b.bidQtyAt pool p else b.askQtyAt pool p

/-- The orders its loop visits. -/
def visited (b : OrderBook) (pool : Pool) (s : Side) (p : Price) : List Slot :=
  ((if s = .buy then b.bids.find? p else b.asks.find? p).getD {}).slots pool.storage
    (pool.capacity + 1)

end OrderBook

namespace Matcher

/-- The orders at rest on a side at a price. -/
def restingAt (m : Matcher) (s : Side) (p : Price) : List Slot :=
  (m.book.sideSlots m.pool s).filter fun a => (m.pool.storage a).limitPrice = p

/-- **What they have left**, as integers. -/
def trueQty (m : Matcher) (s : Side) (p : Price) : ℤ :=
  ((m.restingAt s p).map fun a =>
    ((m.pool.storage a).initialQty.toNat : ℤ) - (m.pool.storage a).filledQty.toNat).sum

/-- **A level is reported exactly**, and no addition wraps. -/
structure ExactAt (m : Matcher) (s : Side) (p : Price) : Prop where
  /-- The sum is that of the integers, -/
  qty : ((m.book.sideQtyAt m.pool s p).toNat : ℤ) = m.trueQty s p
  /-- and so is every sum on the way to it. -/
  fits : Total.Fits (fun a => (m.pool.storage a).remaining) (m.book.visited m.pool s p)

end Matcher

/-! ## The loop

Both queries are one loop over the orders of a level, adding up in 64 bits. -/

theorem qtyAt_eq {lt : Price → Price → Prop} (levels : OrdMap lt PriceLevel)
    (pool : Pool) (p : Price) :
    qtyAt levels pool p = Total.total (fun a => (pool.storage a).remaining)
      (((levels.find? p).getD {}).slots pool.storage (pool.capacity + 1)) := by
  unfold qtyAt
  cases levels.find? p with
  | none => rfl
  | some level => rfl

theorem OrderBook.sideQtyAt_eq (b : OrderBook) (pool : Pool) (s : Side) (p : Price) :
    b.sideQtyAt pool s p
      = Total.total (fun a => (pool.storage a).remaining) (b.visited pool s p) := by
  unfold sideQtyAt visited
  split_ifs
  · exact qtyAt_eq b.bids pool p
  · exact qtyAt_eq b.asks pool p

/-! ## What is open at a price

The true sum over the orders of a queue at one price. Matching only lowers it, and an order that
comes to rest raises it by what it has left. -/

/-- What the orders of a queue have left at one price. -/
def openAt (p : Price) (l : List Resting) : ℕ :=
  Total.sum (fun e : Resting => e.order.remaining) (queueAt p l)

theorem openAt_cons (p : Price) (e : Resting) (l : List Resting) :
    openAt p (e :: l) = (if e.price = p then e.order.remaining.toNat else 0) + openAt p l := by
  unfold openAt
  rw [queueAt_cons]
  split_ifs
  · exact Total.sum_cons ..
  · exact (Nat.zero_add _).symm

theorem openAt_perm (p : Price) {l l' : List Resting} (h : l.Perm l') : openAt p l = openAt p l' :=
  Total.sum_perm _ (h.filter _)

theorem openAt_le_of_sublist (p : Price) {l l' : List Resting} (h : l.Sublist l') :
    openAt p l ≤ openAt p l' := Total.sum_le_of_sublist _ (h.filter _)

/-- **A sweep** leaves no more at any price than there was. -/
theorem openAt_sweep {t : OrderData} {ms : List Resting} (ht : t.Sound)
    (hms : ∀ m ∈ ms, m.order.Open) (p : Price) : openAt p (sweep t ms).makers ≤ openAt p ms := by
  refine sweep_rec (P := fun _ ms s => openAt p s.makers ≤ openAt p ms) ?_ ?_ ?_ ht hms
  · intro t ms _ _ _
    exact le_rfl
  · intro t m ms s _ _ _ _ _ _ ih
    exact ih.trans (openAt_le_of_sublist p (List.sublist_cons_self m ms))
  · intro t m ms _ hm _ _ hlt
    have hpart : (m.partly t.remaining).order.remaining.toNat ≤ m.order.remaining.toNat := by
      have hle := hm.sound.toNat_remaining_fill (UInt64.le_of_lt hlt)
      exact hle.le.trans (Nat.sub_le _ _)
    rw [openAt_cons, openAt_cons]
    refine Nat.add_le_add_right ?_ _
    change (if m.price = p then _ else 0) ≤ _
    split_ifs
    · exact hpart
    · exact le_rfl

namespace QueueBook

variable {b : QueueBook} {a : Slot} {o : OrderData}

/-- **No level adds up to `2^64`.** -/
def Bounded (b : QueueBook) : Prop := ∀ s p, openAt p (b.side s) < 2 ^ 64

theorem bounded_new (i : InstrumentId) : (QueueBook.mk i [] [] ∅).Bounded := by
  intro s p
  unfold side
  split_ifs <;> exact Nat.two_pow_pos 64

theorem openAt_entered (h : b.WF) (ho : o.Sound) (s : Side) (p : Price) :
    openAt p ((b.entered o).side s) ≤ openAt p (b.side s) := by
  rw [entered, side_swept]
  split_ifs with hs
  · rw [← b.side_congr hs]
    exact openAt_sweep ho h.open p
  · exact le_rfl

/-- An order that comes to rest adds what it has left, at its price on its side. -/
theorem openAt_rest (b : QueueBook) (e : Resting) (s : Side) (p : Price) :
    openAt p ((b.rest e).side s) = openAt p (b.side s)
      + if SameSide e.order.side s ∧ e.price = p then e.order.remaining.toNat else 0 := by
  rw [side_rest]
  by_cases hs : SameSide e.order.side s
  · rw [if_pos hs, openAt_perm p (Priority.enqueue_perm e _), openAt_cons,
      b.side_congr hs, Nat.add_comm]
    simp [hs]
  · rw [if_neg hs, if_neg fun h => hs h.1, Nat.add_zero]

/-- **A submission adds at most the order's quantity**, at its price on its side. -/
theorem openAt_submit (h : b.WF) (ho : o.Sound) (s : Side) (p : Price) :
    openAt p ((b.submit a o).book.side s) ≤ openAt p (b.side s)
      + if SameSide o.side s ∧ o.limitPrice = p then o.initialQty.toNat else 0 := by
  have hent := openAt_entered h ho s p
  have hident : (b.entry o).taker.ident = o.ident := ident_entry h ho
  have hsound := sound_entry h ho
  have hs := submitted b a o
  generalize b.submit a o = r at hs ⊢
  cases hs with
  | rejected _ => exact Nat.le_add_right _ _
  | filled _ _ => exact hent.trans (Nat.le_add_right _ _)
  | dropped _ _ _ => exact hent.trans (Nat.le_add_right _ _)
  | rested _ _ _ =>
    have hside : (b.entry o).taker.side = o.side := congrArg (·.side) hident
    have hprice : (b.entry o).taker.limitPrice = o.limitPrice := congrArg (·.limitPrice) hident
    have hqty : (b.entry o).taker.initialQty = o.initialQty := congrArg (·.initialQty) hident
    have hrem : (b.entry o).taker.remaining.toNat ≤ o.initialQty.toNat := by
      rw [hsound.toNat_remaining, hqty]
      exact Nat.sub_le _ _
    rw [openAt_rest]
    refine Nat.add_le_add hent ?_
    change (if SameSide (b.entry o).taker.side s ∧ (b.entry o).taker.limitPrice = p
      then (b.entry o).taker.remaining.toNat else 0) ≤ _
    rw [hside, hprice]
    split_ifs
    · exact hrem
    · exact le_rfl

theorem Bounded.submit (hb : b.Bounded) (h : b.WF) (ho : o.Sound)
    (hroom : openAt o.limitPrice (b.side o.side) + o.initialQty.toNat < 2 ^ 64) :
    (b.submit a o).book.Bounded := by
  intro s p
  refine Nat.lt_of_le_of_lt (openAt_submit h ho s p) ?_
  split_ifs with hown
  · obtain ⟨hs, rfl⟩ := hown
    rwa [← b.side_congr hs]
  · exact hb s p

theorem Bounded.cancel (hb : b.Bounded) (h : b.WF) (id : OrderId) : (b.cancel id).1.Bounded := by
  intro s p
  unfold QueueBook.cancel
  cases hl : b.index.lookup id with
  | none => exact hb s p
  | some loc =>
    change openAt p ((b.remove id loc).side s) < _
    rw [side_remove_eq h hl]
    exact Nat.lt_of_le_of_lt (openAt_le_of_sublist p List.filter_sublist) (hb s p)

end QueueBook

/-! ## A matcher

What the loop visits is the queue at that price, and nobody in it is overfilled. -/

section Rep

variable {m : Matcher} {b : QueueBook}

theorem visited_eq (h : BookRep m.pool.storage m.book b) (hcap : b.slots.length ≤ m.pool.capacity)
    (s : Side) (p : Price) : m.book.visited m.pool s p = (queueAt p (b.side s)).map (·.slot) := by
  have hlen : b.bids.length + b.asks.length ≤ m.pool.capacity := by
    simpa [QueueBook.slots, QueueBook.resting] using hcap
  unfold OrderBook.visited QueueBook.side
  split_ifs
  · exact h.bids.slots_getD (by omega) p
  · exact h.asks.slots_getD (by omega) p

theorem restingAt_eq (h : BookRep m.pool.storage m.book b) (hw : b.WF)
    (hcap : b.slots.length ≤ m.pool.capacity) (s : Side) (p : Price) :
    m.restingAt s p = (queueAt p (b.side s)).map (·.slot) := by
  rw [Matcher.restingAt, h.sideSlots_eq hw.sorted hcap, List.filter_map, queueAt]
  refine congrArg (List.map _) (List.filter_congr fun e he => ?_)
  have hdata : (m.pool.storage e.slot).toOrderData = e.order := h.data_side he
  change decide ((m.pool.storage e.slot).toOrderData.limitPrice = p) = _
  rw [hdata]
  rfl

/-- The remaining quantities, as the loop reads them. -/
theorem sum_remaining (h : BookRep m.pool.storage m.book b) (s : Side) (p : Price) :
    Total.sum (fun a => (m.pool.storage a).remaining) ((queueAt p (b.side s)).map (·.slot))
      = openAt p (b.side s) := by
  unfold Total.sum openAt Total.sum
  rw [List.map_map]
  refine congrArg List.sum (List.map_congr_left fun e he => ?_)
  have hdata : (m.pool.storage e.slot).toOrderData = e.order := h.data_side (mem_queueAt.mp he).1
  change (m.pool.storage e.slot).toOrderData.remaining.toNat = _
  rw [hdata]

/-- **Nobody is overfilled**: what is left, read in 64 bits, is what is left. -/
theorem trueQty_eq (h : BookRep m.pool.storage m.book b) (hw : b.WF)
    (hcap : b.slots.length ≤ m.pool.capacity) (s : Side) (p : Price) :
    m.trueQty s p = openAt p (b.side s) := by
  rw [Matcher.trueQty, restingAt_eq h hw hcap, openAt, Total.sum, List.map_map]
  rw [Nat.cast_list_sum, List.map_map]
  refine congrArg List.sum (List.map_congr_left fun e he => ?_)
  have hmem := (mem_queueAt.mp he).1
  have hdata : (m.pool.storage e.slot).toOrderData = e.order := h.data_side hmem
  have hsound := (hw.open e hmem).sound
  change ((m.pool.storage e.slot).toOrderData.initialQty.toNat : ℤ)
    - (m.pool.storage e.slot).toOrderData.filledQty.toNat = ((e.order.remaining.toNat : ℕ) : ℤ)
  rw [hdata, hsound.toNat_remaining, Nat.cast_sub hsound.toNat_le]

/-- **A level is reported exactly** if and only if its true sum is below `2^64`. -/
theorem exactAt_iff (h : BookRep m.pool.storage m.book b) (hw : b.WF)
    (hcap : b.slots.length ≤ m.pool.capacity) (s : Side) (p : Price) :
    m.ExactAt s p ↔ m.trueQty s p < 2 ^ 64 := by
  have htrue := trueQty_eq h hw hcap s p
  have hsum : Total.sum (fun a => (m.pool.storage a).remaining) (m.book.visited m.pool s p)
      = openAt p (b.side s) := by rw [visited_eq h hcap, sum_remaining h]
  rw [htrue]
  constructor
  · rintro ⟨hqty, -⟩
    rw [htrue] at hqty
    rw [← hqty]
    exact_mod_cast (m.book.sideQtyAt m.pool s p).toNat_lt
  · intro hlt
    have hlt' : openAt p (b.side s) < 2 ^ 64 := by exact_mod_cast hlt
    refine ⟨?_, (Total.fits_iff _).mpr (hsum ▸ hlt')⟩
    rw [htrue, OrderBook.sideQtyAt_eq, (Total.toNat_total_eq_iff _).mpr (hsum ▸ hlt'), hsum]

end Rep

/-! ## Runs

In every state the report is right precisely for the levels that stay below `2^64`. -/

namespace Desk

variable {d : Desk} {i : InstrumentId} {capacity : ℕ}

/-- There is room for what is submitted at its price. -/
def Room (d : Desk) : Call → Prop
  | .submit a => d.matcher.trueQty (d.order a).side (d.order a).limitPrice
      + (d.order a).initialQty.toNat < 2 ^ 64
  | _ => True

instance (d : Desk) : DecidablePred d.Room
  | .submit _ => inferInstanceAs (Decidable (_ < _))
  | .acquire | .write _ _ | .cancel _ | .cancelAll | .release _ => isTrue trivial

/-- One call. -/
theorem bounded_next {d' : Desk} {b : QueueBook} {c : Call} (h : d.Inv b) (hb : b.Bounded)
    (hok : d.Room c) (hc : d.call c = some d') : (d.next b c).Bounded := by
  cases c with
  | submit a =>
    obtain ⟨⟨-, h0⟩, -⟩ : (a ∈ d.held ∧ (d.order a).filledQty = 0) ∧ d.submit a = d' := by
      simpa [Desk.call] using hc
    refine hb.submit h.wf (OrderData.sound_of_fresh h0) ?_
    have hroom : d.matcher.trueQty (d.order a).side (d.order a).limitPrice
      + (d.order a).initialQty.toNat < 2 ^ 64 := hok
    rw [trueQty_eq h.rep h.wf h.length_le] at hroom
    exact_mod_cast hroom
  | cancel id => exact hb.cancel h.wf id
  | cancelAll => exact QueueBook.bounded_new _
  | acquire => exact hb
  | write a o => exact hb
  | release a => exact hb

/-- **When levels are reported exactly**: in every state of every run, precisely those that add up
to less than `2^64`; and all of them, always, in a run whose submissions leave room at their price.
-/
theorem exactAt_of_reach (h : Guarded.Reach Desk.call (fun _ _ => True) (start i capacity) d) :
    (∀ s p, d.matcher.ExactAt s p ↔ d.matcher.trueQty s p < 2 ^ 64)
      ∧ (Guarded.Reach Desk.call Room (start i capacity) d → ∀ s p, d.matcher.ExactAt s p) := by
  obtain ⟨b, hb, -⟩ := exists_inv (J := fun _ => True) trivial (fun _ _ _ _ _ _ _ _ => trivial) h
  refine ⟨exactAt_iff hb.rep hb.wf hb.length_le, fun hroom s p => ?_⟩
  obtain ⟨b, hb, -, hbounded⟩ := exists_inv (J := QueueBook.Bounded) (QueueBook.bounded_new i)
    (fun _ _ _ _ hb hbounded hok hc => bounded_next hb hbounded hok hc) hroom
  rw [exactAt_iff hb.rep hb.wf hb.length_le, trueQty_eq hb.rep hb.wf hb.length_le]
  exact_mod_cast hbounded s p

/-- A bid for `q`. -/
def bidFor (id : OrderId) (q : Quantity) : Order :=
  { id, limitPrice := 100, initialQty := q, instrument := 1 }

/-- The largest order there is, and one that takes a unit of it. -/
theorem exactAt_of_largest : ∃ d, Guarded.Reach Desk.call (fun _ _ => True) (start 1 2) d
    ∧ d.matcher.book.bidQtyAt d.matcher.pool 100 = 18446744073709551614
    ∧ ∀ s p, d.matcher.ExactAt s p := by
  have hrun : (Guarded.run Desk.call Room (start 1 2)
      [.acquire, .write 1 (bidFor 7 18446744073709551615), .submit 1, .acquire,
        .write 0 { bidFor 8 1 with side := .sell }, .submit 0]).map
      (fun d => decide (d.matcher.book.bidQtyAt d.matcher.pool 100 = 18446744073709551614))
        = some true := by decide +kernel
  obtain ⟨d, hd, hqty⟩ := Option.map_eq_some_iff.mp hrun
  have hroom := Guarded.Reach.of_run hd
  have hreach : Guarded.Reach Desk.call (fun _ _ => True) (start 1 2) d :=
    hroom.mono fun _ _ _ => trivial
  exact ⟨d, hreach, of_decide_eq_true hqty, (exactAt_of_reach hreach).2 hroom⟩

/-- **Two halves make nothing**: two bids for `2^63` each rest at 100, and the level is reported as
0. -/
theorem not_exactAt_of_twoHalves :
    ∃ d, Guarded.Reach Desk.call (fun _ _ => True) (start 1 2) d
      ∧ d.matcher.book.bestBid = some 100 ∧ d.matcher.book.bidQtyAt d.matcher.pool 100 = 0
      ∧ d.matcher.trueQty .buy 100 = 2 ^ 64 ∧ ¬ d.matcher.ExactAt .buy 100 := by
  have hrun : (Guarded.run Desk.call (fun _ _ => True) (start 1 2)
      [.acquire, .write 1 (bidFor 7 9223372036854775808), .submit 1, .acquire,
        .write 0 (bidFor 8 9223372036854775808), .submit 0]).map
      (fun d => decide (d.matcher.book.bestBid = some 100
        ∧ d.matcher.book.bidQtyAt d.matcher.pool 100 = 0 ∧ d.matcher.trueQty .buy 100 = 2 ^ 64))
        = some true := by decide +kernel
  obtain ⟨d, hd, hval⟩ := Option.map_eq_some_iff.mp hrun
  obtain ⟨hbest, hqty, htrue⟩ := of_decide_eq_true hval
  refine ⟨d, .of_run hd, hbest, hqty, htrue, fun hexact => ?_⟩
  have hzero : ((d.matcher.book.bidQtyAt d.matcher.pool 100).toNat : ℤ) = 2 ^ 64 :=
    hexact.qty.trans htrue
  rw [hqty] at hzero
  exact absurd hzero (by decide)

end Desk

end Ordbk
