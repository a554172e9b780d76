import Mathlib.Algebra.Order.Ring.Int
import Ordbk.Lib.Greedy
import Ordbk.Theorems.Futures

/-!
# Theorems/BestExecution — as much as crosses, and nowhere cheaper

An order that is not refused trades all there is at the prices it accepts, up to its quantity; and
in no other way could as much be bought for less, or sold for more, from the orders at rest
(`bestExecution_of_reach`).
-/

namespace Ordbk

/-- What a list of executions comes to. -/
def notional (ts : List Trade) : ℤ := (ts.map fun x => (x.quantity.toNat : ℤ) * x.price).sum

@[simp] theorem notional_nil : notional [] = 0 := rfl

@[simp] theorem notional_cons (x : Trade) (ts : List Trade) :
    notional (x :: ts) = x.quantity.toNat * x.price + notional ts := List.sum_cons

/-- What an order at rest offers. -/
def Interest.offer (i : Interest) : ℤ × ℕ := (i.price, i.remaining.toNat)

/-- How much of it is there for a taker. -/
def crossing (t : OrderData) (is : List Interest) : ℕ :=
  (is.map fun i => if Matcher.blocked t i.price then 0 else i.remaining.toNat).sum

/-- It depends on the order's terms only. -/
theorem crossing_congr {t t' : OrderData} (h : t.ident = t'.ident) (is : List Interest) :
    crossing t is = crossing t' is := by
  unfold crossing
  simp only [blocked_congr h]

/-- An offer the taker accepts counts in full. -/
theorem crossing_cons {t : OrderData} {i : Interest} (is : List Interest)
    (hb : Matcher.blocked t i.price = false) :
    crossing t (i :: is) = i.remaining.toNat + crossing t is := by
  rw [crossing, List.map_cons, List.sum_cons, hb]
  rfl

/-- Nobody cheap enough, nothing there. -/
theorem crossing_eq_zero {t : OrderData} {is : List Interest}
    (h : ∀ i ∈ is, Matcher.blocked t i.price = true) : crossing t is = 0 := by
  induction is with
  | nil => rfl
  | cons i is ih =>
    obtain ⟨hi, his⟩ := List.forall_mem_cons.mp h
    rw [crossing, List.map_cons, List.sum_cons, if_pos hi]
    exact (Nat.zero_add _).trans (ih his)

section Sweep

variable {t : OrderData} {ms : List Resting}

/-- **A sweep fills from the front.** -/
theorem notional_sweep (ht : t.Sound) (hms : ∀ m ∈ ms, m.order.Open) :
    notional (sweep t ms).trades
      = Greedy.cost (Greedy.fill (tradedQty (sweep t ms).trades) (ms.map (·.order.interest.offer)))
          (ms.map (·.order.interest.offer)) := by
  refine sweep_rec (P := fun _ ms s => notional s.trades
    = Greedy.cost (Greedy.fill (tradedQty s.trades) (ms.map (·.order.interest.offer)))
        (ms.map (·.order.interest.offer))) ?_ ?_ ?_ ht hms
  · intro _ ms _ _ _
    rw [tradedQty_nil, notional_nil, Greedy.cost_fill_zero]
  · intro t m ms s _ _ _ _ _ _ ih
    have hmin : min (m.order.remaining.toNat + tradedQty s.trades) m.order.remaining.toNat
        = m.order.remaining.toNat := Nat.min_eq_right (Nat.le_add_right _ _)
    rw [notional_cons, tradedQty_cons, ih, List.map_cons, Greedy.fill, Greedy.cost]
    simp only [tradeOf, Interest.offer, OrderData.interest, hmin, Nat.add_sub_cancel_left]
  · intro t m ms _ _ _ _ hlt
    rw [UInt64.lt_iff_toNat_lt] at hlt
    rw [notional_cons, notional_nil, tradedQty_cons, tradedQty_nil, List.map_cons, Greedy.fill,
      Greedy.cost]
    simp only [tradeOf, Interest.offer, OrderData.interest, Nat.add_zero, Nat.min_eq_left hlt.le,
      Nat.sub_eq_zero_of_le hlt.le, Greedy.cost_fill_zero]

/-- A taker that stops with something left finds nobody cheap enough. -/
theorem blocked_of_stops (hs : Stops t ms) (h0 : t.remaining ≠ 0)
    (hsorted : Priority.Sorted Resting.price (better (opposite t.side)) ms) :
    ∀ i ∈ ms.map (·.order.interest), Matcher.blocked t i.price = true := by
  have hno := QueueBook.pricesCross_eq_false_of_stops hs h0 hsorted
  cases ms with
  | nil => exact fun i hi => by cases hi
  | cons m ms =>
    have hb : Matcher.blocked t m.price = true := hs.resolve_left h0 m rfl
    rw [Matcher.blocked, Bool.and_eq_true] at hb
    refine List.forall_mem_map.mpr fun f hf => ?_
    change Matcher.blocked t f.price = true
    rw [Matcher.blocked, Bool.and_eq_true, hno f hf]
    exact ⟨hb.1, rfl⟩

/-- **A sweep takes all that crosses**, up to what the taker needs. -/
theorem tradedQty_sweep (ht : t.Sound) (hms : ∀ m ∈ ms, m.order.Open)
    (hsorted : Priority.Sorted Resting.price (better (opposite t.side)) ms) :
    tradedQty (sweep t ms).trades = min t.remaining.toNat
      (crossing t (ms.map (·.order.interest))) := by
  revert hsorted
  refine sweep_rec (P := fun t ms s => Priority.Sorted Resting.price (better (opposite t.side)) ms →
    tradedQty s.trades = min t.remaining.toNat (crossing t (ms.map (·.order.interest))))
    ?_ ?_ ?_ ht hms
  · intro t ms _ _ hs hsorted
    by_cases h0 : t.remaining = 0
    · rw [h0, UInt64.toNat_zero, Nat.zero_min]
      rfl
    · rw [crossing_eq_zero (blocked_of_stops hs h0 hsorted), Nat.min_zero]
      rfl
  · intro t m ms s ht hm _ hs hle _ ih hsorted
    have hrem := ht.toNat_remaining_fill hle
    rw [UInt64.le_iff_toNat_le] at hle
    rw [tradedQty_cons, ih (Priority.sorted_cons.mp hsorted).2, hrem,
      crossing_congr (OrderData.ident_fill t m.order.remaining), List.map_cons,
      crossing_cons _ (not_stops_cons.mp hs).2]
    change m.order.remaining.toNat + _ = min _ (m.order.remaining.toNat + _)
    omega
  · intro t m ms _ _ _ hs hlt _
    rw [UInt64.lt_iff_toNat_lt] at hlt
    rw [tradedQty_cons, tradedQty_nil, List.map_cons, crossing_cons _ (not_stops_cons.mp hs).2]
    change t.remaining.toNat + 0 = min _ (m.order.remaining.toNat + _)
    omega

/-- The offers of a side ascend for a buyer and descend for a seller. -/
theorem sorted_offers {s : Side} (hsorted : Priority.Sorted Resting.price (better s) ms) :
    if s = .buy then ((ms.map (·.order.interest.offer)).map Prod.fst).Pairwise (· ≥ ·)
    else ((ms.map (·.order.interest.offer)).map Prod.fst).Pairwise (· ≤ ·) := by
  have hmap : (ms.map (·.order.interest.offer)).map Prod.fst = ms.map Resting.price := by
    rw [List.map_map]
    rfl
  have hprices := Priority.sorted_iff_map.mp hsorted
  rw [hmap]
  split_ifs with hs
  · refine hprices.imp fun hnot => ?_
    rw [hs, better_buy] at hnot
    exact not_lt.mp hnot
  · have hsell : SameSide s .sell := ⟨fun h => absurd h hs, fun h => by cases h⟩
    refine hprices.imp fun hnot => ?_
    rw [better_congr hsell, better_sell] at hnot
    exact not_lt.mp hnot

end Sweep

/-! ## The result

Any other way of taking as much is a list of amounts, one for each offer and none above it; the
exchange argument is `Greedy.cost_fill_le`. -/

namespace Desk

variable {d : Desk}

/-- **Best execution.**  The executions of an order that is not refused take as much as its quantity
and the prices it accepts allow.  Whatever else adds up to the same quantity, within what remains of
the orders at rest on the other side, costs a buyer at least as much and earns a seller at most as
much. -/
theorem bestExecution_of_reach {i : InstrumentId} {capacity : ℕ} {a : Slot}
    (h : Guarded.Reach Desk.call (fun _ _ => True) (start i capacity) d) (ha : a ∈ d.held)
    (h0 : (d.order a).filledQty = 0) (hacc : ((d.submit a).order a).status ≠ .rejected) :
    let o := d.order a
    let ts := (d.matcher.submit a).2.trades
    let offers := (d.interests (opposite o.side)).map Interest.offer
    tradedQty ts = min o.initialQty.toNat (crossing o (d.interests (opposite o.side)))
      ∧ ∀ xs, Greedy.Within xs offers → xs.sum = tradedQty ts →
        if o.side = .buy then notional ts ≤ Greedy.cost xs offers
        else Greedy.cost xs offers ≤ notional ts := by
  intro o ts offers
  obtain ⟨b, hb, -, -⟩ := exists_inv (J := fun _ => True) trivial (fun _ _ _ _ _ _ _ _ => trivial) h
  obtain ⟨-, hafter, hresult⟩ := hb.submit_moves ha h0
  have hafter' : (d.submit a).order a = (b.submit a o).order := hafter
  have hrej : b.rejects o = false := by
    rw [hafter', ne_eq, QueueBook.status_rejected_iff, Bool.not_eq_true] at hacc
    exact hacc
  have hts : ts = (sweep o (b.side (opposite o.side))).trades := by
    refine (congrArg MatchResult.trades hresult).trans ?_
    rw [QueueBook.trades_submit, if_neg (Bool.not_eq_true _ ▸ hrej)]
    rfl
  have hsound : o.Sound := OrderData.sound_of_fresh h0
  have hopen : ∀ m ∈ b.side (opposite o.side), m.order.Open := hb.wf.open
  have hsorted := hb.wf.sorted (opposite o.side)
  have hrem : o.remaining.toNat = o.initialQty.toNat := by
    rw [hsound.toNat_remaining, h0]
    rfl
  have hoffers : offers = (b.side (opposite o.side)).map (·.order.interest.offer) := by
    change (d.interests (opposite o.side)).map _ = _
    rw [hb.interests_eq, QueueBook.interests, List.map_map]
    rfl
  have hvalue : notional ts = Greedy.cost (Greedy.fill (tradedQty ts) offers) offers := by
    rw [hts, hoffers]
    exact notional_sweep hsound hopen
  refine ⟨?_, fun xs hxs hsum => ?_⟩
  · rw [hts, tradedQty_sweep hsound hopen hsorted, hrem, hb.interests_eq]
    rfl
  · have hprices := sorted_offers hsorted
    rw [← hoffers] at hprices
    rw [hvalue, ← hsum]
    by_cases hs : o.side = .buy
    · have hopp : opposite o.side ≠ .buy := by rw [hs]; decide
      rw [if_neg hopp] at hprices
      rw [if_pos hs]
      exact Greedy.cost_fill_le hprices hxs
    · have hopp : opposite o.side = .buy := if_neg hs
      rw [if_pos hopp] at hprices
      rw [if_neg hs]
      exact Greedy.le_cost_fill hprices hxs

/-- Ten are bought from offers of four at 100 and eight at 101, but not the last at 103. -/
theorem bestExecution_of_ten : ∃ d : Desk,
    Guarded.Reach Desk.call (fun _ _ => True) (start 1 8) d
      ∧ d.interests .sell = [⟨1, 100, 4⟩, ⟨2, 101, 8⟩, ⟨3, 103, 5⟩]
      ∧ tradedQty (d.matcher.submit 4).2.trades = 10
      ∧ notional (d.matcher.submit 4).2.trades = 1006
      ∧ (tradedQty (d.matcher.submit 4).2.trades
          = min (d.order 4).initialQty.toNat
              (crossing (d.order 4) (d.interests (opposite (d.order 4).side)))
        ∧ ∀ xs, Greedy.Within xs ((d.interests (opposite (d.order 4).side)).map Interest.offer) →
          xs.sum = tradedQty (d.matcher.submit 4).2.trades →
          if (d.order 4).side = .buy then notional (d.matcher.submit 4).2.trades
            ≤ Greedy.cost xs ((d.interests (opposite (d.order 4).side)).map Interest.offer)
          else Greedy.cost xs ((d.interests (opposite (d.order 4).side)).map Interest.offer)
            ≤ notional (d.matcher.submit 4).2.trades) := by
  have hrun : (Guarded.run Desk.call (fun _ _ => True) (start 1 8)
      [.acquire,
        .write 7 { id := 1, limitPrice := 100, initialQty := 4, instrument := 1, side := .sell },
        .submit 7, .acquire,
        .write 6 { id := 2, limitPrice := 101, initialQty := 8, instrument := 1, side := .sell },
        .submit 6, .acquire,
        .write 5 { id := 3, limitPrice := 103, initialQty := 5, instrument := 1, side := .sell },
        .submit 5, .acquire,
        .write 4
          { id := 4, limitPrice := 102, initialQty := 10, instrument := 1, tif := .ioc }]).map
      (fun d => decide ((4 ∈ d.held ∧ (d.order 4).filledQty = 0
        ∧ ((d.submit 4).order 4).status ≠ .rejected)
        ∧ d.interests .sell = [⟨1, 100, 4⟩, ⟨2, 101, 8⟩, ⟨3, 103, 5⟩]
        ∧ tradedQty (d.matcher.submit 4).2.trades = 10
        ∧ notional (d.matcher.submit 4).2.trades = 1006)) = some true := by decide +kernel
  obtain ⟨d, hd, hval⟩ := Option.map_eq_some_iff.mp hrun
  obtain ⟨⟨hheld, h0, hacc⟩, hint, hqty, hvalue⟩ := of_decide_eq_true hval
  have hd := Guarded.Reach.of_run hd
  exact ⟨d, hd, hint, hqty, hvalue, bestExecution_of_reach hd hheld h0 hacc⟩

end Desk

end Ordbk
