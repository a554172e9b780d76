import Mathlib.Algebra.Order.BigOperators.Group.List
import Ordbk.Theorems.BestExecution

/-!
# Theorems/Splitting — an immediate order in parts

The market does not tell whether an immediate order comes whole or in parts: the parts together take
as much, at the same cost, and leave the same queues (`split_of_traces`).
-/

namespace Ordbk

/-- One part of an immediate order: like the whole, but for its id, its quantity and its owner. -/
structure OrderData.Part (o p : OrderData) : Prop where
  /-- Nothing of it has been filled. -/
  fresh : p.filledQty = 0
  /-- It is for something. -/
  wanted : p.initialQty ≠ 0
  /-- On the same book, side and terms as the whole, -/
  instrument : p.instrument = o.instrument
  /-- for the same side, -/
  side : p.side = o.side
  /-- of the same kind, -/
  type : p.type = o.type
  /-- at the same limit, -/
  price : p.limitPrice = o.limitPrice
  /-- and immediate. -/
  tif : p.tif = .ioc

/-- What executions cost adds up. -/
theorem notional_append (ts us : List Trade) : notional (ts ++ us) = notional ts + notional us := by
  rw [notional, List.map_append, List.sum_append]
  rfl

/-! ## Taking from the front of a queue

Seen through the interests, an immediate order takes a number of units from the front of the other
side. Taking `m` and then `n` is taking `m + n`: that is all there is to splitting an order. -/

/-- What a queue shows once `n` has been taken from its front. -/
def deplete : ℕ → List Interest → List Interest
  | _, [] => []
  | n, i :: is =>
    if i.remaining.toNat ≤ n then deplete (n - i.remaining.toNat) is
    else { i with remaining := i.remaining - UInt64.ofNat n } :: is

section Deplete

variable {i : Interest} {is : List Interest} {m n : ℕ} {t : OrderData}

/-- Taking off no more than there is, in 64 bits, -/
theorem toNat_sub_ofNat {q : Quantity} (h : n ≤ q.toNat) :
    (q - UInt64.ofNat n).toNat = q.toNat - n := by
  have hn : (UInt64.ofNat n).toNat = n :=
    UInt64.toNat_ofNat_of_lt' (h.trans_lt q.toNat_lt)
  rw [UInt64.toNat_sub_of_le _ _ (UInt64.le_iff_toNat_le.mpr (hn.symm ▸ h)), hn]

/-- and twice in a row. -/
theorem sub_ofNat_add {q : Quantity} (h : m + n ≤ q.toNat) :
    q - UInt64.ofNat m - UInt64.ofNat n = q - UInt64.ofNat (m + n) := by
  have hm : m ≤ q.toNat := Nat.le_of_add_right_le h
  have hn : n ≤ (q - UInt64.ofNat m).toNat := by
    rw [toNat_sub_ofNat hm]
    omega
  rw [← UInt64.toNat_inj, toNat_sub_ofNat hn, toNat_sub_ofNat hm, toNat_sub_ofNat h, Nat.sub_sub]

/-- Nothing is taken from orders that have something left. -/
theorem deplete_zero (h : ∀ i ∈ is, i.remaining ≠ 0) : deplete 0 is = is := by
  cases is with
  | nil => rfl
  | cons i is =>
    have hi : ¬ i.remaining.toNat ≤ 0 := fun hle =>
      h i (List.mem_cons_self ..) (UInt64.toNat_inj.mp (Nat.le_zero.mp hle))
    rw [deplete, if_neg hi]
    exact congrArg (fun q => { i with remaining := q } :: is) (UInt64.sub_zero i.remaining)

/-- **Taking twice** is taking the sum. -/
theorem deplete_deplete (m n : ℕ) (is : List Interest) :
    deplete n (deplete m is) = deplete (m + n) is := by
  induction is generalizing m with
  | nil => rfl
  | cons i is ih =>
    by_cases hm : i.remaining.toNat ≤ m
    · have hsub : m + n - i.remaining.toNat = m - i.remaining.toNat + n := by omega
      rw [deplete, deplete, if_pos hm, if_pos (hm.trans (Nat.le_add_right m n)), hsub, ih]
    · have hrest : (i.remaining - UInt64.ofNat m).toNat = i.remaining.toNat - m :=
        toNat_sub_ofNat (Nat.lt_of_not_le hm).le
      rw [deplete, deplete, if_neg hm, deplete, hrest]
      by_cases hn : i.remaining.toNat ≤ m + n
      · have hle : i.remaining.toNat - m ≤ n := by omega
        have hsub : n - (i.remaining.toNat - m) = m + n - i.remaining.toNat := by omega
        rw [if_pos hn, if_pos hle, hsub]
      · have hle : ¬ i.remaining.toNat - m ≤ n := by omega
        rw [if_neg hn, if_neg hle]
        exact congrArg (fun q => { i with remaining := q } :: is)
          (sub_ofNat_add (Nat.lt_of_not_le hn).le)

/-- As the offers of the greedy buyer, it is what the purchase leaves. -/
theorem offer_deplete (n : ℕ) (is : List Interest) :
    (deplete n is).map Interest.offer = Greedy.left n (is.map Interest.offer) := by
  induction is generalizing n with
  | nil => rfl
  | cons i is ih =>
    rw [deplete, List.map_cons, Greedy.left]
    change _ = if i.remaining.toNat ≤ n then _ else _
    split_ifs with hle
    · exact ih _
    · rw [List.map_cons]
      exact congrArg (fun q => (i.price, q) :: is.map Interest.offer)
        (toNat_sub_ofNat (Nat.lt_of_not_le hle).le)

/-- Whoever is too expensive has only such behind. -/
def Ascending (t : OrderData) (is : List Interest) : Prop :=
  is.Pairwise fun i j => Matcher.blocked t i.price = true → Matcher.blocked t j.price = true

/-- **What crosses is taken first**, and the rest of it is left. -/
theorem crossing_deplete (hasc : Ascending t is) (hn : n ≤ crossing t is) :
    crossing t (deplete n is) = crossing t is - n := by
  induction is generalizing n with
  | nil => exact (Nat.zero_sub n).symm
  | cons i is ih =>
    obtain ⟨hi, hasc⟩ := List.pairwise_cons.mp hasc
    by_cases hb : Matcher.blocked t i.price = true
    · have hall : ∀ j ∈ i :: is, Matcher.blocked t j.price = true :=
        List.forall_mem_cons.mpr ⟨hb, fun j hj => hi j hj hb⟩
      rw [crossing_eq_zero hall] at hn ⊢
      obtain rfl := Nat.le_zero.mp hn
      rw [deplete]
      split_ifs with hle
      · rw [Nat.zero_sub, ih hasc (Nat.zero_le _),
          crossing_eq_zero (List.forall_mem_cons.mp hall).2]
      · exact crossing_eq_zero (List.forall_mem_cons.mpr ⟨hb, (List.forall_mem_cons.mp hall).2⟩)
    · have hb : Matcher.blocked t i.price = false := Bool.eq_false_of_not_eq_true hb
      rw [crossing_cons _ hb] at hn ⊢
      rw [deplete]
      split_ifs with hle
      · rw [ih hasc (by omega)]
        omega
      · rw [crossing_cons _ (i := { i with remaining := i.remaining - UInt64.ofNat n }) hb]
        change (i.remaining - UInt64.ofNat n).toNat + _ = _
        rw [toNat_sub_ofNat (Nat.lt_of_not_le hle).le]
        omega

/-- **A sweep takes from the front.** -/
theorem interest_sweep {ms : List Resting} (ht : t.Sound) (hms : ∀ m ∈ ms, m.order.Open) :
    (sweep t ms).makers.map (·.order.interest)
      = deplete (tradedQty (sweep t ms).trades) (ms.map (·.order.interest)) := by
  refine sweep_rec (P := fun _ ms s => s.makers.map (·.order.interest)
    = deplete (tradedQty s.trades) (ms.map (·.order.interest))) ?_ ?_ ?_ ht hms
  · intro _ ms _ hms _
    refine (deplete_zero fun i hi => ?_).symm
    obtain ⟨m, hm, rfl⟩ := List.mem_map.mp hi
    exact (hms m hm).remaining_ne_zero
  · intro t m ms s _ _ _ _ _ _ ih
    rw [tradedQty_cons, List.map_cons, deplete]
    change _
      = if m.order.remaining.toNat ≤ m.order.remaining.toNat + tradedQty s.trades then _ else _
    rw [if_pos (Nat.le_add_right _ _)]
    change _ = deplete (m.order.remaining.toNat + tradedQty s.trades - m.order.remaining.toNat) _
    rw [Nat.add_sub_cancel_left]
    exact ih
  · intro t m ms _ _ _ _ hlt
    rw [UInt64.lt_iff_toNat_lt] at hlt
    rw [tradedQty_cons, tradedQty_nil, List.map_cons, List.map_cons, deplete]
    change _ = if m.order.remaining.toNat ≤ t.remaining.toNat + 0 then _ else _
    rw [if_neg (by omega)]
    refine congrArg (· :: ms.map (·.order.interest)) ?_
    change Interest.mk m.order.id m.order.limitPrice (m.order.fill t.remaining).remaining
      = ⟨m.order.id, m.order.limitPrice, m.order.remaining - UInt64.ofNat t.remaining.toNat⟩
    rw [remaining_fill, UInt64.ofNat_toNat]

end Deplete

/-! ## Parts of an order

A part meets the same price test as the whole, so what crosses for one crosses for the other; only
how much is wanted differs. -/

/-- The same makers are within reach of a part. -/
theorem OrderData.Part.crossing_eq {o p : OrderData} (hp : o.Part p) (is : List Interest) :
    crossing p is = crossing o is := by
  unfold crossing Matcher.blocked
  simp only [hp.type, hp.side, hp.price]

namespace QueueBook

variable {b c : QueueBook} {a : Slot} {o p : OrderData}

/-- How much an immediate order for `q` takes. -/
def taken (b : QueueBook) (o : OrderData) (q : ℕ) : ℕ :=
  if b.rejects o then 0 else min q (crossing o (b.interests (opposite o.side)))

/-- A part is refused where the whole is. -/
theorem rejects_part (hp : o.Part p) (hq : o.initialQty ≠ 0) (hioc : o.tif = .ioc)
    (hi : c.instrument = b.instrument) : c.rejects p = b.rejects o := by
  have hgtc : (TimeInForce.ioc == TimeInForce.gtc) = false := rfl
  have hday : (TimeInForce.ioc == TimeInForce.day) = false := rfl
  have hfok : (TimeInForce.ioc == TimeInForce.fok) = false := rfl
  have hq' : (o.initialQty == 0) = (p.initialQty == 0) := by
    rw [beq_eq_false_iff_ne.mpr hq, beq_eq_false_iff_ne.mpr hp.wanted]
  simp only [rejects, hp.instrument, hp.type, hp.price, hp.tif, hioc, hi, hgtc, hday, hfok, hq',
    Bool.or_false, Bool.and_false, Bool.false_and]

/-- A side is sorted: whoever is out of reach has only such behind. -/
theorem ascending_interests (hw : b.WF) : Ascending o (b.interests (opposite o.side)) := by
  refine List.pairwise_map.mpr ((hw.sorted (opposite o.side)).imp fun {m f} hnot hb => ?_)
  change Matcher.blocked o f.price = true
  change Matcher.blocked o m.price = true at hb
  simp only [Matcher.blocked, pricesCross, Bool.and_eq_true, Bool.not_eq_true'] at hb ⊢
  refine ⟨hb.1, ?_⟩
  by_cases hs : o.side = .buy
  · simp only [hs, if_true, opposite, better_sell, decide_eq_false_iff_not] at hb hnot ⊢
    exact fun hle => hb.2 ((not_lt.mp hnot).trans hle)
  · simp only [hs, if_false, opposite, better_buy, decide_eq_false_iff_not] at hb hnot ⊢
    exact fun hle => hb.2 (hle.trans (not_lt.mp hnot))

/-- Everybody in a queue has something left. -/
theorem remaining_interests (hw : b.WF) {s : Side} : ∀ i ∈ b.interests s, i.remaining ≠ 0 := by
  intro i hi
  obtain ⟨e, he, rfl⟩ := List.mem_map.mp hi
  exact (hw.open e he).remaining_ne_zero

/-- The queues after an immediate order has taken `n`. -/
def Took (b : QueueBook) (o : OrderData) (n : ℕ) (ts : List Trade) (c : QueueBook) : Prop :=
  tradedQty ts = n
    ∧ notional ts = Greedy.cost (Greedy.fill n ((b.interests (opposite o.side)).map Interest.offer))
        ((b.interests (opposite o.side)).map Interest.offer)
    ∧ ∀ s, c.interests s
      = if SameSide (opposite o.side) s then deplete n (b.interests s) else b.interests s

/-- Nothing taken. -/
theorem took_zero (hw : b.WF) (o : OrderData) : b.Took o 0 [] b := by
  refine ⟨rfl, (Greedy.cost_fill_zero _).symm, fun s => ?_⟩
  rw [deplete_zero (remaining_interests hw), ite_self]

/-- **One immediate order.** -/
theorem took_submit (hw : b.WF) (h0 : o.filledQty = 0) (hioc : o.tif = .ioc) (a : Slot) :
    b.Took o (b.taken o o.initialQty.toNat) (b.submit a o).trades (b.submit a o).book := by
  have hsound := OrderData.sound_of_fresh h0
  unfold taken
  by_cases hrej : b.rejects o = true
  · rw [if_pos hrej, submit, if_pos hrej]
    exact took_zero hw o
  have hbook : (b.submit a o).book = b.entered o := by
    rw [submit, if_neg hrej]
    split_ifs with hfull hdrop
    · rfl
    · rfl
    · exact absurd (.inr hioc) hdrop
  have htrades : (b.submit a o).trades = (b.entry o).trades := by
    rw [trades_submit, if_neg hrej]
  have hrem : o.remaining = o.initialQty := remaining_of_fresh h0
  have hqty : tradedQty (b.entry o).trades
      = min o.initialQty.toNat (crossing o (b.interests (opposite o.side))) := by
    rw [← hrem]
    exact tradedQty_sweep hsound hw.open (hw.sorted _)
  rw [if_neg hrej, hbook, htrades, ← hqty]
  refine ⟨rfl, ?_, fun s => ?_⟩
  · rw [interests, List.map_map]
    exact notional_sweep hsound hw.open
  · unfold interests
    rw [entered, side_swept]
    split_ifs with hs
    · rw [← b.side_congr hs]
      exact interest_sweep hsound hw.open
    · rfl

/-- **One part and then the rest** are the whole. -/
theorem Took.trans {m q : ℕ} {ts us : List Trade} {b' : QueueBook} (hw : b.WF) (hp : o.Part p)
    (h : b.Took p (b.taken o m) ts c) (h' : c.Took o (c.taken o q) us b')
    (hrej : c.rejects o = b.rejects o) : b.Took o (b.taken o (m + q)) (ts ++ us) b' := by
  obtain ⟨hqty, hcost, hint⟩ := h
  obtain ⟨hqty', hcost', hint'⟩ := h'
  rw [hp.side] at hcost hint
  have hopp : c.interests (opposite o.side)
      = deplete (b.taken o m) (b.interests (opposite o.side)) := by
    rw [hint, if_pos (show SameSide _ _ from Iff.rfl)]
  have hsum : b.taken o m + c.taken o q = b.taken o (m + q) := by
    unfold taken at hopp ⊢
    rw [hrej]
    by_cases hr : b.rejects o = true
    · rw [if_pos hr, if_pos hr, if_pos hr]
    · rw [if_neg hr] at hopp
      rw [if_neg hr, if_neg hr, if_neg hr, hopp, crossing_deplete (ascending_interests hw)
        (Nat.min_le_right _ _)]
      omega
  refine ⟨?_, ?_, fun s => ?_⟩
  · rw [tradedQty_append, hqty, hqty', hsum]
  · rw [notional_append, hcost, hcost', hopp, offer_deplete, ← hsum, Greedy.cost_fill_add]
  · rw [hint', hint]
    split_ifs
    · rw [deplete_deplete, hsum]
    · rfl

/-- **Part after part.** -/
theorem took_of_path {ps : List OrderData} {M : List Played} {t : Option QueueBook} (hw : b.WF)
    (hq : o.initialQty ≠ 0) (hioc : o.tif = .ioc) (hps : ∀ p ∈ ps, o.Part p)
    (h : Guarded.Path Answers (some b) M t) (hM : M.map Played.call = ps.map .submit) :
    ∃ b', t = some b' ∧ b.Took o (b.taken o (ps.map (·.initialQty.toNat)).sum)
      (M.flatMap Played.trades) b' := by
  induction ps generalizing b M with
  | nil =>
    obtain rfl := List.map_eq_nil_iff.mp hM
    cases h
    refine ⟨b, rfl, ?_⟩
    have hnone : b.taken o 0 = 0 := by
      unfold taken
      rw [Nat.zero_min, ite_self]
    rw [List.map_nil, List.sum_nil, hnone]
    exact took_zero hw o
  | cons p ps ih =>
    obtain ⟨x, M, rfl, hx, hcalls⟩ := List.map_eq_cons_iff.mp hM
    obtain ⟨t₁, hans, h⟩ := h.uncons
    obtain ⟨hp, hps'⟩ := List.forall_mem_cons.mp hps
    cases hans with
    | @submit _ a p' _ ha _ =>
      obtain rfl : p' = p := BookCall.submit.inj hx
      have hsound := OrderData.sound_of_fresh hp.fresh
      obtain ⟨b', rfl, htook⟩ := ih (wf_submit hw hsound ha) hps' h hcalls
      refine ⟨b', rfl, ?_⟩
      have hone := took_submit hw hp.fresh hp.tif a
      have htaken : b.taken p' p'.initialQty.toNat = b.taken o p'.initialQty.toNat := by
        unfold taken
        rw [rejects_part hp hq hioc rfl, hp.side, hp.crossing_eq]
      rw [htaken] at hone
      exact hone.trans hw hp htook ((rejects_part hp hq hioc rfl).symm.trans
        (rejects_part hp hq hioc (b.instrument_submit a p')))
    | cancel => cases hx
    | expire => cases hx

end QueueBook

namespace Desk

variable {d d' e e' : Desk} {L M : List Played}

/-- **Whole or in parts.**  Of two matchers that show the same interests, one is given an immediate
order and the other one all its parts, one after the other.  The parts take as much as the whole, at
the same cost, and then the two show the same interests again. -/
theorem split_of_traces {i : InstrumentId} {capacity capacity' : ℕ} {o : OrderData}
    {ps : List OrderData} (hd : Guarded.Reach Desk.call (fun _ _ => True) (start i capacity) d)
    (he : Guarded.Reach Desk.call (fun _ _ => True) (start i capacity') e)
    (hint : ∀ s, e.interests s = d.interests s)
    (hL : Guarded.Trace Desk.call Undrained shown d L d')
    (hM : Guarded.Trace Desk.call Undrained shown e M e') (hLc : L.map Played.call = [.submit o])
    (hMc : M.map Played.call = ps.map .submit) (hioc : o.tif = .ioc) (hps : ∀ p ∈ ps, o.Part p)
    (hsum : (ps.map (·.initialQty.toNat)).sum = o.initialQty.toNat) :
    tradedQty (M.flatMap Played.trades) = tradedQty (L.flatMap Played.trades)
      ∧ notional (M.flatMap Played.trades) = notional (L.flatMap Played.trades)
      ∧ ∀ s, e'.interests s = d'.interests s := by
  obtain ⟨b, hb, hib, -⟩ := exists_inv (J := fun _ => True) trivial
    (fun _ _ _ _ _ _ _ _ => trivial) hd
  obtain ⟨c, hc, hic, -⟩ := exists_inv (J := fun _ => True) trivial
    (fun _ _ _ _ _ _ _ _ => trivial) he
  obtain ⟨b', hb', hpath⟩ := hb.exists_path hL
  obtain ⟨c', hc', hpath'⟩ := hc.exists_path hM
  have hsame : ∀ s, c.interests s = b.interests s := fun s => by
    rw [← hc.interests_eq, ← hb.interests_eq, hint]
  obtain ⟨h0, hzero⟩ : o.filledQty = 0
      ∧ (o.initialQty = 0 → L.flatMap Played.trades = [] ∧ b' = b) := by
    obtain ⟨x, rfl, hx⟩ := List.map_eq_singleton_iff.mp hLc
    obtain ⟨t, hans, hnil⟩ := hpath.uncons
    cases hnil
    cases hans with
    | @submit _ a o' _ _ h0 =>
      obtain rfl : o' = o := BookCall.submit.inj hx
      refine ⟨h0, fun hq => ?_⟩
      have hrej : b.rejects o' = true := by simp [QueueBook.rejects, hq]
      rw [QueueBook.submit, if_pos hrej]
      exact ⟨rfl, rfl⟩
    | cancel => cases hx
  by_cases hq : o.initialQty = 0
  · -- such an order has no parts
    obtain ⟨htrades, rfl⟩ := hzero hq
    have hnone : ps = [] := by
      refine List.eq_nil_iff_forall_not_mem.mpr fun p hp => (hps p hp).wanted ?_
      have hle : p.initialQty.toNat ≤ (ps.map (·.initialQty.toNat)).sum :=
        List.le_sum_of_mem (List.mem_map_of_mem hp)
      rw [hsum, hq] at hle
      exact UInt64.toNat_inj.mp (Nat.le_zero.mp hle)
    subst hnone
    obtain rfl := List.map_eq_nil_iff.mp hMc
    cases hpath'
    rw [htrades]
    exact ⟨rfl, rfl, fun s => by rw [hc'.interests_eq, hb'.interests_eq, hsame]⟩
  · have hpart : o.Part o := ⟨h0, hq, rfl, rfl, rfl, rfl, hioc⟩
    obtain ⟨_, hb'', hwhole⟩ := QueueBook.took_of_path hb.wf hq hioc
      (fun p hp => List.mem_singleton.mp hp ▸ hpart) hpath hLc
    obtain ⟨_, hc'', hparts⟩ := QueueBook.took_of_path hc.wf hq hioc hps hpath' hMc
    obtain rfl := Option.some.inj hb''
    obtain rfl := Option.some.inj hc''
    have htaken : c.taken o (ps.map (·.initialQty.toNat)).sum
        = b.taken o ([o].map (·.initialQty.toNat)).sum := by
      unfold QueueBook.taken
      rw [hsum, hsame, QueueBook.rejects_part hpart hq hioc (hic.trans hib.symm)]
      rfl
    rw [htaken] at hparts
    obtain ⟨hqty, hcost, hint₁⟩ := hwhole
    obtain ⟨hqty', hcost', hint₂⟩ := hparts
    refine ⟨hqty'.trans hqty.symm, ?_, fun s => ?_⟩
    · rw [hcost', hcost, hsame]
    · rw [hc'.interests_eq, hb'.interests_eq, hint₁, hint₂, hsame]

/-- Ten bought at once, or three and then seven by somebody else. -/
theorem split_of_seven : ∃ d d' e' : Desk, ∃ L M o, ∃ ps : List OrderData,
    Guarded.Reach Desk.call (fun _ _ => True) (start 1 4) d
      ∧ Guarded.Trace Desk.call Undrained shown d L d'
      ∧ Guarded.Trace Desk.call Undrained shown d M e'
      ∧ L.map Played.call = [.submit o] ∧ M.map Played.call = ps.map .submit
      ∧ ps.map (·.initialQty) = [3, 7] ∧ notional (L.flatMap Played.trades) = 1006
      ∧ tradedQty (M.flatMap Played.trades) = tradedQty (L.flatMap Played.trades)
      ∧ notional (M.flatMap Played.trades) = notional (L.flatMap Played.trades)
      ∧ ∀ s, e'.interests s = d'.interests s := by
  let o : OrderData :=
    { id := 3, limitPrice := 102, initialQty := 10, instrument := 1, tif := .ioc }
  let p : OrderData := { o with initialQty := 3 }
  let p' : OrderData := { o with id := 4, client := 9, initialQty := 7 }
  have hrun : ((Guarded.run Desk.call (fun _ _ => True) (start 1 4)
      [.acquire,
        .write 3 { id := 1, limitPrice := 100, initialQty := 4, instrument := 1, side := .sell },
        .submit 3, .acquire,
        .write 2 { id := 2, limitPrice := 101, initialQty := 8, instrument := 1, side := .sell },
        .submit 2]).bind fun d =>
      (Guarded.record Desk.call Undrained shown d [.acquire, .write 1 { o with }, .submit 1]).bind
        fun r => (Guarded.record Desk.call Undrained shown d
          [.acquire, .write 1 { p with }, .submit 1, .acquire, .write 0 { p' with }, .submit 0]).map
            fun r' => decide (r.1.map Played.call = [.submit o]
              ∧ r'.1.map Played.call = [p, p'].map .submit
              ∧ notional (r.1.flatMap Played.trades) = 1006)) = some true := by decide +kernel
  obtain ⟨d, hd, hrun⟩ := Option.bind_eq_some_iff.mp hrun
  obtain ⟨⟨L, d'⟩, hL, hrun⟩ := Option.bind_eq_some_iff.mp hrun
  obtain ⟨⟨M, e'⟩, hM, hval⟩ := Option.map_eq_some_iff.mp hrun
  obtain ⟨hLc, hMc, hvalue⟩ := of_decide_eq_true hval
  have hd := Guarded.Reach.of_run hd
  have hL := Guarded.Trace.of_record hL
  have hM := Guarded.Trace.of_record hM
  have hps : ∀ q ∈ [p, p'], o.Part q := List.forall_mem_cons.mpr
    ⟨⟨rfl, by decide, rfl, rfl, rfl, rfl, rfl⟩,
      List.forall_mem_singleton.mpr ⟨rfl, by decide, rfl, rfl, rfl, rfl, rfl⟩⟩
  exact ⟨d, d', e', L, M, o, [p, p'], hd, hL, hM, hLc, hMc, rfl, hvalue,
    split_of_traces hd hd (fun _ => rfl) hL hM hLc hMc rfl hps rfl⟩

end Desk

end Ordbk
