import Ordbk.Abstract.Conserve
import Ordbk.Abstract.Indexed
import Mathlib.Data.List.Sort

/-!
# Abstract/Reference — price-time priority, written down

The reference matcher keeps each side as one list, sorted by price and then by the moment an order
came to rest, and trades against the head.  Quantities are natural numbers, arrival times are
explicit, and there are no slots, levels or index.

`Sim b r` is the simulation with the queue book: the same orders in the same places, each filled as
far.  The queue book keeps arrival order without ever storing it, because `enqueue` goes behind its
equals (`Sim.rest`) and a partial fill leaves its maker where it is (`sweep_sim`).
-/

namespace Ordbk

/-! ## The reference matcher

Short enough to be read as the definition of price-time priority. A side is a sorted list; a taker
trades with the head for as long as the head crosses; the remainder of a patient order is inserted,
everything else is dropped. -/

/-- A resting order of the reference matcher: as submitted, how much of it is filled, and when it
came to rest. -/
structure RefOrder where
  /-- The order as it was entered, -/
  order : OrderData
  /-- how much of it has been filled, -/
  filled : ℕ
  /-- and when it came to rest. -/
  arrival : ℕ

/-- An execution of the reference matcher. -/
structure RefTrade where
  makerId : OrderId
  takerId : OrderId
  instrument : InstrumentId
  price : Price
  quantity : ℕ
  ts : Timestamp
  deriving DecidableEq

namespace RefOrder

/-- The price it was entered at. -/
def price (x : RefOrder) : Price := x.order.limitPrice

/-- How much is still wanted. -/
def remaining (x : RefOrder) : ℕ := x.order.initialQty.toNat - x.filled

/-- `x` goes before `y`: a better price, or the same price and an earlier arrival. -/
def Ahead (s : Side) (x y : RefOrder) : Prop :=
  better s x.price y.price ∨ (x.price = y.price ∧ x.arrival < y.arrival)

instance (s : Side) : DecidableRel (Ahead s) := fun _ _ => inferInstanceAs (Decidable (_ ∨ _))

end RefOrder

/-- The price is acceptable to the taker. -/
def Crosses (taker : OrderData) (p : Price) : Prop :=
  if taker.side = .buy then p ≤ taker.limitPrice else taker.limitPrice ≤ p

instance (taker : OrderData) (p : Price) : Decidable (Crosses taker p) :=
  inferInstanceAs (Decidable
    (if taker.side = .buy then p ≤ taker.limitPrice else taker.limitPrice ≤ p))

structure RefBook where
  /-- Best first, -/
  bids : List RefOrder := []
  /-- on either side. -/
  asks : List RefOrder := []
  /-- The next time of arrival. -/
  clock : ℕ := 0

namespace RefBook

/-- The orders of a side; what is no bid is an ask. -/
def side (r : RefBook) (s : Side) : List RefOrder := if s = .buy then r.bids else r.asks

/-- The book with other orders on a side. -/
def withSide (r : RefBook) (s : Side) (l : List RefOrder) : RefBook :=
  if s = .buy then { r with bids := l } else { r with asks := l }

/-- Fill the taker, of which `need` is left, against the head of the list, at the head's price and
for as much as both have, until it is filled, nobody is left, or the head is too expensive. -/
def fill (taker : OrderData) : ℕ → List RefOrder → ℕ × List RefOrder × List RefTrade
  | need, [] => (need, [], [])
  | need, k :: ks =>
    if need = 0 ∨ (taker.type = .limit ∧ ¬ Crosses taker k.price) then (need, k :: ks, [])
    else
      let q := min need k.remaining
      let trade : RefTrade := ⟨k.order.id, taker.id, taker.instrument, k.price, q, taker.ts⟩
      if q = k.remaining then
        let r := fill taker (need - q) ks
        (r.1, r.2.1, trade :: r.2.2)
      else (need - q, { k with filled := k.filled + q } :: ks, [trade])

/-- Fill the order; a limit remainder that is good till cancelled, or for the day, is queued with a
new arrival time; any other remainder is dropped. -/
def submit (r : RefBook) (o : OrderData) : RefBook × List RefTrade :=
  let f := fill o o.initialQty.toNat (r.side (opposite o.side))
  let r := r.withSide (opposite o.side) f.2.1
  if f.1 ≠ 0 ∧ o.type = .limit ∧ (o.tif = .gtc ∨ o.tif = .day) then
    ({ r.withSide o.side (List.orderedInsert (RefOrder.Ahead o.side)
        ⟨o, o.initialQty.toNat - f.1, r.clock⟩ (r.side o.side)) with clock := r.clock + 1 }, f.2.2)
  else (r, f.2.2)

def cancel (r : RefBook) (id : OrderId) : RefBook :=
  { r with
    bids := r.bids.filter fun x => x.order.id ≠ id
    asks := r.asks.filter fun x => x.order.id ≠ id }

end RefBook

/-! ## The simulation

Orders are compared without their status, since the reference matcher has none, and with a natural
number for what has been filled. -/

/-- What the two matchers agree on: the order, and how far it is filled. -/
def OrderData.key (o : OrderData) : OrderData × ℕ := (o.ident, o.filledQty.toNat)

/-- The same of an order of the reference matcher. -/
def RefOrder.key (x : RefOrder) : OrderData × ℕ := (x.order.ident, x.filled)

/-- The execution, its quantity as a number. -/
def Trade.toRef (x : Trade) : RefTrade :=
  ⟨x.makerId, x.takerId, x.instrument, x.price, x.quantity.toNat, x.ts⟩

/-- Two queues with the same orders in the same places. -/
def SameQueue (l : List Resting) (ks : List RefOrder) : Prop :=
  l.map (fun e => e.order.key) = ks.map RefOrder.key

/-- Queues agree from the front. -/
theorem sameQueue_cons {e : Resting} {l : List Resting} {k : RefOrder} {ks : List RefOrder} :
    SameQueue (e :: l) (k :: ks) ↔ e.order.key = k.key ∧ SameQueue l ks := by
  simp [SameQueue]

/-- A queue that has a head matches one that has. -/
theorem SameQueue.exists_cons {e : Resting} {l : List Resting} {ks : List RefOrder}
    (h : SameQueue (e :: l) ks) :
    ∃ k ks', ks = k :: ks' ∧ e.order.key = k.key ∧ SameQueue l ks' := by
  cases ks with
  | nil => simp [SameQueue] at h
  | cons k ks => exact ⟨k, ks, rfl, sameQueue_cons.mp h⟩

section Key

variable {o : OrderData} {k : RefOrder}

/-- Orders that agree were entered alike, -/
theorem ident_eq_of_key (h : o.key = k.key) : o.ident = k.order.ident := congrArg Prod.fst h

/-- have one id, -/
theorem id_eq_of_key (h : o.key = k.key) : o.id = k.order.id :=
  congrArg (fun p => p.1.id) h

/-- one price, -/
theorem price_eq_of_key (h : o.key = k.key) : o.limitPrice = k.price :=
  congrArg (fun p => p.1.limitPrice) h

/-- and as much left. -/
theorem remaining_eq_of_key (h : o.key = k.key) (ho : o.Sound) :
    k.remaining = o.remaining.toNat := by
  have hinit : o.initialQty = k.order.initialQty := congrArg (fun p => p.1.initialQty) h
  have hfill : o.filledQty.toNat = k.filled := congrArg Prod.snd h
  rw [RefOrder.remaining, ← hinit, ← hfill, ho.toNat_remaining]

end Key

/-- The reference's price test is the code's. -/
theorem not_crosses_iff {t : OrderData} {p : Price} :
    t.type = .limit ∧ ¬ Crosses t p ↔ Matcher.blocked t p = true := by
  unfold Crosses Matcher.blocked pricesCross
  by_cases hs : t.side = .buy <;> simp [hs]

/-- Where an order stands in its queue. -/
def RefOrder.place (x : RefOrder) : Price × ℕ := (x.price, x.arrival)

/-- What a filling and a sweep agree on. -/
structure Fills (s : Sweep) (ks : List RefOrder) (f : ℕ × List RefOrder × List RefTrade) :
    Prop where
  /-- As much is left to buy or sell, -/
  need : f.1 = s.taker.remaining.toNat
  /-- the same makers stay, filled as far, -/
  same : SameQueue s.makers f.2.1
  /-- the executions are the same, -/
  trades : f.2.2 = s.trades.map Trade.toRef
  /-- and whoever stays is where he was. -/
  suffix : (f.2.1.map RefOrder.place).IsSuffix (ks.map RefOrder.place)

/-- Both stop at the same maker, -/
theorem stops_iff_of_key {o t : OrderData} (hident : t.ident = o.ident) {k : RefOrder}
    {e : Resting} (hkey : e.order.key = k.key) {l : List Resting} :
    (t.remaining.toNat = 0 ∨ (o.type = .limit ∧ ¬ Crosses o k.price)) ↔ Stops t (e :: l) := by
  have hprice : k.price = e.price := (price_eq_of_key hkey).symm
  have hzero : t.remaining.toNat = 0 ↔ t.remaining = 0 := by
    rw [← UInt64.toNat_inj, UInt64.toNat_zero]
  rw [not_crosses_iff, hzero, hprice, ← blocked_congr hident]
  simp [Stops]

/-- and note the same execution. -/
theorem toRef_tradeOf {o t : OrderData} (hident : t.ident = o.ident) {k : RefOrder} {e : Resting}
    (hkey : e.order.key = k.key) (q : Quantity) :
    (tradeOf t e.order q).toRef = ⟨k.order.id, o.id, o.instrument, k.price, q.toNat, o.ts⟩ := by
  have h1 : t.id = o.id := congrArg (·.id) hident
  have h2 : t.instrument = o.instrument := congrArg (·.instrument) hident
  have h3 : t.ts = o.ts := congrArg (·.ts) hident
  rw [← h1, ← h2, ← h3, ← id_eq_of_key hkey, ← price_eq_of_key hkey]
  rfl

/-- **Filling is the sweep.** -/
theorem sweep_sim {o t : OrderData} {ms : List Resting} {ks : List RefOrder} (ht : t.Sound)
    (hms : ∀ m ∈ ms, m.order.Open) (hident : t.ident = o.ident) (hsame : SameQueue ms ks) :
    Fills (sweep t ms) ks (RefBook.fill o t.remaining.toNat ks) := by
  revert hident hsame
  refine sweep_rec (P := fun t ms s => ∀ ks, t.ident = o.ident → SameQueue ms ks →
    Fills s ks (RefBook.fill o t.remaining.toNat ks)) ?_ ?_ ?_ ht hms ks
  · intro t ms _ _ hs ks hident hsame
    have hstay : RefBook.fill o t.remaining.toNat ks = (t.remaining.toNat, ks, []) := by
      cases ms with
      | nil =>
        obtain rfl : ks = [] := by simpa [SameQueue] using hsame
        rfl
      | cons e ms =>
        obtain ⟨k, ks', rfl, hkey, -⟩ := hsame.exists_cons
        rw [RefBook.fill, if_pos ((stops_iff_of_key hident hkey).mpr hs)]
    rw [hstay]
    exact ⟨rfl, hsame, rfl, List.suffix_rfl⟩
  · intro t m ms s ht hm _ hs hle _ ih ks hident hsame
    obtain ⟨k, ks, rfl, hkey, hsame'⟩ := hsame.exists_cons
    have hrem := remaining_eq_of_key hkey hm.sound
    have hq : min t.remaining.toNat k.remaining = k.remaining := by
      rw [hrem]
      exact Nat.min_eq_right (UInt64.le_iff_toNat_le.mp hle)
    have hneed : t.remaining.toNat - k.remaining = (t.fill m.order.remaining).remaining.toNat := by
      rw [ht.toNat_remaining_fill hle, hrem]
    have hrec := ih ks hident hsame'
    rw [RefBook.fill, if_neg (mt (stops_iff_of_key hident hkey).mp hs)]
    simp only [hq, hneed, if_true]
    refine ⟨hrec.need, hrec.same, ?_, hrec.suffix.trans (List.suffix_cons _ _)⟩
    rw [List.map_cons, toRef_tradeOf hident hkey, ← hrem, hrec.trades]
  · intro t m ms ht hm _ hs hlt ks hident hsame
    obtain ⟨k, ks, rfl, hkey, hsame'⟩ := hsame.exists_cons
    have hrem := remaining_eq_of_key hkey hm.sound
    have hlt' : t.remaining.toNat < k.remaining := hrem ▸ UInt64.lt_iff_toNat_lt.mp hlt
    have hq : min t.remaining.toNat k.remaining = t.remaining.toNat :=
      Nat.min_eq_left (Nat.le_of_lt hlt')
    rw [RefBook.fill, if_neg (mt (stops_iff_of_key hident hkey).mp hs)]
    simp only [hq, Nat.sub_self, if_neg (Nat.ne_of_lt hlt')]
    refine ⟨?_, sameQueue_cons.mpr ⟨?_, hsame'⟩, ?_, List.suffix_rfl⟩
    · exact (congrArg UInt64.toNat (UInt64.sub_self t.initialQty)).symm
    · have hfilled : m.order.filledQty.toNat = k.filled := congrArg Prod.snd hkey
      have hid := ident_eq_of_key hkey
      refine Prod.ext hid ((hm.sound.toNat_fill (UInt64.le_of_lt hlt)).trans ?_)
      rw [hfilled]
      rfl
    · rw [List.map_cons, toRef_tradeOf hident hkey, List.map_nil]

/-! ## Queues in order of arrival

Sorting by price and arrival is the same as queueing behind one's equals, because whoever comes to
rest comes later than everybody at rest. -/

namespace RefOrder

variable {s : Side} {x y z : RefOrder}

/-- To be ahead is a strict order. -/
theorem Ahead.trans (hxy : x.Ahead s y) (hyz : y.Ahead s z) : x.Ahead s z := by
  rcases hxy with hxy | ⟨hp, hxy⟩
  · rcases hyz with hyz | ⟨hq, -⟩
    · exact Or.inl (trans_of (better s) hxy hyz)
    · exact Or.inl (hq ▸ hxy)
  · rcases hyz with hyz | ⟨hq, hyz⟩
    · exact Or.inl (hp ▸ hyz)
    · exact Or.inr ⟨hp.trans hq, Nat.lt_trans hxy hyz⟩

/-- Nobody is ahead of somebody ahead of him. -/
theorem Ahead.asymm (hxy : x.Ahead s y) : ¬ y.Ahead s x := by
  rintro (hyx | ⟨hp, hyx⟩)
  · rcases hxy with hxy | ⟨hq, -⟩
    · exact asymm_of (better s) hxy hyx
    · exact irrefl_of (better s) _ (hq ▸ hyx)
  · rcases hxy with hxy | ⟨-, hxy⟩
    · exact irrefl_of (better s) _ (hp ▸ hxy)
    · exact Nat.lt_asymm hxy hyx

/-- A newcomer goes before somebody only for its price. -/
theorem ahead_iff_of_late (h : y.arrival < x.arrival) :
    x.Ahead s y ↔ better s x.price y.price :=
  ⟨fun hxy => hxy.resolve_right fun ⟨_, hlt⟩ => Nat.lt_asymm h hlt, Or.inl⟩

/-- and otherwise behind. -/
theorem ahead_of_late (h : y.arrival < x.arrival) (hxy : ¬ x.Ahead s y) : y.Ahead s x := by
  rw [ahead_iff_of_late h] at hxy
  rcases trichotomous_of (better s) x.price y.price with hlt | heq | hgt
  · exact absurd hlt hxy
  · exact Or.inr ⟨heq.symm, h⟩
  · exact Or.inl hgt

/-- Only price and arrival count. -/
theorem pairwise_iff_place {l : List RefOrder} :
    l.Pairwise (Ahead s) ↔ (l.map place).Pairwise
      fun p q => better s p.1 q.1 ∨ (p.1 = q.1 ∧ p.2 < q.2) := by
  rw [List.pairwise_map]
  rfl

/-- Inserting a newcomer keeps the queue sorted. -/
theorem pairwise_orderedInsert {l : List RefOrder} (hl : l.Pairwise (Ahead s))
    (hx : ∀ y ∈ l, y.arrival < x.arrival) : (l.orderedInsert (Ahead s) x).Pairwise (Ahead s) := by
  induction l with
  | nil => exact List.pairwise_singleton _ _
  | cons y l ih =>
    obtain ⟨hy, hl'⟩ := List.pairwise_cons.mp hl
    rw [List.orderedInsert_cons]
    split_ifs with hxy
    · refine List.pairwise_cons.mpr ⟨fun z hz => ?_, hl⟩
      rcases List.mem_cons.mp hz with rfl | hz
      · exact hxy
      · exact hxy.trans (hy z hz)
    · refine List.pairwise_cons.mpr ⟨fun z hz => ?_,
        ih hl' fun z hz => hx z (List.mem_cons_of_mem _ hz)⟩
      rcases (List.mem_orderedInsert (Ahead s)).mp hz with rfl | hz
      · exact ahead_of_late (hx y (by simp)) hxy
      · exact hy z hz

end RefOrder

/-- **Queueing behind one's equals is queueing by arrival.** -/
theorem sameQueue_enqueue {s : Side} {l : List Resting} {ks : List RefOrder} {e : Resting}
    {x : RefOrder} (h : SameQueue l ks) (hkey : e.order.key = x.key)
    (hx : ∀ y ∈ ks, y.arrival < x.arrival) :
    SameQueue (Priority.enqueue Resting.price (better s) e l)
      (ks.orderedInsert (RefOrder.Ahead s) x) := by
  induction l generalizing ks with
  | nil =>
    obtain rfl : ks = [] := by simpa [SameQueue] using h
    exact sameQueue_cons.mpr ⟨hkey, rfl⟩
  | cons f l ih =>
    obtain ⟨k, ks, rfl, hfk, h'⟩ := h.exists_cons
    have hiff : x.Ahead s k ↔ better s e.price f.price := by
      rw [RefOrder.ahead_iff_of_late (hx k (by simp)), ← price_eq_of_key hkey,
        ← price_eq_of_key hfk]
      rfl
    rw [Priority.enqueue, List.orderedInsert_cons]
    by_cases hb : better s e.price f.price
    · rw [if_pos hb, if_pos (hiff.mpr hb)]
      exact sameQueue_cons.mpr ⟨hkey, h⟩
    · rw [if_neg hb, if_neg fun ha => hb (hiff.mp ha)]
      exact sameQueue_cons.mpr ⟨hfk, ih h' fun y hy => hx y (List.mem_cons_of_mem _ hy)⟩

/-- Cutting an id out of both. -/
theorem sameQueue_filter {l : List Resting} {ks : List RefOrder} (h : SameQueue l ks)
    (id : OrderId) : SameQueue (l.filter fun e => e.order.id ≠ id)
      (ks.filter fun x => x.order.id ≠ id) := by
  induction l generalizing ks with
  | nil =>
    obtain rfl : ks = [] := by simpa [SameQueue] using h
    rfl
  | cons e l ih =>
    obtain ⟨k, ks, rfl, hkey, h'⟩ := h.exists_cons
    have hid := id_eq_of_key hkey
    by_cases hne : e.order.id ≠ id
    · rw [List.filter_cons_of_pos (by simpa using hne),
        List.filter_cons_of_pos (by simpa [← hid] using hne)]
      exact sameQueue_cons.mpr ⟨hkey, ih h'⟩
    · rw [List.filter_cons_of_neg (by simpa using hne),
        List.filter_cons_of_neg (by simpa [← hid] using hne)]
      exact ih h'

/-- Whoever stands somewhere in one queue stands there in the other. -/
theorem SameQueue.split {l : List Resting} {ks₁ ks₂ : List RefOrder} {k : RefOrder}
    (h : SameQueue l (ks₁ ++ k :: ks₂)) :
    ∃ l₁ e l₂, l = l₁ ++ e :: l₂ ∧ e.order.key = k.key ∧ SameQueue l₂ ks₂ := by
  unfold SameQueue at h
  rw [List.map_append, List.map_cons] at h
  obtain ⟨l₁, l', rfl, -, hl'⟩ := List.map_eq_append_iff.mp h
  obtain ⟨e, l₂, rfl, hkey, hl₂⟩ := List.map_eq_cons_iff.mp hl'
  exact ⟨l₁, e, l₂, rfl, hkey, hl₂⟩

/-- The partner of an order at rest. -/
theorem SameQueue.mem_of_mem {l : List Resting} {ks : List RefOrder} (h : SameQueue l ks)
    {e : Resting} (he : e ∈ l) : ∃ k ∈ ks, e.order.key = k.key := by
  have hmem : e.order.key ∈ ks.map RefOrder.key := h ▸ List.mem_map_of_mem he
  obtain ⟨k, hk, hkey⟩ := List.mem_map.mp hmem
  exact ⟨k, hk, hkey.symm⟩

/-- In a sorted list, whoever is ahead stands before. -/
theorem exists_split_of_ahead {s : Side} {ks : List RefOrder} (hs : ks.Pairwise (RefOrder.Ahead s))
    {k y : RefOrder} (hk : k ∈ ks) (hy : y ∈ ks) (hyk : y.Ahead s k) :
    ∃ l₁ l₂, ks = l₁ ++ y :: l₂ ∧ k ∈ l₂ := by
  obtain ⟨l₁, l₂, rfl⟩ := List.append_of_mem hy
  refine ⟨l₁, l₂, rfl, ?_⟩
  rcases List.mem_append.mp hk with hk | hk
  · exact absurd hyk ((List.pairwise_append.mp hs).2.2 k hk y (by simp)).asymm
  · rcases List.mem_cons.mp hk with rfl | hk
    · exact absurd hyk hyk.asymm
    · exact hk

/-! ## The simulation, operation by operation

A sweep of the other side, an insertion into one's own, a removal by id: the public operations are
made of these. -/

/-- **The two books hold the same orders in the same places**, and the reference book is sorted. -/
structure Sim (b : QueueBook) (r : RefBook) : Prop where
  /-- The same orders in the same places, -/
  same : ∀ s, SameQueue (b.side s) (r.side s)
  /-- each side by price and arrival, -/
  sorted : ∀ s, (r.side s).Pairwise (RefOrder.Ahead s)
  /-- and nobody has come to rest later than now. -/
  past : ∀ s, ∀ x ∈ r.side s, x.arrival < r.clock

namespace RefBook

/-- Reading a side that was written, -/
theorem side_withSide (r : RefBook) (s s' : Side) (l : List RefOrder) :
    (r.withSide s l).side s' = if SameSide s s' then l else r.side s' := by
  unfold withSide side SameSide
  split_ifs <;> simp_all

/-- which takes no time. -/
theorem clock_withSide (r : RefBook) (s : Side) (l : List RefOrder) :
    (r.withSide s l).clock = r.clock := by
  unfold withSide
  split_ifs <;> rfl

end RefBook

/-- What is no bid is an ask here too. -/
theorem ahead_congr {s s' : Side} (h : SameSide s s') : RefOrder.Ahead s = RefOrder.Ahead s' := by
  unfold RefOrder.Ahead
  rw [better_congr h]

/-- Empty books. -/
theorem sim_new (i : InstrumentId) : Sim ⟨i, [], [], ∅⟩ {} where
  same s := by
    unfold QueueBook.side RefBook.side
    split_ifs <;> rfl
  sorted s := by
    unfold RefBook.side
    split_ifs <;> exact List.Pairwise.nil
  past s x hx := by
    unfold RefBook.side at hx
    split_ifs at hx <;> simp at hx

namespace Sim

variable {b : QueueBook} {r : RefBook} {o : OrderData} {a : Slot}

/-- The reference fills as the queue book sweeps, -/
theorem fills (h : Sim b r) (hw : b.WF) (h0 : o.filledQty = 0) :
    Fills (b.entry o) (r.side (opposite o.side))
      (RefBook.fill o o.initialQty.toNat (r.side (opposite o.side))) := by
  have hsim := sweep_sim (OrderData.sound_of_fresh h0) hw.open rfl (h.same (opposite o.side))
  rwa [QueueBook.remaining_of_fresh h0] at hsim

/-- and leaves the same book behind. -/
theorem entered (h : Sim b r) (hw : b.WF) (h0 : o.filledQty = 0) :
    Sim (b.entered o) (r.withSide (opposite o.side)
      (RefBook.fill o o.initialQty.toNat (r.side (opposite o.side))).2.1) := by
  have hf := h.fills hw h0
  refine ⟨fun s => ?_, fun s => ?_, fun s x hx => ?_⟩
  · rw [QueueBook.entered, QueueBook.side_swept, RefBook.side_withSide]
    split_ifs
    · exact hf.same
    · exact h.same s
  · rw [RefBook.side_withSide]
    split_ifs with hs
    · rw [← ahead_congr hs]
      have hsort := RefOrder.pairwise_iff_place.mp (h.sorted (opposite o.side))
      exact RefOrder.pairwise_iff_place.mpr (hsort.sublist hf.suffix.sublist)
    · exact h.sorted s
  · rw [RefBook.clock_withSide]
    rw [RefBook.side_withSide] at hx
    split_ifs at hx
    · obtain ⟨y, hy, hyx⟩ := List.mem_map.mp (hf.suffix.subset (List.mem_map_of_mem hx))
      have harr : y.arrival = x.arrival := congrArg Prod.snd hyx
      exact harr ▸ h.past _ y hy
    · exact h.past s x hx

/-- An order comes to rest, with a new arrival time. -/
theorem rest (h : Sim b r) {e : Resting} {x : RefOrder} (hkey : e.order.key = x.key)
    (harr : x.arrival = r.clock) {s : Side} (hs : e.order.side = s) :
    Sim (b.rest e) { r.withSide s ((r.side s).orderedInsert (RefOrder.Ahead s) x) with
      clock := r.clock + 1 } := by
  subst hs
  have hlate : ∀ y ∈ r.side e.order.side, y.arrival < x.arrival := fun y hy =>
    harr ▸ h.past _ y hy
  have hside : ∀ s', RefBook.side { r.withSide e.order.side ((r.side e.order.side).orderedInsert
      (RefOrder.Ahead e.order.side) x) with clock := r.clock + 1 } s'
      = if SameSide e.order.side s' then (r.side e.order.side).orderedInsert
        (RefOrder.Ahead e.order.side) x else r.side s' := fun s' =>
    r.side_withSide e.order.side s' _
  refine ⟨fun s' => ?_, fun s' => ?_, fun s' y hy => ?_⟩
  · rw [QueueBook.side_rest, hside]
    split_ifs
    · exact sameQueue_enqueue (h.same _) hkey hlate
    · exact h.same s'
  · rw [hside]
    split_ifs with hss
    · rw [← ahead_congr hss]
      exact RefOrder.pairwise_orderedInsert (h.sorted _) hlate
    · exact h.sorted s'
  · rw [hside] at hy
    change y.arrival < r.clock + 1
    split_ifs at hy
    · rcases (List.mem_orderedInsert (RefOrder.Ahead e.order.side)).mp hy with rfl | hy
      · exact harr ▸ Nat.lt_succ_self _
      · exact Nat.lt_succ_of_lt (h.past _ y hy)
    · exact Nat.lt_succ_of_lt (h.past s' y hy)

/-- **Submitting an accepted order** trades the same and leaves the same book. -/
theorem submit (h : Sim b r) (hw : b.WF) (h0 : o.filledQty = 0) (hd : o.Declared)
    (hacc : b.rejects o = false) :
    Sim (b.submit a o).book (r.submit o).1
      ∧ (b.submit a o).trades.map Trade.toRef = (r.submit o).2 := by
  have ho := OrderData.sound_of_fresh h0
  have hf := h.fills hw h0
  have hent := h.entered hw h0
  have htrades : (r.submit o).2 = (b.entry o).trades.map Trade.toRef := by
    rw [← hf.trades]
    unfold RefBook.submit
    simp only
    split_ifs <;> rfl
  have hstay : ¬ ((b.entry o).taker.remaining.toNat ≠ 0 ∧ o.type = .limit
      ∧ (o.tif = .gtc ∨ o.tif = .day)) → (r.submit o).1 = r.withSide (opposite o.side)
        (RefBook.fill o o.initialQty.toNat (r.side (opposite o.side))).2.1 := by
    intro hnot
    rw [← hf.need] at hnot
    unfold RefBook.submit
    simp only
    rw [if_neg hnot]
  have hs := QueueBook.submitted b a o
  generalize b.submit a o = out at hs ⊢
  cases hs with
  | rejected hrej => exact absurd (hacc.symm.trans hrej) Bool.false_ne_true
  | filled _ hfull =>
    have hzero := (QueueBook.isFullyFilled_iff (QueueBook.sound_entry hw ho)).mp hfull
    rw [hstay fun hcond => hcond.1 (by rw [hzero, UInt64.toNat_zero])]
    exact ⟨hent, htrades.symm⟩
  | dropped _ _ hdrop =>
    rw [hstay]
    · exact ⟨hent, htrades.symm⟩
    · rintro ⟨-, htype, htif⟩
      rcases hdrop with hm | hi
      · exact absurd (htype.symm.trans hm) (by decide)
      · rcases htif with ht | ht
        · exact absurd (ht.symm.trans hi) (by decide)
        · exact absurd (ht.symm.trans hi) (by decide)
  | rested h1 h2 h3 =>
    have hplain := QueueBook.Rests.plain ⟨h1, h2, h3⟩ hw h0 hd
    have hident := QueueBook.ident_entry hw ho
    have hside : (b.entry o).taker.side = o.side := congrArg (·.side) hident
    have hinit : (b.entry o).taker.initialQty = o.initialQty := congrArg (·.initialQty) hident
    have hopen := QueueBook.open_entry hw ho h2
    have hcond : (RefBook.fill o o.initialQty.toNat (r.side (opposite o.side))).1 ≠ 0
        ∧ o.type = .limit ∧ (o.tif = .gtc ∨ o.tif = .day) := by
      refine ⟨?_, hplain.type, hplain.tif⟩
      rw [hf.need, ← UInt64.toNat_zero]
      exact UInt64.toNat_inj.ne.mpr hopen.remaining_ne_zero
    have hkey : ((b.entry o).taker.withStatus (b.entry o).taker.restStatus).key
        = RefOrder.key ⟨o, o.initialQty.toNat
          - (RefBook.fill o o.initialQty.toNat (r.side (opposite o.side))).1, r.clock⟩ := by
      have hrem := hopen.sound.toNat_remaining
      have hle := hopen.sound.toNat_le
      refine Prod.ext hident ?_
      change (b.entry o).taker.filledQty.toNat = o.initialQty.toNat - _
      rw [hf.need, ← hinit]
      omega
    refine ⟨?_, htrades.symm⟩
    have hrest := hent.rest (e := ⟨a, (b.entry o).taker.withStatus (b.entry o).taker.restStatus⟩)
      hkey (RefBook.clock_withSide _ _ _).symm hside
    unfold RefBook.submit
    simp only
    rw [if_pos hcond, RefBook.clock_withSide]
    rw [RefBook.clock_withSide] at hrest
    exact hrest

/-- With the index complete, a cancel is a filter. -/
theorem side_cancel (hi : b.Indexed) (hw : b.WF) (id : OrderId) (s : Side) :
    (b.cancel id).1.side s = (b.side s).filter fun e => e.order.id ≠ id := by
  unfold QueueBook.cancel
  cases hl : b.index.lookup id with
  | none =>
    refine (List.filter_eq_self.mpr fun e he => ?_).symm
    obtain ⟨loc, hloc, -⟩ := hi e (b.mem_resting.mpr ⟨s, he⟩)
    simp only [ne_eq, decide_eq_true_eq]
    rintro rfl
    simp [hl] at hloc
  | some loc =>
    -- by the index, this slot and this id are the same order
    have hiff : ∀ e ∈ b.resting, e.slot = loc.order ↔ e.order.id = id := by
      obtain ⟨f, hf, hfs, hfi, -⟩ := hw.located id loc hl
      have hf' := b.mem_resting.mpr ⟨_, hf⟩
      intro e he
      constructor
      · intro hes
        obtain rfl := List.inj_on_of_nodup_map hw.nodup he hf' (hes.trans hfs.symm)
        exact hfi
      · intro hei
        obtain rfl := hi.eq_of_id hw he hf' (hei.trans hfi.symm)
        exact hfs
    have hfilter : ∀ s, ((b.side s).filter fun e => e.slot ≠ loc.order)
        = (b.side s).filter fun e => e.order.id ≠ id := fun s =>
      List.filter_congr fun e he => by simp [hiff e (b.mem_resting.mpr ⟨s, he⟩)]
    rw [QueueBook.side_remove]
    split_ifs with hs
    · rw [hfilter, b.side_congr hs]
    · rw [← hfilter]
      refine (List.filter_eq_self.mpr fun e he => ?_).symm
      simpa using ((QueueBook.mem_side_remove hw hl (s := s)).mp
        (by rw [QueueBook.side_remove, if_neg hs]; exact he)).2

/-- **Cancelling by id**, when the index is complete. -/
theorem cancel (h : Sim b r) (hi : b.Indexed) (hw : b.WF) (id : OrderId) :
    Sim (b.cancel id).1 (r.cancel id) := by
  have hside : ∀ s, (r.cancel id).side s = (r.side s).filter fun x => x.order.id ≠ id := by
    intro s
    unfold RefBook.cancel RefBook.side
    split_ifs <;> rfl
  refine ⟨fun s => ?_, fun s => ?_, fun s x hx => ?_⟩
  · rw [side_cancel hi hw, hside]
    exact sameQueue_filter (h.same s) id
  · rw [hside]
    exact (h.sorted s).filter _
  · rw [hside] at hx
    exact h.past s x (List.mem_filter.mp hx).1

end Sim

/-! ## Nobody is overtaken

What price-time priority means for those who wait: whoever is behind trades only once everybody
before is used up. -/

/-- No id is twice in a queue. -/
theorem head_notMem_tail {m e : Resting} {ms l₁ l₂ : List Resting}
    (hnd : ((m :: ms).map (·.order.id)).Nodup) (hsplit : m :: ms = l₁ ++ e :: l₂) :
    m.order.id ∉ l₂.map (·.order.id) := by
  rw [List.map_cons, List.nodup_cons] at hnd
  refine fun hmem => hnd.1 ?_
  cases l₁ with
  | nil =>
    obtain ⟨-, rfl⟩ := List.cons.inj hsplit
    exact hmem
  | cons m' l₁ =>
    rw [List.cons_append] at hsplit
    obtain ⟨-, rfl⟩ := List.cons.inj hsplit
    rw [List.map_append, List.map_cons]
    exact List.mem_append_right _ (List.mem_cons_of_mem _ hmem)

/-- **A maker trades only after everybody before it is used up.** -/
theorem volume_of_precedes {t : OrderData} {ms : List Resting} (ht : t.Sound)
    (hms : ∀ m ∈ ms, m.order.Open) (hnd : (ms.map (·.order.id)).Nodup)
    (hid : ∀ m ∈ ms, m.order.id ≠ t.id) {l₁ l₂ : List Resting} {e : Resting}
    (hsplit : ms = l₁ ++ e :: l₂) {ts₁ ts₂ : List Trade} {x : Trade}
    (htr : (sweep t ms).trades = ts₁ ++ x :: ts₂) (hx : x.makerId ∈ l₂.map (·.order.id)) :
    volume e.order.id ts₁ = e.order.remaining.toNat := by
  revert hnd hid hsplit htr
  refine sweep_rec (P := fun t ms s => ∀ l₁ ts₁, (ms.map (·.order.id)).Nodup →
    (∀ m ∈ ms, m.order.id ≠ t.id) → ms = l₁ ++ e :: l₂ → s.trades = ts₁ ++ x :: ts₂ →
    volume e.order.id ts₁ = e.order.remaining.toNat) ?_ ?_ ?_ ht hms l₁ ts₁
  · intro t ms _ _ _ l₁ ts₁ _ _ _ htr
    simp at htr
  · intro t m ms s ht hm hms _ hle hs ih l₁ ts₁ hnd hid hsplit htr
    have hhead := head_notMem_tail hnd hsplit
    rw [List.map_cons, List.nodup_cons] at hnd
    cases ts₁ with
    | nil =>
      obtain ⟨rfl, -⟩ := List.cons.inj htr
      exact absurd hx hhead
    | cons t₀ ts₁ =>
      obtain ⟨rfl, htr'⟩ : _ = t₀ ∧ s.trades = ts₁ ++ x :: ts₂ := List.cons.inj htr
      cases l₁ with
      | nil =>
        -- the order itself is used up by this very pass, and trades no more
        obtain ⟨rfl, rfl⟩ := List.cons.inj hsplit
        rw [volume_cons_of_maker, volume_eq_zero, Nat.add_zero]
        intro y hy
        have hy' : y ∈ s.trades := htr' ▸ List.mem_append_left _ hy
        obtain ⟨k, hk, -, hyk, -⟩ := mem_sweep_trades (ht.fill hle) hms (hs ▸ hy')
        rw [hyk]
        rintro (hn | hn)
        · exact hnd.1 (List.mem_map.mpr ⟨k, hk, hn⟩)
        · exact hid m (by simp) hn.symm
      | cons m' l₁ =>
        rw [List.cons_append] at hsplit
        obtain ⟨rfl, rfl⟩ := List.cons.inj hsplit
        have he : e ∈ l₁ ++ e :: l₂ := by simp
        rw [volume_cons_of_other (fun hme => hnd.1 (List.mem_map.mpr ⟨e, he, hme.symm⟩))
          (hid e (List.mem_cons_of_mem _ he)).symm]
        exact ih l₁ ts₁ hnd.2 (fun k hk => hid k (List.mem_cons_of_mem _ hk)) rfl htr'
  · intro t m ms _ _ _ _ _ l₁ ts₁ hnd hid hsplit htr
    cases ts₁ with
    | nil =>
      obtain ⟨rfl, -⟩ := List.cons.inj htr
      exact absurd hx (head_notMem_tail hnd hsplit)
    | cons t₀ ts₁ => simp at htr

end Ordbk
