import Ordbk.Refinement.Desk
import Ordbk.Abstract.Rested

/-!
# Theorems/BookShape — what a book looks like, always

Whatever is submitted, cancelled or drained, and in whatever order: the book is never crossed, has
no empty level, and holds nothing but live limit orders of its own instrument, each in the level of
its price and on its own side.  Quantities never wrap, not even in the middle of a match.

The statements are about the pointer structure (`PriceLevel.Holds`); the proofs read them off the
queue book the desk refines.
-/

namespace Ordbk

open Matcher

/-! ## Half-way through a match

Within a call the book is not in shape, for its top may be filled already and not yet popped. This
is what holds instead. -/

section Passes

variable {m : Matcher} {b : QueueBook} {a : Slot} {t : OrderData} {s : Side}

/-- A match in progress: the loop's precondition, and the taker not overfilled. -/
structure Midway (m : Matcher) (b : QueueBook) (a : Slot) (t : OrderData) (s : Side) : Prop
    extends Sweepable m b s where
  /-- The taker is not in the book, -/
  out : a ∉ b.slots
  /-- and its slot shows what it is by now. -/
  data : m.pool.storage.data a = t
  /-- It is filled no further than it wants. -/
  sound : t.Sound
  /-- It trades with the other side. -/
  side : opposite t.side = s

/-- One more pass. -/
theorem Midway.fillTop (h : Midway m b a t s) {k : Resting} {ms : List Resting}
    (hk : b.side s = k :: ms) : ∃ b' t', Midway (m.fillTop a k.slot).1 b' a t' s := by
  obtain rfl := h.side
  have hmem : k ∈ b.side (opposite t.side) := hk ▸ List.mem_cons_self
  by_cases hle : k.order.remaining ≤ t.remaining
  · obtain ⟨hm, hd, -⟩ := fillTop_take h.toSweepable hk h.out h.data hle
    have hperm := slots_popped_perm hk
    exact ⟨_, _, h.toSweepable.popped hk hm.rep,
      fun hc => h.out (hperm.mem_iff.mpr (List.mem_cons_of_mem _ hc)), hd, h.sound.fill hle, rfl⟩
  · have hlt : t.remaining < k.order.remaining := UInt64.not_le.mp hle
    obtain ⟨hm, hd, -⟩ := fillTop_part h.toSweepable hk h.out h.data hlt
    have hslots := slots_withHead hk (k.partly t.remaining) rfl
    refine ⟨_, _, ⟨hm.rep, sorted_withHead h.sorted hk _ rfl, hslots ▸ h.nodup, fun e he => ?_⟩,
      hslots ▸ h.out, hd, UInt64.le_refl _, rfl⟩
    rw [QueueBook.side_withSide, if_pos (show SameSide _ _ from Iff.rfl)] at he
    rcases List.mem_cons.mp he with rfl | he
    · exact (h.isOpen k hmem).sound.open_fill hlt
    · exact h.isOpen e (hk ▸ List.mem_cons_of_mem _ he)

/-- Any number of passes. -/
theorem Midway.matchLoop (h : Midway m b a t s) (n : ℕ) (ts : List Trade) :
    ∃ b' t', Midway (matchLoop n m a ts).1 b' a t' s := by
  induction n generalizing m b t ts with
  | zero => exact ⟨b, t, h⟩
  | succ n ih =>
    obtain rfl := h.side
    by_cases hs : Stops t (b.side (opposite t.side))
    · rw [matchLoop_stop h.toSweepable h.data hs]
      exact ⟨b, t, h⟩
    cases hk : b.side (opposite t.side) with
    | nil => exact absurd (Or.inr (by simp [hk])) hs
    | cons k ms =>
      rw [hk] at hs
      rw [matchLoop_step h.toSweepable h.data hk hs]
      obtain ⟨b', t', h'⟩ := h.fillTop hk
      exact ih h' _

/-- What the next pass of the loop adds to the taker and to the maker on top, it adds exactly. -/
def ExactPass (m : Matcher) (a : Slot) : Prop :=
  let t := m.pool.storage a
  t.filledQty ≤ t.initialQty ∧ ∀ k, m.book.peekTop (opposite t.side) = some k →
    let o := m.pool.storage k
    let fill := qtyMin t.remaining o.remaining
    o.filledQty ≤ o.initialQty
      ∧ (t.filledQty + fill).toNat = t.filledQty.toNat + fill.toNat
      ∧ (o.filledQty + fill).toNat = o.filledQty.toNat + fill.toNat

theorem qtyMin_le_left (x y : Quantity) : qtyMin x y ≤ x := by
  rw [UInt64.le_iff_toNat_le, toNat_qtyMin]
  exact Nat.min_le_left _ _

theorem qtyMin_le_right (x y : Quantity) : qtyMin x y ≤ y := by
  rw [UInt64.le_iff_toNat_le, toNat_qtyMin]
  exact Nat.min_le_right _ _

theorem Midway.exactPass (h : Midway m b a t s) : ExactPass m a := by
  have ht : (m.pool.storage a).toOrderData = t := h.data
  unfold ExactPass
  simp only [ht]
  refine ⟨h.sound, fun k hk => ?_⟩
  rw [h.side, h.rep.peekTop_eq h.sorted] at hk
  obtain ⟨e, he, rfl⟩ := Option.map_eq_some_iff.mp hk
  have hmem : e ∈ b.side s := List.mem_of_head? he
  have hk' : (m.pool.storage e.slot).toOrderData = e.order := h.rep.data_side hmem
  have hsound := (h.isOpen e hmem).sound
  rw [hk']
  exact ⟨hsound, h.sound.toNat_fill (qtyMin_le_left _ _), hsound.toNat_fill (qtyMin_le_right _ _)⟩

end Passes

/-! ## The shape of a book

What can be seen of a book from outside: its best prices, its levels, and the orders met along each
of them. -/

/-- An order at rest at price `p` on side `s`. -/
structure RestsAt (instrument : InstrumentId) (s : Side) (p : Price) (o : OrderData) : Prop where
  /-- It stands on its own side, -/
  side : o.side = s
  /-- it has a limit, -/
  type : o.type = .limit
  /-- in the book of its own instrument, -/
  instrument : o.instrument = instrument
  /-- it may wait, -/
  tif : o.tif = .gtc ∨ o.tif = .day
  /-- at its own price, which is positive, -/
  price : 0 < o.limitPrice ∧ o.limitPrice = p
  /-- it wants more, -/
  qty : o.filledQty < o.initialQty
  /-- and its status says whether it has had some. -/
  status : o.status = if o.filledQty = 0 then .new else .partiallyFilled

/-- A level of side `s`: not empty, and the list between its two pointers holds orders that rest
at its price. -/
def LevelShape (st : Store) (instrument : InstrumentId) (s : Side) (x : Price × PriceLevel) :
    Prop :=
  x.2.empty = false ∧ ∃ xs, x.2.Holds st xs ∧ ∀ a ∈ xs, RestsAt instrument s x.1 (st.data a)

structure BookShape (m : Matcher) : Prop where
  /-- **The best bid is below the best ask.** -/
  uncrossed : ∀ p q, m.book.bestBid = some p → m.book.bestAsk = some q → p < q
  /-- Every buy level is in shape. -/
  bids : ∀ x ∈ m.book.bids.entries, LevelShape m.pool.storage m.book.instrument .buy x
  /-- Every sell level is in shape. -/
  asks : ∀ x ∈ m.book.asks.entries, LevelShape m.pool.storage m.book.instrument .sell x

theorem restStatus_eq (o : OrderData) :
    o.restStatus = if o.filledQty = 0 then .new else .partiallyFilled := by
  unfold OrderData.restStatus
  by_cases h : o.filledQty = 0
  · rw [if_pos h, if_neg fun hp => qty_pos_iff.mp hp h]
  · rw [if_neg h, if_pos (qty_pos_iff.mpr h)]

/-- A plain order in the queue of a side rests there. -/
theorem restsAt_of_mem {b : QueueBook} (hw : b.WF) (hall : b.All Plain) {s : Side}
    (hs : s.Declared) {e : Resting} (he : e ∈ b.side s) :
    RestsAt b.instrument s e.price e.order := by
  have hp := hall.side he
  exact ⟨(hw.sided s e he).eq hp.side hs, hp.type, hw.inst s e he, hp.tif, ⟨hp.price, rfl⟩,
    (hw.live s e he).isOpen, (hw.live s e he).status_eq.trans (restStatus_eq _)⟩

section Levels

variable {lt : Price → Price → Prop} [DecidableRel lt] [IsStrictTotalOrder Price lt] {st : Store}
  {levels : OrdMap lt PriceLevel} {l : List Resting}

omit [DecidableRel lt] in
/-- What holds of each order of the queue holds of each order of each level. -/
theorem LevelsRep.levelShape (h : LevelsRep st levels l) {i : InstrumentId} {s : Side}
    (hl : ∀ e ∈ l, RestsAt i s e.price e.order) {x : Price × PriceLevel} (hx : x ∈ levels.entries) :
    LevelShape st i s x := by
  obtain ⟨hne, hh⟩ := h.present x.1 x.2 (levels.mem_entries.mp hx)
  refine ⟨?_, _, hh, fun a ha => ?_⟩
  · rw [Bool.eq_false_iff]
    intro hempty
    exact hne (List.map_eq_nil_iff.mp (hh.empty_iff.mp hempty))
  · obtain ⟨e, he, rfl⟩ := List.mem_map.mp ha
    obtain ⟨hel, hep⟩ := mem_queueAt.mp he
    rw [h.data e hel, ← hep]
    exact hl e hel

omit [DecidableRel lt] in
/-- The best price is a price of the queue. -/
theorem LevelsRep.exists_of_begin? (h : LevelsRep st levels l) {p : Price}
    (hp : levels.begin?.map (·.1) = some p) : ∃ e ∈ l, e.price = p := by
  obtain ⟨⟨p, lv⟩, hb, rfl⟩ := Option.map_eq_some_iff.mp hp
  obtain ⟨hf, -⟩ := OrdMap.find?_of_begin? hb
  obtain ⟨e, he⟩ := List.exists_mem_of_ne_nil _ (h.present p lv hf).1
  exact ⟨e, mem_queueAt.mp he⟩

end Levels

theorem bookShape_of_rep {m : Matcher} {b : QueueBook} (h : BookRep m.pool.storage m.book b)
    (hw : b.WF) (hall : b.All Plain) : BookShape m := by
  refine ⟨fun p q hp hq => ?_, fun x hx => ?_, fun x hx => ?_⟩
  · obtain ⟨e, he, rfl⟩ := h.bids.exists_of_begin? hp
    obtain ⟨f, hf, rfl⟩ := h.asks.exists_of_begin? hq
    exact hw.uncrossed e he f hf
  · rw [h.instrument]
    exact h.bids.levelShape (fun e he => restsAt_of_mem hw hall (Or.inl rfl) he) hx
  · rw [h.instrument]
    exact h.asks.levelShape (fun e he => restsAt_of_mem hw hall (Or.inr rfl) he) hx

/-! ## Runs

A call of `submit` or `cancel` at a time. Ids may be used again; what is submitted has declared
enumerators. -/

namespace Desk

/-- The side condition of a run: what is submitted has declared enumerators. -/
def DeclaredOnly (d : Desk) : Call → Prop
  | .submit a => (d.order a).Declared
  | _ => True

instance (d : Desk) : (c : Call) → Decidable (d.DeclaredOnly c)
  | .submit a => inferInstanceAs (Decidable (d.order a).Declared)
  | .acquire | .write _ _ | .cancel _ | .cancelAll | .release _ => isTrue trivial

/-- One call keeps all resting orders plain. -/
theorem all_plain_next {d d' : Desk} {b : QueueBook} {c : Call} (h : d.Inv b)
    (hall : b.All Plain) (hok : d.DeclaredOnly c) (hc : d.call c = some d') :
    (d.next b c).All Plain := by
  cases c with
  | submit a =>
    obtain ⟨⟨-, h0⟩, -⟩ : (a ∈ d.held ∧ (d.order a).filledQty = 0) ∧ d.submit a = d' := by
      simpa [Desk.call] using hc
    exact QueueBook.all_submit h.wf (OrderData.sound_of_fresh h0) hall fun hr =>
      hr.plain h.wf h0 hok
  | cancel id => exact QueueBook.all_cancel h.wf hall id
  | cancelAll => exact QueueBook.all_new _
  | acquire => exact hall
  | write a o => exact hall
  | release a => exact hall

/-- **Every book of every run is in shape**, and every fill of every match is exact. -/
theorem bookShape_of_reach {d : Desk} {i : InstrumentId} {capacity : ℕ}
    (h : Guarded.Reach Desk.call DeclaredOnly (start i capacity) d) :
    BookShape d.matcher ∧ d.matcher.book.instrument = i
      ∧ ∀ a ∈ d.held, (d.order a).filledQty = 0 →
        ∀ n, ExactPass (matchLoop n d.matcher a []).1 a := by
  obtain ⟨b, hb, hi, hall⟩ := exists_inv (J := QueueBook.All Plain) (QueueBook.all_new i)
    (fun _ _ _ _ hb hall hok hc => all_plain_next hb hall hok hc) h
  refine ⟨bookShape_of_rep hb.rep hb.wf hall, hb.rep.instrument.trans hi, fun a ha h0 n => ?_⟩
  have hmid : Midway d.matcher b a (d.order a) (opposite (d.order a).side) :=
    ⟨⟨hb.rep, hb.wf.sorted, hb.wf.nodup, hb.wf.open⟩, hb.notMem ha, rfl,
      OrderData.sound_of_fresh h0, rfl⟩
  obtain ⟨b', t', h'⟩ := hmid.matchLoop n []
  exact h'.exactPass

/-- A bid for 5 at 10, met by an offer of 3 at 9; the bid's id is used again before it is
cancelled. -/
def meeting : List Call :=
  [.acquire, .write 3 { id := 7, limitPrice := 10, initialQty := 5, instrument := 1 }, .submit 3,
    .acquire,
    .write 2 { id := 8, limitPrice := 9, initialQty := 3, instrument := 1, side := .sell },
    .submit 2, .release 2,
    .acquire, .write 2 { id := 7, limitPrice := 11, initialQty := 4, instrument := 1 }, .submit 2,
    .cancel 7]

theorem bookShape_of_meeting :
    ∃ d, Guarded.run Desk.call DeclaredOnly (start 1 4) meeting = some d
      ∧ d.matcher.book.bestBid = some 11 ∧ BookShape d.matcher := by
  have hbest : (Guarded.run Desk.call DeclaredOnly (start 1 4) meeting).map
      (·.matcher.book.bestBid) = some (some 11) := by decide +kernel
  obtain ⟨d, hd, hbest⟩ := Option.map_eq_some_iff.mp hbest
  exact ⟨d, hd, hbest, (bookShape_of_reach (.of_run hd)).1⟩

end Desk

end Ordbk
