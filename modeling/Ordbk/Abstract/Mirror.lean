import Ordbk.Abstract.Play

/-!
# Abstract/Mirror — buying and selling are one thing

Reflect every price at `K` and turn every side around: `sweep`, `covers` and `enqueue` commute with
it, because the two comparators and the two price tests are each other's reflections.
`Mirrored K b b'` is the relation between a book and its reflection, kept by every call; unlike a
renaming it needs the orders to be decently priced, since `submit` checks a limit price against zero
on both sides.
-/

namespace Ordbk

/-! ## Reflections

A price `p` becomes `K - p`, a bid an offer. What is compared on one side is compared the other way
round on the other, so the two cancel out. -/

/-- The order on the other side, at the reflected price. -/
def OrderData.mirror (K : ℤ) (o : OrderData) : OrderData :=
  { o with side := opposite o.side, limitPrice := K - o.limitPrice }

/-- The execution at the reflected price. -/
def Trade.mirror (K : ℤ) (t : Trade) : Trade := { t with price := K - t.price }

/-- The order at rest, in the same slot. -/
def Resting.mirror (K : ℤ) (e : Resting) : Resting := ⟨e.slot, e.order.mirror K⟩

/-- The place it is found at. -/
def Locator.mirror (K : ℤ) (loc : Locator) : Locator :=
  { loc with side := opposite loc.side, price := K - loc.price }

/-- The call, -/
def BookCall.mirror (K : ℤ) : BookCall → BookCall
  | submit o => submit (o.mirror K)
  | cancel id => cancel id
  | expire => expire

/-- and the call with its reply. -/
def Played.mirror (K : ℤ) : Played → Played
  | submit o after trades => submit (o.mirror K) (after.mirror K) (trades.map (Trade.mirror K))
  | cancel id found => cancel id found
  | expire found => expire found

/-- A buy or a sell, priced between `0` and `K` if it is a limit order. -/
structure OrderData.Mirrorable (K : ℤ) (o : OrderData) : Prop where
  /-- The order is for one of the two sides, -/
  side : o.side.Declared
  /-- and its limit passes the check here and there. -/
  price : o.type = .limit → 0 < o.limitPrice ∧ o.limitPrice < K

instance (K : ℤ) (o : OrderData) : Decidable (o.Mirrorable K) :=
  decidable_of_iff (o.side.Declared ∧ (o.type = .limit → 0 < o.limitPrice ∧ o.limitPrice < K))
    ⟨fun h => ⟨h.1, h.2⟩, fun h => ⟨h.side, h.price⟩⟩

/-- If the call is a submission, its order can be reflected. -/
def Played.Mirrorable (K : ℤ) : Played → Prop
  | submit o _ _ => o.Mirrorable K
  | _ => True

instance (K : ℤ) : (x : Played) → Decidable (x.Mirrorable K)
  | .submit o _ _ => inferInstanceAs (Decidable (o.Mirrorable K))
  | .cancel _ _ | .expire _ => isTrue trivial

variable {K : ℤ} {s : Side} {p q : Price}

/-- Two prices cross when their reflections do. -/
theorem pricesCross_mirror (hs : s.Declared) :
    pricesCross (opposite s) (K - p) (K - q) = pricesCross s p q := by
  rcases hs with rfl | rfl
  · exact decide_eq_decide.mpr (sub_le_sub_iff_left K)
  · exact decide_eq_decide.mpr (sub_le_sub_iff_left K)

/-- A price is better when its reflection is, on the other side. -/
theorem better_mirror (hs : s.Declared) : better (opposite s) (K - p) (K - q) ↔ better s p q := by
  rcases hs with rfl | rfl
  · exact sub_lt_sub_iff_left K
  · exact sub_lt_sub_iff_left K

/-- A limit stops an order where the reflected limit stops the reflected order. -/
theorem blocked_mirror {t : OrderData} (ht : t.side.Declared) :
    Matcher.blocked (t.mirror K) (K - p) = Matcher.blocked t p := by
  unfold Matcher.blocked
  exact congrArg (fun b => t.type == .limit && !b) (pricesCross_mirror ht)

/-! ## The three recursions

A queue is swept, counted and entered from the front, and the front stays the front. -/

/-- **Sweeping the reflection** is reflecting the sweep. -/
theorem sweep_mirror {t : OrderData} (ht : t.side.Declared) (ms : List Resting) :
    sweep (t.mirror K) (ms.map (Resting.mirror K))
      = ⟨(sweep t ms).taker.mirror K, (sweep t ms).makers.map (Resting.mirror K),
          (sweep t ms).trades.map (Trade.mirror K), (sweep t ms).gone.map (Resting.mirror K)⟩ := by
  induction ms generalizing t with
  | nil => rfl
  | cons m ms ih =>
    have hprice : (m.mirror K).price = K - m.price := rfl
    have horder : (m.mirror K).order = m.order.mirror K := rfl
    have hrem : ∀ o : OrderData, (o.mirror K).remaining = o.remaining := fun _ => rfl
    have hfill : ∀ (o : OrderData) (q : Quantity), (o.mirror K).fill q = (o.fill q).mirror K :=
      fun _ _ => rfl
    have hfull : ∀ o : OrderData, (o.mirror K).isFullyFilled = o.isFullyFilled := fun _ => rfl
    simp only [List.map_cons, sweep, hprice, horder, hrem, hfill, hfull, blocked_mirror ht]
    rw [ih (t := t.fill (qtyMin t.remaining m.order.remaining)) ht]
    split_ifs <;> rfl

/-- The dry run counts the same, -/
theorem covers_mirror {t : OrderData} (ht : t.side.Declared) (need : Quantity) (ms : List Resting) :
    covers (t.mirror K) need (ms.map (Resting.mirror K)) = covers t need ms := by
  induction ms generalizing need with
  | nil => rfl
  | cons m ms ih =>
    have hprice : (m.mirror K).price = K - m.price := rfl
    have hrem : (m.mirror K).order.remaining = m.order.remaining := rfl
    simp only [List.map_cons, covers, hprice, hrem, blocked_mirror ht, ih]

/-- and a newcomer takes the reflected place. -/
theorem enqueue_mirror (hs : s.Declared) (e : Resting) (l : List Resting) :
    Priority.enqueue Resting.price (better (opposite s)) (e.mirror K) (l.map (Resting.mirror K))
      = (Priority.enqueue Resting.price (better s) e l).map (Resting.mirror K) := by
  induction l with
  | nil => rfl
  | cons x l ih =>
    have hprice : ∀ y : Resting, (y.mirror K).price = K - y.price := fun _ => rfl
    simp only [List.map_cons, Priority.enqueue, hprice, better_mirror hs, ih]
    split_ifs <;> rfl

/-! ## Books

The relation between a book and its reflection. It speaks of declared sides only: an order whose
side byte is neither 0 nor 1 counts as a sell here and there, and a reflection would have to make it
a buy. -/

namespace QueueBook

/-- **One book is the other's reflection.** -/
structure Mirrored (K : ℤ) (b b' : QueueBook) : Prop where
  /-- They are books of one instrument. -/
  instrument : b'.instrument = b.instrument
  /-- The bids are the reflected asks, -/
  bids : b'.bids = b.asks.map (Resting.mirror K)
  /-- and the asks the reflected bids. -/
  asks : b'.asks = b.bids.map (Resting.mirror K)
  /-- The index leads to the same orders. -/
  index : ∀ id, b'.index.lookup id = (b.index.lookup id).map (Locator.mirror K)
  /-- No order rests under an undeclared side. -/
  sides : ∀ id loc, b.index.lookup id = some loc → loc.side.Declared

namespace Mirrored

variable {b b' : QueueBook} {a : Slot} {o : OrderData}

/-- Empty books. -/
theorem new (K : ℤ) (i : InstrumentId) : Mirrored K ⟨i, [], [], ∅⟩ ⟨i, [], [], ∅⟩ :=
  ⟨rfl, rfl, rfl, fun _ => rfl, fun _ _ h => by simp at h⟩

/-- The side opposite an order's own. -/
theorem side (h : Mirrored K b b') (hs : s.Declared) :
    b'.side (opposite s) = (b.side s).map (Resting.mirror K) := by
  rcases hs with rfl | rfl
  · exact h.asks
  · exact h.bids

/-- The side an order sweeps. -/
theorem side_opposite (h : Mirrored K b b') (hs : s.Declared) :
    b'.side (opposite (opposite s)) = (b.side (opposite s)).map (Resting.mirror K) := by
  rcases hs with rfl | rfl
  · exact h.bids
  · exact h.asks

/-- Replacing a side and the index on both. -/
theorem withSide (h : Mirrored K b b') (hs : s.Declared) (l : List Resting)
    {ix ix' : Finmap fun _ : OrderId => Locator}
    (hix : ∀ id, ix'.lookup id = (ix.lookup id).map (Locator.mirror K))
    (hsides : ∀ id loc, ix.lookup id = some loc → loc.side.Declared) :
    Mirrored K { b.withSide s l with index := ix }
      { b'.withSide (opposite s) (l.map (Resting.mirror K)) with index := ix' } := by
  rcases hs with rfl | rfl
  · exact ⟨h.instrument, h.bids, rfl, hix, hsides⟩
  · exact ⟨h.instrument, rfl, h.asks, hix, hsides⟩

/-- The slots are the same, bids and asks exchanged. -/
theorem slots_perm (h : Mirrored K b b') : b'.slots.Perm b.slots := by
  simp only [slots, resting, h.bids, h.asks, ← List.map_append, List.map_map]
  exact List.perm_append_comm.map _

/-- The checks before matching, -/
theorem rejects_eq (h : Mirrored K b b') (ho : o.Mirrorable K) :
    b'.rejects (o.mirror K) = b.rejects o := by
  have hprice : (o.type == .limit && decide (K - o.limitPrice ≤ 0))
      = (o.type == .limit && decide (o.limitPrice ≤ 0)) := by
    by_cases ht : o.type = .limit
    · obtain ⟨hlo, hhi⟩ := ho.price ht
      rw [decide_eq_false (not_le.mpr (sub_pos.mpr hhi)), decide_eq_false (not_le.mpr hlo)]
    · rw [beq_eq_false_iff_ne.mpr ht, Bool.false_and, Bool.false_and]
  have hcovers : covers (o.mirror K) (o.mirror K).remaining (b'.side (opposite (o.mirror K).side))
      = covers o o.remaining (b.side (opposite o.side)) := by
    change covers _ o.remaining (b'.side (opposite (opposite o.side))) = _
    rw [h.side_opposite ho.side, covers_mirror ho.side]
  unfold rejects
  rw [hcovers, h.instrument]
  change (_ || _ || (o.type == .limit && decide (K - o.limitPrice ≤ 0)) || _ || _) = _
  rw [hprice]
  rfl

/-- the sweep, -/
theorem entry_eq (h : Mirrored K b b') (ho : o.side.Declared) :
    b'.entry (o.mirror K) = ⟨(b.entry o).taker.mirror K, (b.entry o).makers.map (Resting.mirror K),
      (b.entry o).trades.map (Trade.mirror K), (b.entry o).gone.map (Resting.mirror K)⟩ := by
  change sweep _ (b'.side (opposite (opposite o.side))) = _
  rw [h.side_opposite ho, sweep_mirror ho]
  rfl

/-- (the side opposite any is a declared one) -/
theorem declared_opposite (s : Side) : (opposite s).Declared := by
  unfold opposite
  split_ifs
  · exact .inr rfl
  · exact .inl rfl

/-- the book it leaves, -/
theorem entered (h : Mirrored K b b') (ho : o.side.Declared) :
    Mirrored K (b.entered o) (b'.entered (o.mirror K)) := by
  unfold QueueBook.entered swept
  rw [h.entry_eq ho]
  refine h.withSide (declared_opposite o.side) _ (fun id => ?_) fun id loc hl => ?_
  · have hids : ((b.entry o).gone.map (Resting.mirror K)).map (·.order.id)
        = (b.entry o).gone.map (·.order.id) := by
      rw [List.map_map]
      rfl
    rw [lookup_forget, lookup_forget, hids, h.index]
    split_ifs <;> rfl
  · rw [lookup_forget] at hl
    split_ifs at hl
    exact h.sides id loc hl

/-- and the order that comes to rest. -/
theorem rest (h : Mirrored K b b') {e : Resting} (he : e.order.side.Declared) :
    Mirrored K (b.rest e) (b'.rest (e.mirror K)) := by
  have hside : (e.mirror K).order.side = opposite e.order.side := rfl
  have hloc : (if (e.mirror K).order.side = .buy then Side.buy else Side.sell)
      = opposite (if e.order.side = .buy then .buy else .sell) := by
    rw [hside]
    rcases he with he | he <;> rw [he] <;> rfl
  have hdecl : (if e.order.side = .buy then Side.buy else Side.sell).Declared := by
    split_ifs
    · exact .inl rfl
    · exact .inr rfl
  unfold QueueBook.rest
  simp only [hside, h.side he, enqueue_mirror he]
  refine h.withSide he _ (fun id => ?_) fun id loc hl => ?_
  · have hid : (e.mirror K).order.id = e.order.id := rfl
    rw [← hside, hloc]
    simp only [lookup_emplace, hid, h.index, Option.map_eq_none_iff]
    split_ifs <;> rfl
  · rw [lookup_emplace] at hl
    by_cases hnew : id = e.order.id ∧ b.index.lookup e.order.id = none
    · rw [if_pos hnew] at hl
      obtain rfl := Option.some.inj hl
      exact hdecl
    · rw [if_neg hnew] at hl
      exact h.sides id loc hl

/-- **A submission to the reflection** is the reflection of the submission. -/
theorem submit (h : Mirrored K b b') (hw : b.WF) (ho : o.Sound) (hm : o.Mirrorable K) (a : Slot) :
    Mirrored K (b.submit a o).book (b'.submit a (o.mirror K)).book
      ∧ (b'.submit a (o.mirror K)).order = (b.submit a o).order.mirror K
      ∧ (b'.submit a (o.mirror K)).trades = (b.submit a o).trades.map (Trade.mirror K) := by
  have hside : (b.entry o).taker.side = o.side := congrArg (·.side) (ident_entry hw ho)
  have hrest : Mirrored K
      ((b.entered o).rest ⟨a, (b.entry o).taker.withStatus (b.entry o).taker.restStatus⟩)
      ((b'.entered (o.mirror K)).rest
        (Resting.mirror K ⟨a, (b.entry o).taker.withStatus (b.entry o).taker.restStatus⟩)) :=
    (h.entered hm.side).rest (e := ⟨a, _⟩) (hside.symm ▸ hm.side)
  have hfull : ((b.entry o).taker.mirror K).isFullyFilled = (b.entry o).taker.isFullyFilled := rfl
  have htype : (o.mirror K).type = o.type := rfl
  have htif : (o.mirror K).tif = o.tif := rfl
  unfold QueueBook.submit
  simp only [h.rejects_eq hm, h.entry_eq hm.side, hfull, htype, htif]
  split_ifs
  · exact ⟨h, rfl, rfl⟩
  · exact ⟨h.entered hm.side, rfl, rfl⟩
  · exact ⟨h.entered hm.side, rfl, rfl⟩
  · exact ⟨hrest, rfl, rfl⟩

/-- **A cancel** needs no reflection. -/
theorem cancel (h : Mirrored K b b') (id : OrderId) :
    Mirrored K (b.cancel id).1 (b'.cancel id).1
      ∧ (b'.cancel id).2.isSome = (b.cancel id).2.isSome := by
  unfold QueueBook.cancel
  rw [h.index]
  cases hl : b.index.lookup id with
  | none => exact ⟨h, rfl⟩
  | some loc =>
    refine ⟨?_, rfl⟩
    have hs := h.sides id loc hl
    change Mirrored K (b.remove id loc) (b'.remove id (loc.mirror K))
    have hfilter : (b'.side (opposite loc.side)).filter (fun e => e.slot ≠ loc.order)
        = ((b.side loc.side).filter fun e => e.slot ≠ loc.order).map (Resting.mirror K) := by
      rw [h.side hs, List.filter_map]
      rfl
    have hremove : b'.remove id (loc.mirror K) = { b'.withSide (opposite loc.side)
        (((b.side loc.side).filter fun e => e.slot ≠ loc.order).map (Resting.mirror K)) with
        index := b'.index.erase id } := by
      rw [← hfilter]
      rfl
    rw [hremove]
    refine h.withSide hs _ (fun id' => ?_) fun id' loc' hl' => ?_
    · by_cases hid : id' = id
      · subst hid
        rw [Finmap.lookup_erase, Finmap.lookup_erase]
        rfl
      · rw [Finmap.lookup_erase_ne hid, Finmap.lookup_erase_ne hid, h.index]
    · by_cases hid : id' = id
      · subst hid
        simp at hl'
      · rw [Finmap.lookup_erase_ne hid] at hl'
        exact h.sides id' loc' hl'

end Mirrored

/-- The second book is the reflection of the first, slot addresses aside. -/
def Reflects (K : ℤ) (b b' : QueueBook) : Prop := ∃ b₁, Mirrored K b b₁ ∧ Alike b' b₁

/-- The orders of a side of the reflection. -/
theorem Reflects.orders_eq {b b' : QueueBook} (h : Reflects K b b') (hs : s.Declared) :
    (b'.side (opposite s)).map (·.order) = ((b.side s).map (·.order)).map (OrderData.mirror K) := by
  obtain ⟨b₁, hm, ha⟩ := h
  rw [← ha.orders_eq, hm.side hs, List.map_map, List.map_map]
  rfl

end QueueBook

open QueueBook

/-- **A reflected call gets the reflected reply.** -/
theorem Answers.reflects {s s' t t' : Option QueueBook} {x y : Played}
    (hR : Option.Rel (Reflects K) s t) (h : Answers s x s') (h' : Answers t y t')
    (hx : x.Mirrorable K) (hc : y.call = x.call.mirror K) :
    y = x.mirror K ∧ Option.Rel (Reflects K) s' t' := by
  cases hR with
  | none =>
    cases h with
    | submitNone =>
      cases h' with
      | submitNone =>
        obtain rfl := BookCall.submit.inj hc
        exact ⟨rfl, .none⟩
      | cancelNone => cases hc
      | expireNone => cases hc
    | cancelNone =>
      cases h' with
      | submitNone => cases hc
      | cancelNone =>
        obtain rfl := BookCall.cancel.inj hc
        exact ⟨rfl, .none⟩
      | expireNone => cases hc
    | expireNone =>
      cases h' with
      | submitNone => cases hc
      | cancelNone => cases hc
      | expireNone => exact ⟨rfl, .none⟩
  | some hR =>
    obtain ⟨b₁, hm, ha⟩ := hR
    cases h with
    | @submit _ a o hw hslot h0 =>
      cases h' with
      | @submit _ a' o' hw' hslot' _ =>
        obtain rfl : o' = o.mirror K := BookCall.submit.inj hc
        obtain ⟨hbook, horder, htrades⟩ := hm.submit hw (OrderData.sound_of_fresh h0) hx a
        have hfresh : a ∉ b₁.slots := fun hmem => hslot (hm.slots_perm.mem_iff.mp hmem)
        obtain ⟨hbook', horder', htrades'⟩ := ha.submit hw' hslot' hfresh (o.mirror K)
        refine ⟨?_, .some ⟨_, hbook, hbook'⟩⟩
        rw [← horder', ← htrades', horder, htrades]
        rfl
      | cancel => cases hc
      | expire => cases hc
    | cancel hw =>
      cases h' with
      | submit => cases hc
      | cancel _ =>
        obtain rfl := BookCall.cancel.inj hc
        obtain ⟨hbook, hfound⟩ := hm.cancel _
        obtain ⟨hbook', hfound'⟩ := ha.cancel _
        refine ⟨?_, .some ⟨_, hbook, hbook'⟩⟩
        rw [← hfound', hfound]
        rfl
      | expire => cases hc
    | expire =>
      cases h' with
      | submit => cases hc
      | cancel => cases hc
      | expire => exact ⟨rfl, .none⟩

end Ordbk
