import Ordbk.Abstract.Play
import Ordbk.Abstract.Indexed
import Ordbk.Abstract.Conserve

/-!
# Abstract/Bystander — an order nobody trades with

Take an order out of a book, or leave it in: as long as nobody trades with it, the book answers the
same.  `Sits b x` is a book with such an order in it, `b.without x` the same book without; a
submission or a cancel commutes with `without` (`Sits.submit`, `Sits.cancel`).

Sweeping stops before the order or would have traded with it.  The dry run of a fill-or-kill order
does count it, but agrees with a sweep that does not reach it.
-/

namespace Ordbk

/-! ## Sweeps

A sweep goes from the front and stops at the first order that is too expensive, or when the taker is
filled.  Taking out an order behind that point changes nothing. -/

section Sweep

variable {t : OrderData} {ms : List Resting} {c : Slot} {x : OrderId}

/-- Who is too expensive blocks everybody behind. -/
theorem blocked_of_behind {p q : Price} (hb : Matcher.blocked t p = true)
    (hq : ¬ better (opposite t.side) q p) : Matcher.blocked t q = true := by
  simp only [Matcher.blocked, Bool.and_eq_true, Bool.not_eq_true', pricesCross] at hb ⊢
  refine ⟨hb.1, ?_⟩
  by_cases hbuy : t.side = .buy
  · simp only [hbuy, if_true, opposite, better_sell, decide_eq_false_iff_not] at hb hq ⊢
    exact fun hle => hb.2 (le_trans (not_lt.mp hq) hle)
  · simp only [hbuy, if_false, opposite, better_buy, decide_eq_false_iff_not] at hb hq ⊢
    exact fun hle => hb.2 (le_trans hle (not_lt.mp hq))

/-- Stopped at the head, stopped at whoever is left behind it. -/
theorem stops_filter {m : Resting} {P : Resting → Bool}
    (hsort : Priority.Sorted Resting.price (better (opposite t.side)) (m :: ms))
    (h : Stops t (m :: ms)) : Stops t (ms.filter P) := by
  refine h.imp_right fun hb k hk => ?_
  have hmem : k ∈ ms := (List.mem_filter.mp (List.mem_of_mem_head? hk)).1
  exact blocked_of_behind (hb m rfl) ((Priority.sorted_cons.mp hsort).1 k hmem)

/-- **A sweep that does not touch an order** is a sweep without it. -/
theorem sweep_without (ht : t.Sound) (hms : ∀ m ∈ ms, m.order.Open)
    (hsort : Priority.Sorted Resting.price (better (opposite t.side)) ms)
    (hid : ∀ m ∈ ms, m.slot = c → m.order.id = x)
    (hno : ∀ y ∈ (sweep t ms).trades, y.makerId ≠ x) :
    sweep t (ms.filter fun e => e.slot ≠ c)
      = { sweep t ms with makers := (sweep t ms).makers.filter fun e => e.slot ≠ c } := by
  induction ms generalizing t with
  | nil => rfl
  | cons m ms ih =>
    have hm : m.order.Open := hms m (List.mem_cons_self ..)
    have hms' : ∀ k ∈ ms, k.order.Open := fun k hk => hms k (List.mem_cons_of_mem _ hk)
    have hid' : ∀ k ∈ ms, k.slot = c → k.order.id = x := fun k hk =>
      hid k (List.mem_cons_of_mem _ hk)
    by_cases hs : Stops t (m :: ms)
    · have hstop : Stops t ((m :: ms).filter fun e => e.slot ≠ c) := by
        by_cases hmc : m.slot = c
        · rw [List.filter_cons_of_neg (by simpa using hmc)]
          exact stops_filter hsort hs
        · rw [List.filter_cons_of_pos (by simpa using hmc)]
          exact hs
      rw [sweep_stop hs, sweep_stop hstop]
    by_cases hle : m.order.remaining ≤ t.remaining
    · rw [sweep_take hs hle] at hno ⊢
      have hmc : m.slot ≠ c := fun h =>
        hno _ (List.mem_cons_self ..) (hid m (List.mem_cons_self ..) h)
      have hs' : ¬ Stops t (m :: ms.filter fun e => e.slot ≠ c) :=
        not_stops_cons.mpr (not_stops_cons.mp hs)
      rw [List.filter_cons_of_pos (by simpa using hmc), sweep_take hs' hle,
        ih (t := t.fill m.order.remaining) (ht.fill hle) hms' (Priority.sorted_cons.mp hsort).2 hid'
          fun y hy => hno y (List.mem_cons_of_mem _ hy)]
    · have hlt := UInt64.not_le.mp hle
      rw [sweep_part hs hm hlt] at hno ⊢
      have hmc : m.slot ≠ c := fun h =>
        hno _ (List.mem_cons_self ..) (hid m (List.mem_cons_self ..) h)
      have hs' : ¬ Stops t (m :: ms.filter fun e => e.slot ≠ c) :=
        not_stops_cons.mpr (not_stops_cons.mp hs)
      have hpart : (m.partly t.remaining).slot ≠ c := hmc
      rw [List.filter_cons_of_pos (by simpa using hmc), sweep_part hs' hm hlt,
        List.filter_cons_of_pos (by simpa using hpart)]

/-- Who is gone has traded. -/
theorem exists_trade_of_gone (ht : t.Sound) (hms : ∀ m ∈ ms, m.order.Open) {g : Resting}
    (hg : g ∈ (sweep t ms).gone) : ∃ y ∈ (sweep t ms).trades, y.makerId = g.order.id := by
  revert hg
  refine sweep_rec (P := fun _ _ s => g ∈ s.gone → ∃ y ∈ s.trades, y.makerId = g.order.id)
    ?_ ?_ ?_ ht hms
  · intro t ms _ _ _ hg
    simp at hg
  · intro t m ms s _ _ _ _ _ _ ih hg
    rcases List.mem_cons.mp hg with rfl | hg
    · exact ⟨_, List.mem_cons_self .., rfl⟩
    · obtain ⟨y, hy, hid⟩ := ih hg
      exact ⟨y, List.mem_cons_of_mem _ hy, hid⟩
  · intro t m ms _ _ _ _ _ hg
    simp at hg

/-- Needing less is no harder. -/
theorem covers_of_le {need need' : Quantity} (h : covers t need ms = true) (hle : need' ≤ need) :
    covers t need' ms = true := by
  have hzero : ∀ {n n' : Quantity}, n' ≤ n → (n == 0) = true → (n' == 0) = true := by
    intro n n' hn h0
    rw [beq_iff_eq] at h0 ⊢
    rw [h0, UInt64.le_iff_toNat_le, UInt64.toNat_zero] at hn
    exact UInt64.toNat_inj.mp (Nat.le_zero.mp hn)
  induction ms generalizing need need' with
  | nil => exact hzero hle h
  | cons m ms ih =>
    rw [covers] at h ⊢
    by_cases hb : Matcher.blocked t m.price = true
    · rw [if_pos hb] at h ⊢
      exact hzero hle h
    rw [if_neg hb] at h ⊢
    by_cases hfew : need' ≤ m.order.remaining
    · rw [if_pos hfew]
    have hmany : ¬ need ≤ m.order.remaining := fun hn => hfew (UInt64.le_trans hle hn)
    rw [if_neg hfew]
    rw [if_neg hmany] at h
    refine ih h ?_
    have h1 := UInt64.toNat_sub_of_le _ _ (UInt64.le_of_lt (UInt64.not_le.mp hfew))
    have h2 := UInt64.toNat_sub_of_le _ _ (UInt64.le_of_lt (UInt64.not_le.mp hmany))
    rw [UInt64.le_iff_toNat_le] at hle ⊢
    omega

/-- **More orders cover no less.** -/
theorem covers_of_filter {need : Quantity} {P : Resting → Bool}
    (hsort : Priority.Sorted Resting.price (better (opposite t.side)) ms)
    (h : covers t need (ms.filter P) = true) : covers t need ms = true := by
  induction ms generalizing need with
  | nil => exact h
  | cons m ms ih =>
    obtain ⟨hm, hsort'⟩ := Priority.sorted_cons.mp hsort
    rw [covers]
    by_cases hb : Matcher.blocked t m.price = true
    · -- nobody behind `m` is any cheaper, so the shorter list is not walked at all
      rw [if_pos hb]
      cases hf : (m :: ms).filter P with
      | nil =>
        rw [hf] at h
        exact h
      | cons k ks =>
        have hk : k ∈ m :: ms := (List.mem_filter.mp (hf ▸ List.mem_cons_self ..)).1
        have hbk : Matcher.blocked t k.price = true := by
          rcases List.mem_cons.mp hk with rfl | hk
          · exact hb
          · exact blocked_of_behind hb (hm k hk)
        rw [hf, covers, if_pos hbk] at h
        exact h
    rw [if_neg hb]
    by_cases hfew : need ≤ m.order.remaining
    · rw [if_pos hfew]
    rw [if_neg hfew]
    by_cases hP : P m = true
    · rw [List.filter_cons_of_pos hP, covers, if_neg hb, if_neg hfew] at h
      exact ih hsort' h
    · rw [List.filter_cons_of_neg hP] at h
      refine covers_of_le (ih hsort' h) ?_
      have hsub := UInt64.toNat_sub_of_le _ _ (UInt64.le_of_lt (UInt64.not_le.mp hfew))
      rw [UInt64.le_iff_toNat_le]
      omega

end Sweep

/-! ## Books

The order's id must be its own: `alone` says that once it is taken out nobody else has it. -/

namespace QueueBook

variable {b : QueueBook} {x : OrderId} {a : Slot} {o : OrderData} {loc : Locator}

/-- Two books are the same if their sides and indices are. -/
theorem ext_side {b b' : QueueBook} (hi : b.instrument = b'.instrument)
    (hs : ∀ s, b.side s = b'.side s) (hx : ∀ id, b.index.lookup id = b'.index.lookup id) :
    b = b' := by
  obtain ⟨i, bids, asks, index⟩ := b
  obtain ⟨i', bids', asks', index'⟩ := b'
  obtain rfl : i = i' := hi
  obtain rfl : bids = bids' := hs .buy
  obtain rfl : asks = asks' := hs .sell
  obtain rfl : index = index' := Finmap.ext_lookup hx
  rfl

/-- The book without the order of this id. -/
def without (b : QueueBook) (x : OrderId) : QueueBook := (b.cancel x).1

/-- **An order of this id sits in the book**, and no other order has it. -/
structure Sits (b : QueueBook) (x : OrderId) : Prop where
  /-- The book is in order, -/
  wf : b.WF
  /-- The order is at rest and the index knows it. -/
  found : (b.cancel x).2.isSome = true
  /-- Nobody else has its id. -/
  alone : (b.without x).All fun o => o.id ≠ x

/-- Taking it out is removing what the index points to. -/
theorem without_eq (hl : b.index.lookup x = some loc) : b.without x = b.remove x loc := by
  simp only [without, cancel, hl]

/-- There is such an entry. -/
theorem Sits.exists_locator (h : b.Sits x) :
    ∃ loc, b.index.lookup x = some loc ∧ b.without x = b.remove x loc := by
  cases hl : b.index.lookup x with
  | none =>
    have hfound := h.found
    rw [cancel, hl] at hfound
    cases hfound
  | some loc => exact ⟨loc, rfl, without_eq hl⟩

/-- The index entry of the order leads to it alone. -/
theorem id_of_slot (hw : b.WF) (hl : b.index.lookup x = some loc) {s : Side} {e : Resting}
    (he : e ∈ b.side s) (hslot : e.slot = loc.order) : e.order.id = x := by
  obtain ⟨f, hf, hfs, hid, -⟩ := hw.located x loc hl
  obtain rfl := hw.eq_of_slot he hf (hslot.trans hfs.symm)
  exact hid

/-- The entries of all the others stay. -/
theorem lookup_remove (b : QueueBook) (x : OrderId) (loc : Locator) (id : OrderId) :
    (b.remove x loc).index.lookup id = if id = x then none else b.index.lookup id := by
  change (b.index.erase x).lookup id = _
  split_ifs with h
  · rw [h, Finmap.lookup_erase]
  · exact Finmap.lookup_erase_ne h

section Entry

variable (hw : b.WF) (hl : b.index.lookup x = some loc) (ho : o.Sound)
  (hno : ∀ y ∈ (b.entry o).trades, y.makerId ≠ x)
include hw hl ho hno

/-- The sweep, with and without. -/
theorem entry_remove : (b.remove x loc).entry o = { b.entry o with
    makers := (b.entry o).makers.filter fun e => e.slot ≠ loc.order } := by
  rw [entry, side_remove_eq hw hl]
  exact sweep_without ho hw.open (hw.sorted _) (fun m hm => id_of_slot hw hl hm) hno

/-- The order's index entry stays where it is. -/
theorem lookup_entered : (b.entered o).index.lookup x = some loc := by
  change (forget b.index _).lookup x = _
  rw [lookup_forget, if_neg, hl]
  intro hmem
  obtain ⟨g, hg, hgx⟩ := List.mem_map.mp hmem
  obtain ⟨y, hy, hid⟩ := exists_trade_of_gone ho hw.open hg
  exact hno y hy (hid.trans hgx)

/-- So the sweep may come first or last. -/
theorem entered_remove : (b.remove x loc).entered o = (b.entered o).remove x loc := by
  have hent := entry_remove hw hl ho hno
  refine ext_side ?_ (fun s => ?_) fun id => ?_
  · simp only [instrument_entered, remove, instrument_withSide]
  · rw [side_remove_eq (wf_entered hw ho) (lookup_entered hw hl ho hno), entered,
      entered, side_swept, side_swept, hent, side_remove_eq hw hl]
    split_ifs <;> rfl
  · change (forget (b.remove x loc).index ((b.remove x loc).entry o).gone).lookup id = _
    rw [hent, lookup_remove, lookup_forget, lookup_remove]
    change _ = if id = x then none else (forget b.index (b.entry o).gone).lookup id
    rw [lookup_forget]
    split_ifs <;> rfl

end Entry

/-- Coming to rest, with and without. -/
theorem rest_remove {e : Resting} (hw : b.WF) (hw' : (b.rest e).WF)
    (hl : b.index.lookup x = some loc) (hid : e.order.id ≠ x) (hslot : e.slot ≠ loc.order) :
    (b.rest e).index.lookup x = some loc ∧ (b.remove x loc).rest e = (b.rest e).remove x loc := by
  have hl' : (b.rest e).index.lookup x = some loc := by
    change (emplace b.index _ _).lookup x = _
    rw [lookup_emplace, if_neg fun hc => hid hc.1.symm, hl]
  refine ⟨hl', ext_side ?_ (fun s => ?_) fun id => ?_⟩
  · simp only [instrument_rest, remove, instrument_withSide]
  · rw [side_remove_eq hw' hl', side_rest, side_rest, side_remove_eq hw hl, side_remove_eq hw hl]
    split_ifs
    · exact (Priority.filter_enqueue_comm e (hw.sorted _) (by simpa using hslot)).symm
    · rfl
  · rw [lookup_remove]
    change (emplace (b.remove x loc).index _ _).lookup id
      = if id = x then none else (emplace b.index _ _).lookup id
    rw [lookup_emplace, lookup_emplace, lookup_remove, lookup_remove, if_neg hid]
    by_cases hx : id = x
    · rw [if_pos hx, if_pos hx, if_neg fun hc => hid (hc.1.symm.trans hx)]
    · rw [if_neg hx, if_neg hx]

/-- **An order that would not be filled by trading with it** is not refused for want of it. -/
theorem rejects_remove (hw : b.WF) (hl : b.index.lookup x = some loc) (h0 : o.filledQty = 0)
    (hno : ∀ y ∈ (b.submit a o).trades, y.makerId ≠ x) :
    (b.remove x loc).rejects o = b.rejects o := by
  have ho := OrderData.sound_of_fresh h0
  have hinst : (b.remove x loc).instrument = b.instrument := b.instrument_withSide _ _
  have hside := side_remove_eq hw hl (opposite o.side)
  cases hrej : b.rejects o with
  | true =>
    -- what the longer queue does not cover, the shorter does not
    have hmono : covers o o.remaining (b.side (opposite o.side)) = false →
        covers o o.remaining ((b.remove x loc).side (opposite o.side)) = false := fun hc => by
      rw [← Bool.not_eq_true] at hc ⊢
      exact fun hcov => hc (covers_of_filter (hw.sorted _) (hside ▸ hcov))
    unfold rejects at hrej ⊢
    rw [hinst]
    simp only [Bool.or_eq_true, Bool.and_eq_true, Bool.not_eq_true'] at hrej ⊢
    exact hrej.imp_right fun h => ⟨h.1, hmono h.2⟩
  | false =>
    have htrades := trades_submit b a o
    rw [hrej, if_neg Bool.false_ne_true] at htrades
    rw [htrades] at hno
    have hne : o.remaining ≠ 0 := remaining_of_fresh h0 ▸ initialQty_of_accepted hrej
    -- a fill-or-kill order is filled in the sweep, and the sweep is the same
    have hcov : covers o o.remaining (b.side (opposite o.side))
        = covers o o.remaining ((b.remove x loc).side (opposite o.side)) := by
      rw [Bool.eq_iff_iff, covers_iff_filled hw ho hne, covers_iff_filled (wf_remove hw hl) ho hne,
        entry_remove hw hl ho hno]
    rw [← hrej]
    unfold rejects
    rw [hinst, hcov]

/-- A submission keeps the order's index entry, and commutes with taking the order out. -/
theorem submit_remove (hw : b.WF) (hl : b.index.lookup x = some loc) (h0 : o.filledQty = 0)
    (hid : o.id ≠ x) (ha : a ∉ b.slots) (hno : ∀ y ∈ (b.submit a o).trades, y.makerId ≠ x) :
    (b.submit a o).book.index.lookup x = some loc
      ∧ (b.remove x loc).submit a o
        = { b.submit a o with book := (b.submit a o).book.remove x loc } := by
  have ho := OrderData.sound_of_fresh h0
  have hrej := rejects_remove hw hl h0 hno
  have hwf := wf_submit hw ho ha
  have htrades := trades_submit b a o
  unfold submit at hwf ⊢
  rw [hrej]
  by_cases hr : b.rejects o = true
  · simp only [hr, if_true]
    exact ⟨hl, trivial⟩
  rw [if_neg hr] at htrades
  rw [htrades] at hno
  have hent := entry_remove hw hl ho hno
  have hentered := entered_remove hw hl ho hno
  have hlook := lookup_entered hw hl ho hno
  have htaker : (b.entry o).taker.id = o.id := congrArg (·.id) (ident_entry hw ho)
  have hslot : a ≠ loc.order := by
    rintro rfl
    obtain ⟨f, hf, hfs, -⟩ := hw.located x loc hl
    exact ha (mem_slots.mpr ⟨_, f, hf, hfs⟩)
  simp only [hr, if_false, Bool.false_eq_true, hent, hentered] at hwf ⊢
  split_ifs at hwf ⊢
  · exact ⟨hlook, rfl⟩
  · exact ⟨hlook, rfl⟩
  · obtain ⟨h1, h2⟩ := rest_remove (e := ⟨a, _⟩) (wf_entered hw ho) hwf hlook
      (fun h => hid (htaker.symm.trans h)) hslot
    exact ⟨h1, by rw [h2]⟩

/-- Cancelling two orders, in either order. -/
theorem remove_remove (hw : b.WF) (hl : b.index.lookup x = some loc) {id : OrderId} {loc' : Locator}
    (hl' : b.index.lookup id = some loc') (hid : id ≠ x) :
    (b.remove x loc).remove id loc' = (b.remove id loc').remove x loc := by
  have h1 : (b.remove x loc).index.lookup id = some loc' := by rw [lookup_remove, if_neg hid, hl']
  have h2 : (b.remove id loc').index.lookup x = some loc := by
    rw [lookup_remove, if_neg (Ne.symm hid), hl]
  refine ext_side ?_ (fun s => ?_) fun y => ?_
  · simp only [remove, instrument_withSide]
  · rw [side_remove_eq (wf_remove hw hl) h1, side_remove_eq (wf_remove hw hl') h2,
      side_remove_eq hw hl, side_remove_eq hw hl', List.filter_filter, List.filter_filter]
    exact List.filter_congr fun e _ => Bool.and_comm _ _
  · simp only [lookup_remove]
    split_ifs <;> rfl

/-- **A submission, with and without.** -/
theorem Sits.submit (h : b.Sits x) (h0 : o.filledQty = 0) (hid : o.id ≠ x) (ha : a ∉ b.slots)
    (hno : ∀ y ∈ (b.submit a o).trades, y.makerId ≠ x) :
    (b.submit a o).book.Sits x
      ∧ (b.without x).submit a o = { b.submit a o with book := (b.submit a o).book.without x } := by
  have ho := OrderData.sound_of_fresh h0
  obtain ⟨loc, hl, hwithout⟩ := h.exists_locator
  obtain ⟨hl', heq⟩ := submit_remove h.wf hl h0 hid ha hno
  rw [← hwithout, ← without_eq hl'] at heq
  refine ⟨⟨wf_submit h.wf ho ha, by rw [QueueBook.cancel, hl']; rfl, ?_⟩, heq⟩
  have hall := all_submit (a := a) (wf_cancel h.wf x) ho h.alone fun _ => hid
  change ((b.without x).submit a o).book.All _ at hall
  rwa [heq] at hall

/-- **A cancel, with and without.** -/
theorem Sits.cancel (h : b.Sits x) {id : OrderId} (hid : id ≠ x) :
    (b.cancel id).1.Sits x
      ∧ (b.without x).cancel id = ((b.cancel id).1.without x, (b.cancel id).2) := by
  obtain ⟨loc, hl, hwithout⟩ := h.exists_locator
  have hlook : (b.without x).index.lookup id = b.index.lookup id := by
    rw [hwithout, lookup_remove, if_neg hid]
  cases hl' : b.index.lookup id with
  | none =>
    have h1 : b.cancel id = (b, none) := by rw [QueueBook.cancel, hl']
    rw [hl'] at hlook
    rw [h1, QueueBook.cancel, hlook]
    exact ⟨h, rfl⟩
  | some loc' =>
    have h1 : b.cancel id = (b.remove id loc', some loc'.order) := by rw [QueueBook.cancel, hl']
    have h2 : (b.remove id loc').index.lookup x = some loc := by
      rw [lookup_remove, if_neg (Ne.symm hid), hl]
    have h3 : (b.without x).cancel id = ((b.remove id loc').without x, some loc'.order) := by
      rw [without_eq h2, ← remove_remove h.wf hl hl' hid, QueueBook.cancel, hlook, hl', hwithout]
    have hall := all_cancel (wf_cancel h.wf x) h.alone id
    change ((b.without x).cancel id).1.All _ at hall
    rw [h3] at hall
    rw [h1]
    exact ⟨⟨wf_remove h.wf hl', by rw [QueueBook.cancel, h2]; rfl, hall⟩, h3⟩

end QueueBook

end Ordbk
