import Ordbk.Abstract.Indexed
import Ordbk.Abstract.Play

/-!
# Abstract/Interest — what of a book matters

Of a resting order only its id, its price and what remains of it can be seen by those who trade with
it or cancel it; the quantity it came with, what it has been filled, its status and its owner
cannot.  Two books with the same interests in the same queues answer the same calls alike
(`Answers.akin`), wherever the orders are stored.
-/

namespace Ordbk

/-- What of an order is still to be traded. -/
structure Interest where
  /-- By which it is cancelled. -/
  id : OrderId
  /-- At which it trades. -/
  price : Price
  /-- And up to which. -/
  remaining : Quantity
  deriving DecidableEq, Repr

/-- What others can see of a resting order. -/
def OrderData.interest (o : OrderData) : Interest := ⟨o.id, o.limitPrice, o.remaining⟩

/-- The same interest, in a slot of another name. -/
structure Resting.Akin (π : Equiv.Perm Slot) (e e' : Resting) : Prop where
  /-- Stored somewhere else, -/
  slot : e'.slot = π e.slot
  /-- and the same to anybody who looks. -/
  interest : e'.order.interest = e.order.interest

/-- The queues of a book lead to the same order under the other names. -/
structure Locator.Akin (π : Equiv.Perm Slot) (loc loc' : Locator) : Prop where
  /-- The same side, under whichever of its names, -/
  side : SameSide loc.side loc'.side
  /-- and the slot of the same order. -/
  order : loc'.order = π loc.order

section Akin

variable {π : Equiv.Perm Slot} {e e' : Resting} {ms ms' : List Resting} {t : OrderData}

/-- Akin orders have the same id, -/
theorem Resting.Akin.id_eq (h : e.Akin π e') : e'.order.id = e.order.id :=
  congrArg Interest.id h.interest

/-- the same price, -/
theorem Resting.Akin.price_eq (h : e.Akin π e') : e'.price = e.price :=
  congrArg Interest.price h.interest

/-- and the same quantity left. -/
theorem Resting.Akin.remaining_eq (h : e.Akin π e') : e'.order.remaining = e.order.remaining :=
  congrArg Interest.remaining h.interest

/-- An order is full when nothing remains of it. -/
theorem isFullyFilled_eq (o : OrderData) : o.isFullyFilled = (o.remaining == 0) := by
  unfold OrderData.isFullyFilled OrderData.remaining
  rw [Bool.eq_iff_iff, beq_iff_eq, beq_iff_eq, UInt64.sub_eq_iff_eq_add, UInt64.zero_add, eq_comm]

/-- A fill takes off what remains. -/
theorem remaining_fill (o : OrderData) (q : Quantity) : (o.fill q).remaining = o.remaining - q := by
  change o.initialQty - (o.filledQty + q) = o.initialQty - o.filledQty - q
  rw [eq_comm, UInt64.sub_eq_iff_eq_add, UInt64.sub_eq_iff_eq_add, UInt64.add_assoc,
    UInt64.add_comm q, UInt64.sub_add_cancel]

/-- A fill takes the same from the same interests. -/
theorem interest_fill {o o' : OrderData} (h : o'.interest = o.interest) (q : Quantity) :
    (o'.fill q).interest = (o.fill q).interest := by
  have hrem : o'.remaining = o.remaining := congrArg Interest.remaining h
  have hid : o'.id = o.id := congrArg Interest.id h
  have hprice : o'.limitPrice = o.limitPrice := congrArg Interest.price h
  unfold OrderData.interest
  rw [remaining_fill, remaining_fill, hrem]
  exact congrArg₂ (fun id price => Interest.mk id price _) hid hprice

/-- **Sweeping akin makers**: the same executions, and akin makers are left and gone. -/
theorem sweep_akin (h : List.Forall₂ (Resting.Akin π) ms ms') (t : OrderData) :
    (sweep t ms').taker = (sweep t ms).taker ∧ (sweep t ms').trades = (sweep t ms).trades
      ∧ List.Forall₂ (Resting.Akin π) (sweep t ms).makers (sweep t ms').makers
      ∧ List.Forall₂ (Resting.Akin π) (sweep t ms).gone (sweep t ms').gone := by
  induction h generalizing t with
  | nil => exact ⟨rfl, rfl, .nil, .nil⟩
  | @cons m m' ms ms' hm hms ih =>
    have htrade : ∀ q, tradeOf t m'.order q = tradeOf t m.order q := fun q => by
      have hprice : m'.order.limitPrice = m.order.limitPrice := hm.price_eq
      unfold tradeOf
      rw [hm.id_eq, hprice]
    have hfill := interest_fill hm.interest
    have hfull : ∀ q, (m'.order.fill q).isFullyFilled
        = (m.order.fill q).isFullyFilled := fun q => by
      rw [isFullyFilled_eq, isFullyFilled_eq]
      exact congrArg (· == 0) (congrArg Interest.remaining (hfill q))
    have hmaker : ∀ q s, Resting.Akin π ⟨m.slot, (m.order.fill q).withStatus s⟩
        ⟨m'.slot, (m'.order.fill q).withStatus s⟩ := fun q s => ⟨hm.slot, hfill q⟩
    obtain ⟨htaker, htrades, hmakers, hgone⟩ := ih (t.fill (qtyMin t.remaining m.order.remaining))
    simp only [sweep, hm.price_eq, hm.remaining_eq, htrade, hfull]
    split_ifs
    · exact ⟨rfl, rfl, .cons hm hms, .nil⟩
    · exact ⟨htaker, by rw [htrades], hmakers, .cons (hmaker _ _) hgone⟩
    · exact ⟨rfl, rfl, .cons (hmaker _ _) hms, .nil⟩

/-- The dry run counts the same, -/
theorem covers_akin (h : List.Forall₂ (Resting.Akin π) ms ms') (t : OrderData) (need : Quantity) :
    covers t need ms' = covers t need ms := by
  induction h generalizing need with
  | nil => rfl
  | cons hm _ ih => simp only [covers, hm.price_eq, hm.remaining_eq, ih]

/-- a newcomer finds the same place, -/
theorem enqueue_akin (h : List.Forall₂ (Resting.Akin π) ms ms') (s : Side) (he : e.Akin π e') :
    List.Forall₂ (Resting.Akin π) (Priority.enqueue Resting.price (better s) e ms)
      (Priority.enqueue Resting.price (better s) e' ms') := by
  induction h with
  | nil => exact .cons he .nil
  | cons hm hms ih =>
    simp only [Priority.enqueue, he.price_eq, hm.price_eq]
    split_ifs
    · exact .cons he (.cons hm hms)
    · exact .cons hm ih

/-- and an order that is cut out leaves the same gap. -/
theorem filter_akin (h : List.Forall₂ (Resting.Akin π) ms ms') (c : Slot) :
    List.Forall₂ (Resting.Akin π) (ms.filter fun e => e.slot ≠ c)
      (ms'.filter fun e => e.slot ≠ π c) :=
  List.rel_filter (fun e e' he => by simp [he.slot]) h

end Akin

namespace QueueBook

/-- A side may be named by any of its bytes. -/
theorem withSide_congr (b : QueueBook) {s s' : Side} (h : SameSide s s') (l : List Resting) :
    b.withSide s l = b.withSide s' l := by
  unfold withSide
  by_cases hs : s = .buy
  · rw [if_pos hs, if_pos (h.mp hs)]
  · rw [if_neg hs, if_neg fun hs' => hs (h.mpr hs')]

/-- **The same interests in the same queues**, under other slot names. -/
structure Akin (π : Equiv.Perm Slot) (b b' : QueueBook) : Prop where
  /-- They are books of one instrument. -/
  instrument : b'.instrument = b.instrument
  /-- Queue by queue, order by order. -/
  side : ∀ s, List.Forall₂ (Resting.Akin π) (b.side s) (b'.side s)
  /-- And each id leads to the same order, or in both to none. -/
  index : ∀ id, Option.Rel (Locator.Akin π) (b.index.lookup id) (b'.index.lookup id)

namespace Akin

variable {π : Equiv.Perm Slot} {b b' : QueueBook} {a : Slot} {o : OrderData}

/-- Replacing a side and the index on both. -/
theorem withSide (h : Akin π b b') (s : Side) {l l' : List Resting}
    (hl : List.Forall₂ (Resting.Akin π) l l') {ix ix' : Finmap fun _ : OrderId => Locator}
    (hix : ∀ id, Option.Rel (Locator.Akin π) (ix.lookup id) (ix'.lookup id)) :
    Akin π { b.withSide s l with index := ix } { b'.withSide s l' with index := ix' } := by
  refine ⟨?_, fun s' => ?_, hix⟩
  · exact (b'.instrument_withSide s l').trans (h.instrument.trans (b.instrument_withSide s l).symm)
  · change List.Forall₂ _ ((b.withSide s l).side s') ((b'.withSide s l').side s')
    rw [side_withSide, side_withSide]
    split_ifs
    · exact hl
    · exact h.side s'

/-- The slots of one are those of the other, renamed. -/
theorem slots_eq (h : Akin π b b') : b'.slots = b.slots.map π := by
  have hside : ∀ s, (b'.side s).map (·.slot) = ((b.side s).map (·.slot)).map π := fun s => by
    have hs := h.side s
    generalize b.side s = l at hs
    generalize b'.side s = l' at hs
    induction hs with
    | nil => rfl
    | cons hm _ ih => simp only [List.map_cons, hm.slot, ih]
  change (b'.bids ++ b'.asks).map _ = ((b.bids ++ b.asks).map _).map π
  rw [List.map_append, List.map_append, List.map_append]
  exact congrArg₂ _ (hside .buy) (hside .sell)

/-- Neither book has a say in what is refused. -/
theorem rejects_eq (h : Akin π b b') (o : OrderData) : b'.rejects o = b.rejects o := by
  simp only [rejects, h.instrument, covers_akin (h.side _)]

/-- The books once an order has swept them, -/
theorem entered (h : Akin π b b') (o : OrderData) : Akin π (b.entered o) (b'.entered o) := by
  obtain ⟨-, -, hmakers, hgone⟩ := sweep_akin (h.side (opposite o.side)) o
  refine h.withSide _ hmakers fun id => ?_
  have hids : (b'.entry o).gone.map (·.order.id) = (b.entry o).gone.map (·.order.id) := by
    change (sweep o (b'.side _)).gone.map _ = (sweep o (b.side _)).gone.map _
    generalize (sweep o (b.side (opposite o.side))).gone = l at hgone
    generalize (sweep o (b'.side (opposite o.side))).gone = l' at hgone
    induction hgone with
    | nil => rfl
    | cons hm _ ih => rw [List.map_cons, List.map_cons, hm.id_eq, ih]
  change Option.Rel _ ((forget b.index (b.entry o).gone).lookup id)
    ((forget b'.index (b'.entry o).gone).lookup id)
  rw [lookup_forget, lookup_forget, hids]
  split_ifs
  · exact .none
  · exact h.index id

/-- and once what is left of it rests. -/
theorem rest (h : Akin π b b') {e e' : Resting} (he : e.Akin π e')
    (hs : e'.order.side = e.order.side) : Akin π (b.rest e) (b'.rest e') := by
  unfold QueueBook.rest
  simp only [hs]
  refine h.withSide _ (enqueue_akin (h.side _) _ he) fun id => ?_
  have hnone : b'.index.lookup e.order.id = none ↔ b.index.lookup e.order.id = none := by
    have hrel := h.index e.order.id
    generalize b.index.lookup e.order.id = x at hrel
    generalize b'.index.lookup e.order.id = y at hrel
    cases hrel <;> simp
  rw [lookup_emplace, lookup_emplace, he.id_eq]
  simp only [hnone]
  split_ifs <;> first | exact .some ⟨Iff.rfl, he.slot⟩ | exact h.index id

/-- **A submission to akin books** goes alike. -/
theorem submit (h : Akin π b b') (a : Slot) (o : OrderData) :
    Akin π (b.submit a o).book (b'.submit (π a) o).book
      ∧ (b'.submit (π a) o).order = (b.submit a o).order
      ∧ (b'.submit (π a) o).trades = (b.submit a o).trades := by
  obtain ⟨htaker, htrades, -, -⟩ := sweep_akin (h.side (opposite o.side)) o
  have htaker' : (b'.entry o).taker = (b.entry o).taker := htaker
  have htrades' : (b'.entry o).trades = (b.entry o).trades := htrades
  unfold QueueBook.submit
  simp only [h.rejects_eq, htaker', htrades']
  split_ifs
  · exact ⟨h, rfl, rfl⟩
  · exact ⟨h.entered o, rfl, rfl⟩
  · exact ⟨h.entered o, rfl, rfl⟩
  · exact ⟨(h.entered o).rest ⟨rfl, rfl⟩ rfl, rfl, rfl⟩

/-- **A cancel goes alike.** -/
theorem cancel (h : Akin π b b') (id : OrderId) :
    Akin π (b.cancel id).1 (b'.cancel id).1
      ∧ (b'.cancel id).2.isSome = (b.cancel id).2.isSome := by
  have hrel := h.index id
  unfold QueueBook.cancel
  generalize b.index.lookup id = x at hrel
  generalize b'.index.lookup id = y at hrel
  cases hrel with
  | none => exact ⟨h, rfl⟩
  | @some loc loc' hloc =>
    refine ⟨?_, rfl⟩
    have hfilter := filter_akin (h.side loc.side) loc.order
    have hremove : b'.remove id loc' = { b'.withSide loc.side ((b'.side loc.side).filter
        fun e => e.slot ≠ π loc.order) with index := b'.index.erase id } := by
      rw [remove, ← b'.side_congr hloc.side, ← b'.withSide_congr hloc.side, hloc.order]
    change Akin π (b.remove id loc) (b'.remove id loc')
    rw [hremove]
    refine h.withSide _ hfilter fun id' => ?_
    by_cases hid : id' = id
    · subst hid
      rw [Finmap.lookup_erase, Finmap.lookup_erase]
      exact .none
    · rw [Finmap.lookup_erase_ne hid, Finmap.lookup_erase_ne hid]
      exact h.index id'

/-- Only the names of slots in use matter. -/
theorem congr (h : Akin π b b') (hw : b.WF) {σ : Equiv.Perm Slot} (hσ : ∀ c ∈ b.slots, σ c = π c) :
    Akin σ b b' := by
  refine ⟨h.instrument, fun s => ?_, fun id => ?_⟩
  · have hmem : ∀ e ∈ b.side s, σ e.slot = π e.slot :=
      fun e he => hσ _ (mem_slots.mpr ⟨s, e, he, rfl⟩)
    have hs := h.side s
    generalize b.side s = l at hs hmem
    generalize b'.side s = l' at hs
    induction hs with
    | nil => exact .nil
    | cons hm _ ih =>
      obtain ⟨hhead, htail⟩ := List.forall_mem_cons.mp hmem
      exact .cons ⟨hm.slot.trans hhead.symm, hm.interest⟩ (ih htail)
  · have hrel := h.index id
    cases hl : b.index.lookup id with
    | none =>
      rw [hl] at hrel
      generalize b'.index.lookup id = y at hrel ⊢
      cases hrel
      exact .none
    | some loc =>
      rw [hl] at hrel
      generalize b'.index.lookup id = y at hrel ⊢
      cases hrel with
      | some hloc =>
        obtain ⟨e, he, hslot, -⟩ := hw.located id loc hl
        have hmem : loc.order ∈ b.slots := mem_slots.mpr ⟨_, e, he, hslot⟩
        exact .some ⟨hloc.side, hloc.order.trans (hσ _ hmem).symm⟩

/-- Two unused slots can be given the same name. -/
theorem exists_renaming (h : Akin π b b') (hw : b.WF) {a' : Slot} (ha : a ∉ b.slots)
    (ha' : a' ∉ b'.slots) : ∃ σ, Akin σ b b' ∧ σ a = a' := by
  refine ⟨π.trans (Equiv.swap (π a) a'), h.congr hw fun c hc => ?_, by simp⟩
  have h1 : π c ≠ π a := fun heq => ha (π.injective heq ▸ hc)
  have h2 : π c ≠ a' := by
    rintro rfl
    rw [h.slots_eq] at ha'
    exact ha' (List.mem_map_of_mem hc)
  exact Equiv.swap_apply_of_ne_of_ne h1 h2

end Akin

/-! ## Akin from the interests

Conversely, the interests in their order are all that has to agree: the slots can be matched up one
by one, and a complete index has to follow. -/

/-- One list of distinct slots is another of the same length, renamed. -/
theorem exists_perm {l l' : List Slot} (hl : l.Nodup) (hl' : l'.Nodup)
    (hlen : l'.length = l.length) : ∃ π : Equiv.Perm Slot, l' = l.map π := by
  induction l generalizing l' with
  | nil => exact ⟨Equiv.refl _, List.length_eq_zero_iff.mp hlen⟩
  | cons a l ih =>
    obtain ⟨a', l', rfl⟩ := List.exists_cons_of_length_eq_add_one hlen
    obtain ⟨ha, hl⟩ := List.nodup_cons.mp hl
    obtain ⟨ha', hl'⟩ := List.nodup_cons.mp hl'
    obtain ⟨π, rfl⟩ := ih hl hl' (Nat.succ.inj hlen)
    refine ⟨π.trans (Equiv.swap (π a) a'), ?_⟩
    rw [List.map_cons]
    refine congrArg₂ _ (by simp) (List.map_congr_left fun c hc => ?_)
    have h1 : π c ≠ π a := fun heq => ha (π.injective heq ▸ hc)
    have h2 : π c ≠ a' := fun heq => ha' (heq ▸ List.mem_map_of_mem hc)
    exact (Equiv.swap_apply_of_ne_of_ne h1 h2).symm

/-- Orders that agree in slot and interest, one by one. -/
theorem forall₂_akin {π : Equiv.Perm Slot} {l l' : List Resting}
    (hslot : l'.map (·.slot) = (l.map (·.slot)).map π)
    (hint : l'.map (·.order.interest) = l.map (·.order.interest)) :
    List.Forall₂ (Resting.Akin π) l l' := by
  induction l generalizing l' with
  | nil =>
    obtain rfl := List.map_eq_nil_iff.mp hint
    exact .nil
  | cons e l ih =>
    obtain ⟨e', l', rfl, he, hl⟩ := List.map_eq_cons_iff.mp hint
    obtain ⟨hhead, htail⟩ := List.cons.inj hslot
    exact .cons ⟨hhead, he⟩ (ih htail hl)

/-- Each of one list has its partner in the other. -/
theorem exists_of_forall₂ {α β : Type*} {R : α → β → Prop} {l : List α} {l' : List β}
    (h : List.Forall₂ R l l') {x : α} (hx : x ∈ l) : ∃ y ∈ l', R x y := by
  induction h with
  | nil => cases hx
  | cons hxy _ ih =>
    rcases List.mem_cons.mp hx with rfl | hx
    · exact ⟨_, List.mem_cons_self .., hxy⟩
    · obtain ⟨y, hy, hR⟩ := ih hx
      exact ⟨y, List.mem_cons_of_mem _ hy, hR⟩

/-- The interests of a side, in the order of the queue. -/
def interests (b : QueueBook) (s : Side) : List Interest := (b.side s).map (·.order.interest)

variable {b b' : QueueBook}

/-- A complete index leads wherever the queues say. -/
theorem Indexed.rel_lookup {π : Equiv.Perm Slot} (hi : b.Indexed) (hi' : b'.Indexed) (hw : b.WF)
    (hw' : b'.WF) (hside : ∀ s, List.Forall₂ (Resting.Akin π) (b.side s) (b'.side s))
    (id : OrderId) :
    Option.Rel (Locator.Akin π) (b.index.lookup id) (b'.index.lookup id) := by
  cases hl : b.index.lookup id with
  | none =>
    have hnone : b'.index.lookup id = none := by
      refine lookup_eq_none hw' fun e' he' hid => ?_
      obtain ⟨s, hs⟩ := b'.mem_resting.mp he'
      obtain ⟨e, he, hakin⟩ := exists_of_forall₂ (hside s).flip hs
      obtain ⟨loc, hloc, -⟩ := hi e (b.mem_resting.mpr ⟨s, he⟩)
      rw [← hakin.id_eq, hid, hl] at hloc
      cases hloc
    rw [hnone]
    exact .none
  | some loc =>
    obtain ⟨e, he, hslot, rfl, -⟩ := hw.located id loc hl
    obtain ⟨e', he', hakin⟩ := exists_of_forall₂ (hside loc.side) he
    obtain ⟨loc', hl', hslot'⟩ := hi' e' (b'.mem_resting.mpr ⟨_, he'⟩)
    rw [hakin.id_eq] at hl'
    rw [hl']
    refine .some ⟨?_, by rw [hslot', hakin.slot, hslot]⟩
    obtain ⟨f, hf, hfslot, -⟩ := hw'.located _ loc' hl'
    obtain rfl := hw'.eq_of_slot hf he' (hfslot.trans hslot')
    have h1 : SameSide f.order.side loc.side := hw'.sided _ f he'
    have h2 : SameSide f.order.side loc'.side := hw'.sided _ f hf
    exact h1.symm.trans h2

/-- **The same interests in the same queues** make akin books, if the indices are complete. -/
theorem exists_akin (hi : b.Indexed) (hi' : b'.Indexed) (hw : b.WF) (hw' : b'.WF)
    (hinst : b'.instrument = b.instrument) (hint : ∀ s, b'.interests s = b.interests s) :
    ∃ π, Akin π b b' := by
  have hlen : ∀ s, (b'.side s).length = (b.side s).length := fun s => by
    simpa [interests] using congrArg List.length (hint s)
  have hbids : b'.bids.length = b.bids.length := hlen .buy
  have hasks : b'.asks.length = b.asks.length := hlen .sell
  obtain ⟨π, hπ⟩ := exists_perm hw.nodup hw'.nodup (by simp [slots, resting, hbids, hasks])
  simp only [slots, resting, List.map_append] at hπ
  obtain ⟨hπb, hπa⟩ := List.append_inj hπ (by simp [hbids])
  have hside : ∀ s, List.Forall₂ (Resting.Akin π) (b.side s) (b'.side s) := fun s => by
    refine forall₂_akin ?_ (hint s)
    unfold side
    split_ifs
    · exact hπb
    · exact hπa
  exact ⟨π, hinst, hside, hi.rel_lookup hi' hw hw' hside⟩

end QueueBook

/-! ## Asking a queue

A market order for what the first maker has left takes that maker away and nobody else, and its
execution names id, price and quantity. So a queue can be asked, order by order, for all its
interests. -/

/-- A market order for `q`, to see who is there. -/
def probe (i : InstrumentId) (s : Side) (q : Quantity) : OrderData :=
  { initialQty := q, instrument := i, side := opposite s, type := .market, tif := .ioc }

/-- What a queue answers to market orders, one after the other. -/
def feed (i : InstrumentId) (s : Side) (ms : List Resting) : List Quantity → List (List Trade)
  | [] => []
  | q :: qs => (sweep (probe i s q) ms).trades :: feed i s (sweep (probe i s q) ms).makers qs

section Feed

variable {i : InstrumentId} {s : Side} {q : Quantity} {m : Resting} {ms ms' : List Resting}

/-- The probe wants what it was made for, -/
theorem remaining_probe : (probe i s q).remaining = q := UInt64.sub_zero q

/-- and no price stops it. -/
theorem not_stops_probe (hq : q ≠ 0) : ¬ Stops (probe i s q) (m :: ms) :=
  not_stops_cons.mpr ⟨remaining_probe.symm ▸ hq, rfl⟩

/-- A market order for what the first maker has. -/
theorem sweep_probe (hm : m.order.Open) :
    (sweep (probe i s m.order.remaining) (m :: ms)).makers = ms
    ∧ (sweep (probe i s m.order.remaining) (m :: ms)).trades
      = [tradeOf (probe i s m.order.remaining) m.order m.order.remaining] := by
  have hle : m.order.remaining ≤ (probe i s m.order.remaining).remaining :=
    UInt64.le_of_eq remaining_probe.symm
  have hstop : Stops ((probe i s m.order.remaining).fill m.order.remaining) ms := by
    refine .inl ?_
    rw [remaining_fill, remaining_probe, UInt64.sub_self]
  rw [sweep_take (not_stops_probe hm.remaining_ne_zero) hle, sweep_stop hstop]
  exact ⟨rfl, rfl⟩

/-- The largest market order tells the first maker's interest. -/
theorem exists_trades_probe (m : Resting) (ms : List Resting) :
    ∃ ts, (sweep (probe i s (0 - 1)) (m :: ms)).trades
    = tradeOf (probe i s (0 - 1)) m.order m.order.remaining :: ts := by
  have hle : m.order.remaining ≤ (probe i s (0 - 1)).remaining := by
    rw [remaining_probe, UInt64.le_iff_toNat_le]
    exact Nat.le_of_lt_succ m.order.remaining.toNat_lt
  rw [sweep_take (not_stops_probe (by decide)) hle]
  exact ⟨_, rfl⟩

/-- **Queues that answer alike have the same interests.** -/
theorem interests_of_feed (hms : ∀ m ∈ ms, m.order.Open) (hms' : ∀ m ∈ ms', m.order.Open)
    (h : ∀ qs, (∀ q ∈ qs, q ≠ 0) → feed i s ms' qs = feed i s ms qs) :
    ms'.map (·.order.interest) = ms.map (·.order.interest) := by
  have hlargest := h [0 - 1] (by simp)
  simp only [feed, List.cons.injEq, and_true] at hlargest
  induction ms generalizing ms' with
  | nil =>
    cases ms' with
    | nil => rfl
    | cons m' ms' =>
      obtain ⟨ts, hts⟩ := exists_trades_probe (i := i) (s := s) m' ms'
      rw [hts] at hlargest
      cases hlargest
  | cons m ms ih =>
    obtain ⟨ts, hts⟩ := exists_trades_probe (i := i) (s := s) m ms
    rw [hts] at hlargest
    cases ms' with
    | nil => cases hlargest
    | cons m' ms' =>
      obtain ⟨ts', hts'⟩ := exists_trades_probe (i := i) (s := s) m' ms'
      rw [hts'] at hlargest
      have hhead := (List.cons.inj hlargest).1
      have hinterest : m'.order.interest = m.order.interest :=
        congrArg (fun x : Trade => Interest.mk x.makerId x.price x.quantity) hhead
      have hrem : m'.order.remaining = m.order.remaining := congrArg Interest.remaining hinterest
      obtain ⟨hm, hms⟩ := List.forall_mem_cons.mp hms
      obtain ⟨hm', hms'⟩ := List.forall_mem_cons.mp hms'
      have htail : ∀ qs, (∀ q ∈ qs, q ≠ 0) → feed i s ms' qs = feed i s ms qs := fun qs hqs => by
        have hfeed := h (m.order.remaining :: qs)
          (List.forall_mem_cons.mpr ⟨hm.remaining_ne_zero, hqs⟩)
        have htake : (sweep (probe i s m'.order.remaining) (m' :: ms')).makers = ms' :=
          (sweep_probe hm').1
        rw [hrem] at htake
        simp only [feed, (sweep_probe hm).1, htake, List.cons.injEq] at hfeed
        exact hfeed.2
      have hlargest' := htail [0 - 1] (by simp)
      simp only [feed, List.cons.injEq, and_true] at hlargest'
      rw [List.map_cons, List.map_cons, hinterest, ih hms hms' htail hlargest']

end Feed

open QueueBook

/-- **Akin books answer alike.** -/
theorem Answers.akin {s s' t t' : Option QueueBook} {x y : Played}
    (hR : Option.Rel (fun b b' => ∃ π, Akin π b b') s t) (h : Answers s x s') (h' : Answers t y t')
    (hc : x.call = y.call) : x = y ∧ Option.Rel (fun b b' => ∃ π, Akin π b b') s' t' := by
  cases h with
  | @submit b a o hw ha h0 =>
    cases h' with
    | @submit b' a' o' _ ha' _ =>
      obtain rfl := BookCall.submit.inj hc
      cases hR with
      | some hR =>
        obtain ⟨π, hπ⟩ := hR
        obtain ⟨σ, hσ, rfl⟩ := hπ.exists_renaming hw ha ha'
        obtain ⟨hbook, horder, htrades⟩ := hσ.submit a o
        exact ⟨by rw [horder, htrades], .some ⟨σ, hbook⟩⟩
    | submitNone => cases hR
    | cancel => cases hc
    | expire => cases hc
    | cancelNone => cases hc
    | expireNone => cases hc
  | @cancel b id hw =>
    cases h' with
    | cancel _ =>
      obtain rfl := BookCall.cancel.inj hc
      cases hR with
      | some hR =>
        obtain ⟨π, hπ⟩ := hR
        obtain ⟨hbook, hfound⟩ := hπ.cancel id
        exact ⟨by rw [hfound], .some ⟨π, hbook⟩⟩
    | cancelNone => cases hR
    | submit => cases hc
    | expire => cases hc
    | submitNone => cases hc
    | expireNone => cases hc
  | expire =>
    cases h' with
    | expire => exact ⟨rfl, .none⟩
    | expireNone => cases hR
    | submit => cases hc
    | cancel => cases hc
    | submitNone => cases hc
    | cancelNone => cases hc
  | submitNone =>
    cases hR
    cases h' with
    | submitNone =>
      obtain rfl := BookCall.submit.inj hc
      exact ⟨rfl, .none⟩
    | cancelNone => cases hc
    | expireNone => cases hc
  | cancelNone =>
    cases hR
    cases h' with
    | cancelNone =>
      obtain rfl := BookCall.cancel.inj hc
      exact ⟨rfl, .none⟩
    | submitNone => cases hc
    | expireNone => cases hc
  | expireNone =>
    cases hR
    cases h' with
    | expireNone => exact ⟨rfl, .none⟩
    | submitNone => cases hc
    | cancelNone => cases hc

end Ordbk
