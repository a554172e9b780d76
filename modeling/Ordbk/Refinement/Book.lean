import Ordbk.Refinement.Levels

/-!
# Refinement/Book — the order book refines two queues

`BookRep st hb b`: the pointer book `hb`, in the store `st`, is the queue book `b`.  One theorem per
operation: `peekTop_eq`, `popTop_rep`, `addResting_rep`, `cancelAndGet_rep`.  Each also says what it
leaves alone — the data of every order, and the links of every cell outside the book — so that
other books in the same store are not disturbed.
-/

namespace Ordbk

/-- **The pointer book is the queue book.** -/
structure BookRep (st : Store) (hb : OrderBook) (b : QueueBook) : Prop where
  /-- They are books of one instrument. -/
  instrument : hb.instrument = b.instrument
  /-- The buy levels are the buy queue. -/
  bids : LevelsRep st hb.bids b.bids
  /-- The sell levels are the sell queue. -/
  asks : LevelsRep st hb.asks b.asks
  /-- The index is the map of ids. -/
  index : hb.orderMap = b.index

namespace BookRep

variable {st st' : Store} {hb : OrderBook} {b : QueueBook} {s : Side} {k : Resting}
  {ms : List Resting}

/-- A new book is empty. -/
theorem new (st : Store) (i : InstrumentId) : BookRep st { instrument := i } ⟨i, [], [], ∅⟩ :=
  ⟨rfl, LevelsRep.nil, LevelsRep.nil, rfl⟩

/-- **Separation**: writes outside the book's cells do not touch it. -/
theorem frame (h : BookRep st hb b) (hst : ∀ c ∈ b.slots, st' c = st c) : BookRep st' hb b where
  instrument := h.instrument
  bids := h.bids.frame fun e he =>
    hst _ (List.mem_map.mpr ⟨e, List.mem_append_left _ he, rfl⟩)
  asks := h.asks.frame fun e he =>
    hst _ (List.mem_map.mpr ⟨e, List.mem_append_right _ he, rfl⟩)
  index := h.index

/-- The store holds the fields of every resting order. -/
theorem data (h : BookRep st hb b) {e : Resting} (he : e ∈ b.resting) :
    st.data e.slot = e.order :=
  (List.mem_append.mp he).elim (h.bids.data e) (h.asks.data e)

theorem data_side (h : BookRep st hb b) {e : Resting} (he : e ∈ b.side s) :
    st.data e.slot = e.order := h.data (b.mem_resting.mpr ⟨s, he⟩)

/-- No cell is queued twice on a side. -/
theorem nodup_bids (hnd : b.slots.Nodup) : (b.bids.map (·.slot)).Nodup := by
  rw [QueueBook.slots, QueueBook.resting, List.map_append] at hnd
  exact hnd.of_append_left

theorem nodup_asks (hnd : b.slots.Nodup) : (b.asks.map (·.slot)).Nodup := by
  rw [QueueBook.slots, QueueBook.resting, List.map_append] at hnd
  exact hnd.of_append_right

/-- A cell of one side is no cell of the other. -/
theorem slot_ne_of_sides (hnd : b.slots.Nodup) {e f : Resting} (he : e ∈ b.bids)
    (hf : f ∈ b.asks) : e.slot ≠ f.slot := by
  rw [QueueBook.slots, QueueBook.resting, List.map_append] at hnd
  intro hef
  exact List.disjoint_of_nodup_append hnd (List.mem_map_of_mem he)
    (List.mem_map.mpr ⟨f, hf, hef.symm⟩)

/-- **The orders in the levels of a side, in iteration order, are its queue.** -/
theorem sideSlots_eq {pool : Pool} (h : BookRep pool.storage hb b)
    (hs : ∀ s, Priority.Sorted Resting.price (better s) (b.side s))
    (hcap : b.slots.length ≤ pool.capacity) (s : Side) :
    hb.sideSlots pool s = (b.side s).map (·.slot) := by
  have hlen : b.bids.length + b.asks.length ≤ pool.capacity := by
    simpa [QueueBook.slots, QueueBook.resting] using hcap
  unfold OrderBook.sideSlots QueueBook.side
  split_ifs
  · exact h.bids.flatMap_slots (hs .buy) (by omega)
  · exact h.asks.flatMap_slots (hs .sell) (by omega)

/-- Both sides together: the iteration over a book visits its queues. -/
theorem restingSlots_eq {pool : Pool} (h : BookRep pool.storage hb b)
    (hs : ∀ s, Priority.Sorted Resting.price (better s) (b.side s))
    (hcap : b.slots.length ≤ pool.capacity) : hb.restingSlots pool = b.slots := by
  rw [OrderBook.restingSlots, h.sideSlots_eq hs hcap, h.sideSlots_eq hs hcap, QueueBook.slots,
    QueueBook.resting, List.map_append]
  rfl

/-- `peek_top` is the head of the queue, if there is one. -/
theorem peekTop_eq (h : BookRep st hb b)
    (hs : ∀ s, Priority.Sorted Resting.price (better s) (b.side s)) :
    hb.peekTop s = (b.side s).head?.map (·.slot) := by
  unfold OrderBook.peekTop QueueBook.side
  split_ifs
  · exact h.bids.topOf_eq (hs .buy)
  · exact h.asks.topOf_eq (hs .sell)

/-- The top of a side is the head of its queue, -/
theorem peekTop_cons (h : BookRep st hb b)
    (hs : ∀ s, Priority.Sorted Resting.price (better s) (b.side s)) (hk : b.side s = k :: ms) :
    hb.peekTop s = some k.slot := by
  rw [h.peekTop_eq hs, hk]
  rfl

/-- and its slot holds the head's order. -/
theorem data_head (h : BookRep st hb b) (hk : b.side s = k :: ms) :
    (st k.slot).toOrderData = k.order := h.data_side (hk ▸ List.mem_cons_self)

/-! ## Cutting an order out of a side

The two operations that take an order out of its level do the same to the levels; they differ in how
the order is found. -/

/-- What `pop_top` and `cancel_and_get` do to the levels: `erase` on one side's map. -/
def cut (hb : OrderBook) (st : Store) (s : Side) (p : Price) (a : Slot) : OrderBook × Store :=
  if s = .buy then
    ({ hb with bids := (eraseLevel hb.bids st p a).1 }, (eraseLevel hb.bids st p a).2)
  else ({ hb with asks := (eraseLevel hb.asks st p a).1 }, (eraseLevel hb.asks st p a).2)

variable {l₁ l₂ : List Resting} {e : Resting}

/-- The cut rewrites only cells of the book. -/
theorem cut_of_notMem (h : BookRep st hb b) (he : b.side s = l₁ ++ e :: l₂) {c : Slot}
    (hc : c ∉ b.slots) : (cut hb st s e.price e.slot).2 c = st c := by
  have hside : ∀ f ∈ l₁ ++ e :: l₂, f.slot ≠ c := fun f hf hfc =>
    hc (List.mem_map.mpr ⟨f, b.mem_resting.mpr ⟨s, he ▸ hf⟩, hfc⟩)
  have hq : c ∉ (queueAt e.price (l₁ ++ e :: l₂)).map (·.slot) := fun hmem => by
    obtain ⟨f, hf, hfc⟩ := List.mem_map.mp hmem
    exact hside f (mem_queueAt.mp hf).1 hfc
  unfold cut
  unfold QueueBook.side at he
  split_ifs at he ⊢
  · exact LevelsRep.eraseLevel_of_notMem (he ▸ h.bids) hq
  · exact LevelsRep.eraseLevel_of_notMem (he ▸ h.asks) hq

/-- **Cutting an order out of its level cuts it out of its queue.** -/
theorem cut_rep (h : BookRep st hb b) (hnd : b.slots.Nodup) (he : b.side s = l₁ ++ e :: l₂) :
    BookRep (cut hb st s e.price e.slot).2 (cut hb st s e.price e.slot).1
      (b.withSide s (l₁ ++ l₂)) := by
  unfold cut QueueBook.withSide
  unfold QueueBook.side at he
  split_ifs at he ⊢
  · have hbids : LevelsRep st hb.bids (l₁ ++ e :: l₂) := he ▸ h.bids
    refine ⟨h.instrument, hbids.erase (he ▸ nodup_bids hnd), h.asks.frame fun f hf => ?_, h.index⟩
    refine hbids.eraseLevel_of_notMem fun hmem => ?_
    obtain ⟨g, hg, hgf⟩ := List.mem_map.mp hmem
    exact slot_ne_of_sides hnd (e := g) (he ▸ (mem_queueAt.mp hg).1) hf hgf
  · have hasks : LevelsRep st hb.asks (l₁ ++ e :: l₂) := he ▸ h.asks
    refine ⟨h.instrument, h.bids.frame fun f hf => ?_, hasks.erase (he ▸ nodup_asks hnd), h.index⟩
    refine hasks.eraseLevel_of_notMem fun hmem => ?_
    obtain ⟨g, hg, hgf⟩ := List.mem_map.mp hmem
    exact slot_ne_of_sides hnd hf (f := g) (he ▸ (mem_queueAt.mp hg).1) hgf.symm

@[simp] theorem data_cut (hb : OrderBook) (st : Store) (s : Side) (p : Price) (a : Slot) :
    (cut hb st s p a).2.data = st.data := by
  have hdata : ∀ {lt : Price → Price → Prop} [DecidableRel lt] [IsStrictTotalOrder Price lt]
      (levels : OrdMap lt PriceLevel), (eraseLevel levels st p a).2.data = st.data := by
    intro lt _ _ levels
    unfold eraseLevel
    cases levels.find? p with
    | none => rfl
    | some level => exact PriceLevel.data_erase (l := level)
  unfold cut
  split_ifs
  · exact hdata hb.bids
  · exact hdata hb.asks

/-- The index of a book plays no part in its levels. -/
theorem withIndex (h : BookRep st hb b) (index : Finmap fun _ : OrderId => Locator) :
    BookRep st { hb with orderMap := index } { b with index := index } :=
  ⟨h.instrument, h.bids, h.asks, rfl⟩

/-! ## `pop_top`

The front order of the best level leaves the level, and the level goes with its last order. -/

/-- It is a cut at the head, and the id is forgotten. -/
theorem popTop_eq (h : BookRep st hb b)
    (hs : ∀ s, Priority.Sorted Resting.price (better s) (b.side s)) (hk : b.side s = k :: ms) :
    hb.popTop st s = ({ (cut hb st s k.price k.slot).1 with
      orderMap := b.index.erase k.order.id }, (cut hb st s k.price k.slot).2) := by
  have htop := h.peekTop_cons hs hk
  have hid : (st k.slot).id = k.order.id := congrArg (·.id) (h.data_head hk)
  have hsort := hs s
  unfold QueueBook.side at hk hsort
  simp only [OrderBook.popTop, htop, hid, cut, h.index]
  split_ifs at hk hsort ⊢ with hbuy
  · subst hbuy
    have hpop := LevelsRep.popLevel_eq (hk ▸ h.bids) (hk ▸ hsort)
    simp only [hpop]
  · have hpop := LevelsRep.popLevel_eq (hk ▸ h.asks) (hk ▸ hs .sell)
    simp only [hpop]

/-- **`pop_top` drops the head of the queue and its id from the index.** -/
theorem popTop_rep (h : BookRep st hb b)
    (hs : ∀ s, Priority.Sorted Resting.price (better s) (b.side s)) (hnd : b.slots.Nodup)
    (hk : b.side s = k :: ms) :
    BookRep (hb.popTop st s).2 (hb.popTop st s).1
      { b.withSide s ms with index := b.index.erase k.order.id } := by
  have hk' : b.side s = [] ++ k :: ms := hk
  rw [h.popTop_eq hs hk]
  exact (h.cut_rep hnd hk').withIndex _

/-- Only cells of the book are written. -/
theorem popTop_of_notMem (h : BookRep st hb b)
    (hs : ∀ s, Priority.Sorted Resting.price (better s) (b.side s)) (hk : b.side s = k :: ms)
    {c : Slot} (hc : c ∉ b.slots) : (hb.popTop st s).2 c = st c := by
  have hk' : b.side s = [] ++ k :: ms := hk
  rw [h.popTop_eq hs hk]
  exact h.cut_of_notMem hk' hc

theorem data_popTop (h : BookRep st hb b)
    (hs : ∀ s, Priority.Sorted Resting.price (better s) (b.side s)) (hk : b.side s = k :: ms) :
    (hb.popTop st s).2.data = st.data := by
  rw [h.popTop_eq hs hk]
  exact data_cut hb st s k.price k.slot

/-! ## Writing the fields of the top order

A fill changes the head's quantity and status, and not its price, so it stays where it is. -/

/-- **Writing the head's fields writes the head of the queue.** -/
theorem modifyTop_rep (h : BookRep st hb b) (hnd : b.slots.Nodup) (hk : b.side s = k :: ms)
    {f : OrderData → OrderData} (hf : (f k.order).limitPrice = k.order.limitPrice) :
    BookRep (st.modify k.slot f) hb (b.withSide s (⟨k.slot, f k.order⟩ :: ms)) := by
  unfold QueueBook.withSide
  unfold QueueBook.side at hk
  split_ifs at hk ⊢
  · have hbids : LevelsRep st hb.bids (k :: ms) := hk ▸ h.bids
    refine ⟨h.instrument, hbids.modify_head (hk ▸ nodup_bids hnd) hf, ?_, h.index⟩
    refine h.asks.frame fun g hg => Store.modify_of_ne ?_
    exact (slot_ne_of_sides hnd (e := k) (by simp [hk]) hg).symm
  · have hasks : LevelsRep st hb.asks (k :: ms) := hk ▸ h.asks
    refine ⟨h.instrument, ?_, hasks.modify_head (hk ▸ nodup_asks hnd) hf, h.index⟩
    refine h.bids.frame fun g hg => Store.modify_of_ne ?_
    exact slot_ne_of_sides hnd hg (f := k) (by simp [hk])

/-! ## `add_resting`

The order goes behind those at its price, into a new level if there is none. -/

section AddResting

variable {a : Slot} {o : OrderData}

/-- **`add_resting` enqueues the order on its own side.** -/
theorem addResting_rep (h : BookRep st hb b)
    (hs : ∀ s, Priority.Sorted Resting.price (better s) (b.side s)) (hnd : b.slots.Nodup)
    (ha : a ∉ b.slots) (hd : st.data a = o) :
    BookRep (hb.addResting st a).2 (hb.addResting st a).1 (b.rest ⟨a, o⟩) := by
  have hside : (st a).side = o.side := congrArg (·.side) hd
  have hprice : (st a).limitPrice = o.limitPrice := congrArg (·.limitPrice) hd
  have hid : (st a).id = o.id := congrArg (·.id) hd
  have hmem : ∀ e ∈ b.resting, e.slot ≠ a := fun e he hea => ha (List.mem_map.mpr ⟨e, he, hea⟩)
  have hab : a ∉ b.bids.map (·.slot) := fun hmem' => by
    obtain ⟨e, he, hea⟩ := List.mem_map.mp hmem'
    exact hmem e (List.mem_append_left _ he) hea
  have haa : a ∉ b.asks.map (·.slot) := fun hmem' => by
    obtain ⟨e, he, hea⟩ := List.mem_map.mp hmem'
    exact hmem e (List.mem_append_right _ he) hea
  simp only [OrderBook.addResting, hside, hprice, hid, QueueBook.rest, QueueBook.withSide,
    QueueBook.side]
  split_ifs with hbuy
  · have hpush := h.bids.push (hs .buy) (nodup_bids hnd) hab hd
    refine ⟨h.instrument, ?_, h.asks.frame fun g hg => ?_, by rw [h.index]; rfl⟩
    · rw [hbuy]
      exact hpush
    · refine h.bids.pushLevel_of_ne (hmem g (List.mem_append_right _ hg)) fun hq => ?_
      obtain ⟨f, hf, hfg⟩ := List.mem_map.mp hq
      exact slot_ne_of_sides hnd (mem_queueAt.mp hf).1 hg hfg
  · have hpush := h.asks.push (hs .sell) (nodup_asks hnd) haa hd
    refine ⟨h.instrument, h.bids.frame fun g hg => ?_, ?_, by rw [h.index]; rfl⟩
    · refine h.asks.pushLevel_of_ne (hmem g (List.mem_append_left _ hg)) fun hq => ?_
      obtain ⟨f, hf, hfg⟩ := List.mem_map.mp hq
      exact slot_ne_of_sides hnd hg (mem_queueAt.mp hf).1 hfg.symm
    · have hbetter : better o.side = better .sell :=
        better_congr ⟨fun hb => absurd hb hbuy, fun hb => absurd hb (by decide)⟩
      simp only [hbetter]
      exact hpush

/-- Only cells of the book, and the order's own, are written. -/
theorem addResting_of_ne (h : BookRep st hb b) {c : Slot} (hca : c ≠ a) (hc : c ∉ b.slots) :
    (hb.addResting st a).2 c = st c := by
  have hq : ∀ s, c ∉ (queueAt (st a).limitPrice (b.side s)).map (·.slot) := fun s hmem => by
    obtain ⟨e, he, hec⟩ := List.mem_map.mp hmem
    exact hc (List.mem_map.mpr ⟨e, b.mem_resting.mpr ⟨s, (mem_queueAt.mp he).1⟩, hec⟩)
  unfold OrderBook.addResting
  simp only
  split_ifs
  · exact h.bids.pushLevel_of_ne hca (hq .buy)
  · exact h.asks.pushLevel_of_ne hca (hq .sell)

@[simp] theorem data_addResting (hb : OrderBook) (st : Store) (a : Slot) :
    (hb.addResting st a).2.data = st.data := by
  unfold OrderBook.addResting
  simp only
  split_ifs
  · exact PriceLevel.data_pushBack
  · exact PriceLevel.data_pushBack

end AddResting

/-! ## `cancel_and_get`

The index gives side, price and cell; in a well-formed book there is exactly that order. -/

section Cancel

/-- Slots being unique, taking out one slot takes out one order. -/
theorem filter_slot_ne (hnd : ((l₁ ++ e :: l₂).map (·.slot)).Nodup) :
    ((l₁ ++ e :: l₂).filter fun f => f.slot ≠ e.slot) = l₁ ++ l₂ := by
  obtain ⟨-, hne⟩ := LevelsRep.nodup_cut hnd
  have hkeep : ∀ f ∈ l₁ ++ l₂, f.slot ≠ e.slot := fun f hf hfe =>
    hne (List.mem_map.mpr ⟨f, hf, hfe⟩)
  rw [List.filter_append, List.filter_cons_of_neg (by simp), ← List.filter_append,
    List.filter_eq_self]
  exact fun f hf => by simpa using hkeep f hf

/-- Where the order to be cancelled sits in its queue. -/
theorem exists_cut_of_lookup (hw : b.WF) {id : OrderId} {loc : Locator}
    (hl : b.index.lookup id = some loc) :
    ∃ l₁ e l₂, b.side loc.side = l₁ ++ e :: l₂ ∧ e.slot = loc.order ∧ e.order.id = id
      ∧ e.price = loc.price ∧ b.remove id loc
        = { b.withSide loc.side (l₁ ++ l₂) with index := b.index.erase id } := by
  obtain ⟨e, he, h1, h2, h3⟩ := hw.located id loc hl
  obtain ⟨l₁, l₂, hsplit⟩ := List.append_of_mem he
  refine ⟨l₁, e, l₂, hsplit, h1, h2, h3, ?_⟩
  have hnd : ((l₁ ++ e :: l₂).map (·.slot)).Nodup := by
    have hperm := (b.resting_perm loc.side).map fun f : Resting => f.slot
    rw [← hsplit]
    refine List.Nodup.sublist ?_ (hperm.nodup_iff.mp hw.nodup)
    rw [List.map_append]
    exact List.sublist_append_left _ _
  rw [QueueBook.remove, hsplit, ← h1, filter_slot_ne hnd]

/-- It is a cut where the index says, and the id is forgotten. -/
theorem cancelAndGet_eq (h : BookRep st hb b) {id : OrderId} {loc : Locator}
    (hl : b.index.lookup id = some loc) :
    hb.cancelAndGet st id = ({ (cut hb st loc.side loc.price loc.order).1 with
      orderMap := b.index.erase id }, (cut hb st loc.side loc.price loc.order).2,
      some loc.order) := by
  simp only [OrderBook.cancelAndGet, h.index, hl, cut]
  split_ifs <;> rfl

/-- **`cancel_and_get` takes the order the index points to out of its queue.** -/
theorem cancelAndGet_rep (h : BookRep st hb b) (hw : b.WF) (id : OrderId) :
    BookRep (hb.cancelAndGet st id).2.1 (hb.cancelAndGet st id).1 (b.cancel id).1
      ∧ (hb.cancelAndGet st id).2.2 = (b.cancel id).2
      ∧ (hb.cancelAndGet st id).2.1.data = st.data
      ∧ ∀ c, c ∉ b.slots → (hb.cancelAndGet st id).2.1 c = st c := by
  unfold QueueBook.cancel
  cases hl : b.index.lookup id with
  | none =>
    have hsame : hb.cancelAndGet st id = (hb, st, none) := by
      simp only [OrderBook.cancelAndGet, h.index, hl]
    rw [hsame]
    exact ⟨h, rfl, rfl, fun _ _ => rfl⟩
  | some loc =>
    obtain ⟨l₁, e, l₂, hsplit, h1, -, h3, hrem⟩ := exists_cut_of_lookup hw hl
    simp only
    rw [h.cancelAndGet_eq hl, hrem, ← h1, ← h3]
    exact ⟨(h.cut_rep hw.nodup hsplit).withIndex _, rfl, data_cut _ _ _ _ _,
      fun c hc => h.cut_of_notMem hsplit hc⟩

end Cancel

end BookRep

end Ordbk
