import Ordbk.Refinement.Book

/-!
# Refinement/Matcher — the matcher refines the queue book

`Moves m b own m' b' gone`: an operation takes the matcher `m`, whose book is `b`, to `m'` with the
book `b'`, and hands the slots of `gone` back to the pool in that order.  The cells written are the
book's and those of `own`.

The three public operations are then `submit_moves`, `cancel_moves` and `cancelAll_moves`; the loop
of `match` is `matchLoop_moves`, the dry run `canFullyFill_eq`.
-/

namespace Ordbk

open Matcher

/-- **What an operation does, seen from the abstract book.** -/
structure Moves (m : Matcher) (b : QueueBook) (own : List Slot) (m' : Matcher) (b' : QueueBook)
    (gone : List Resting) : Prop where
  /-- The levels and the index hold the new book, -/
  rep : BookRep m'.pool.storage m'.book b'
  /-- the pool is as large as it was, -/
  capacity : m'.pool.capacity = m.pool.capacity
  /-- with the slots of those who are gone on top. -/
  free : m'.pool.freeSlots = (gone.map (·.slot)).reverse ++ m.pool.freeSlots
  /-- No other cell has been written. -/
  frame : ∀ c, c ∉ own → c ∉ b.slots → m'.pool.storage c = m.pool.storage c
  /-- Whoever is gone is left in his slot as he went. -/
  last : ∀ e ∈ gone, m'.pool.storage.data e.slot = e.order

namespace Moves

variable {m m₁ m₂ : Matcher} {b b₁ b₂ : QueueBook} {own : List Slot} {g₁ g₂ : List Resting}

/-- Nothing done. -/
theorem refl (h : BookRep m.pool.storage m.book b) : Moves m b own m b [] where
  rep := h
  capacity := rfl
  free := rfl
  frame _ _ _ := rfl
  last e he := by simp at he

/-- Two operations in a row.  What the first gave back, the second no longer touches. -/
theorem trans (h₁ : Moves m b own m₁ b₁ g₁) (h₂ : Moves m₁ b₁ own m₂ b₂ g₂)
    (hsub : ∀ c ∈ b₁.slots, c ∈ b.slots) (hg : ∀ e ∈ g₁, e.slot ∉ own ∧ e.slot ∉ b₁.slots) :
    Moves m b own m₂ b₂ (g₁ ++ g₂) where
  rep := h₂.rep
  capacity := h₂.capacity.trans h₁.capacity
  free := by rw [h₂.free, h₁.free, List.map_append, List.reverse_append, List.append_assoc]
  frame c hc hcb := (h₂.frame c hc fun hmem => hcb (hsub c hmem)).trans (h₁.frame c hc hcb)
  last e he := by
    rcases List.mem_append.mp he with he | he
    · exact (Store.data_congr (h₂.frame _ (hg e he).1 (hg e he).2)).trans (h₁.last e he)
    · exact h₂.last e he

/-- A write to an order of the caller's. -/
theorem modify (h : Moves m b own m₁ b₁ g₁) {a : Slot} (ha : a ∈ own) (hb : a ∉ b₁.slots)
    (hg : a ∉ g₁.map (·.slot)) (f : OrderData → OrderData) :
    Moves m b own { m₁ with pool := m₁.pool.modify a f } b₁ g₁ where
  rep := h.rep.frame fun c hc => Store.modify_of_ne (ne_of_mem_of_not_mem hc hb)
  capacity := h.capacity
  free := h.free
  frame c hc hcb := by
    rw [← h.frame c hc hcb]
    exact Store.modify_of_ne fun hca => hc (hca ▸ ha)
  last e he := by
    refine (Store.data_congr (Store.modify_of_ne ?_)).trans (h.last e he)
    exact fun hea => hg (List.mem_map.mpr ⟨e, he, hea⟩)

/-- Bringing an order of the caller's to rest. -/
theorem rest (h : Moves m b own m₁ b₁ g₁)
    (hs : ∀ s, Priority.Sorted Resting.price (better s) (b₁.side s)) (hnd : b₁.slots.Nodup)
    {a : Slot} {o : OrderData} (hd : m₁.pool.storage.data a = o) (ha : a ∈ own)
    (hb : a ∉ b₁.slots) (hsub : ∀ c ∈ b₁.slots, c ∈ b.slots) :
    Moves m b own ⟨(m₁.book.addResting m₁.pool.storage a).1,
      { m₁.pool with storage := (m₁.book.addResting m₁.pool.storage a).2 }⟩
      (b₁.rest ⟨a, o⟩) g₁ where
  rep := h.rep.addResting_rep hs hnd hb hd
  capacity := h.capacity
  free := h.free
  frame c hc hcb := by
    rw [← h.frame c hc hcb]
    exact h.rep.addResting_of_ne (fun hca => hc (hca ▸ ha)) fun hmem => hcb (hsub c hmem)
  last e he := by
    rw [← h.last e he]
    exact congrFun (BookRep.data_addResting _ _ _) _

end Moves

/-! ## One pass of the loop

The body of the loop fills the taker and the maker at the head, and pops the maker if it is used up.
Either way one queue changes at its front. -/

section Loop

variable {m : Matcher} {b : QueueBook} {a : Slot} {t : OrderData} {k : Resting}
  {ms : List Resting}

/-- What the loop needs of the book: less than `QueueBook.WF`, which does not hold between two
passes (the taker may cross the book it is sweeping). -/
structure Sweepable (m : Matcher) (b : QueueBook) (s : Side) : Prop where
  /-- The book in memory is the queue book, -/
  rep : BookRep m.pool.storage m.book b
  /-- its queues are sorted, -/
  sorted : ∀ s, Priority.Sorted Resting.price (better s) (b.side s)
  /-- nothing is in it twice, -/
  nodup : b.slots.Nodup
  /-- and everybody the taker meets has something left. -/
  isOpen : ∀ e ∈ b.side s, e.order.Open

/-- The book without the head of one side. -/
def QueueBook.popped (b : QueueBook) (s : Side) (k : Resting) (ms : List Resting) : QueueBook :=
  { b.withSide s ms with index := b.index.erase k.order.id }

/-- The other side is untouched. -/
theorem side_popped (b : QueueBook) (s s' : Side) (k : Resting) (ms : List Resting) :
    (b.popped s k ms).side s' = if SameSide s s' then ms else b.side s' :=
  b.side_withSide s s' ms

/-- The slots of a book are the head's and those without it. -/
theorem slots_popped_perm {s : Side} (hk : b.side s = k :: ms) :
    b.slots.Perm (k.slot :: (b.popped s k ms).slots) := by
  have hnew := ((b.popped s k ms).resting_perm s).map fun e : Resting => e.slot
  have hold := (b.resting_perm s).map fun e : Resting => e.slot
  rw [side_popped, if_pos (show SameSide s s from Iff.rfl), side_popped,
    if_neg (fun hss => sameSide_opposite.mp (show SameSide (opposite s) s from hss.symm) Iff.rfl)]
    at hnew
  rw [hk, List.cons_append, List.map_cons] at hold
  exact hold.trans (hnew.symm.cons _)

/-- The store once `q` is traded between the taker and the head, and the head's status is set. -/
def traded (st : Store) (a k : Slot) (q : Quantity) (s : OrderStatus) : Store :=
  (st.modify a fun o => o.fill q).modify k fun o => (o.fill q).withStatus s

/-- The loop body in terms of the two orders' fields. -/
theorem fillTop_eq (hd : m.pool.storage.data a = t) (hdk : m.pool.storage.data k.slot = k.order)
    (hne : k.slot ≠ a) {q : Quantity} (hq : qtyMin t.remaining k.order.remaining = q) :
    m.fillTop a k.slot
      = (if (k.order.fill q).isFullyFilled then
          let r := m.book.popTop (traded m.pool.storage a k.slot q .filled) (opposite t.side)
          ⟨r.1, Pool.release { m.pool with storage := r.2 } k.slot⟩
        else
          { m with pool.storage := traded m.pool.storage a k.slot q .partiallyFilled },
        tradeOf t k.order q) := by
  subst hd hq
  rw [← hdk]
  -- the source sets the quantity and the status of the maker in two assignments
  have htwice : ∀ q s, traded m.pool.storage a k.slot q s
      = ((m.pool.storage.modify a fun o => o.fill q).modify k.slot fun o => o.fill q).modify k.slot
        fun o => o.withStatus s := by
    intro q s
    rw [Store.modify_modify]
    rfl
  have hdata : ∀ q, ((m.pool.storage.modify a fun o => o.fill q).modify k.slot
      fun o => o.fill q).data k.slot = (m.pool.storage.data k.slot).fill q := by
    intro q
    rw [Store.data_modify, Function.update_self, Store.data_modify, Function.update_of_ne hne]
  rw [htwice, htwice, ← hdata]
  generalize hc : (OrderData.isFullyFilled _) = c
  unfold fillTop
  cases c with
  | true => exact if_pos hc
  | false => exact if_neg fun h => Bool.false_ne_true (hc.symm.trans h)

variable {s : Side}

/-- The taker is filled by what was traded, -/
theorem data_traded {st : Store} (hd : st.data a = t) (hne : k.slot ≠ a) (q : Quantity)
    (s : OrderStatus) : (traded st a k.slot q s).data a = t.fill q := by
  rw [traded, Store.data_modify, Function.update_of_ne hne.symm, Store.data_modify,
    Function.update_self, hd]

/-- A trade with the head of the queue rewrites the head of the queue. -/
theorem traded_rep {st : Store} {hb : OrderBook} (h : BookRep st hb b) (hnd : b.slots.Nodup)
    (hk : b.side s = k :: ms) (ha : a ∉ b.slots) (q : Quantity) (s' : OrderStatus) :
    BookRep (traded st a k.slot q s') hb
      (b.withSide s (⟨k.slot, (k.order.fill q).withStatus s'⟩ :: ms)) := by
  have hframe : BookRep (st.modify a fun o => o.fill q) hb b :=
    h.frame fun c hc => Store.modify_of_ne (ne_of_mem_of_not_mem hc ha)
  exact hframe.modifyTop_rep hnd hk rfl

/-- and nobody but these two is written to. -/
theorem traded_of_notMem {st : Store} (hk : k.slot ∈ b.slots) {c : Slot} (hca : c ∉ [a])
    (hc : c ∉ b.slots) (q : Quantity) (s' : OrderStatus) : traded st a k.slot q s' c = st c := by
  rw [traded, Store.modify_of_ne (ne_of_mem_of_not_mem hk hc).symm,
    Store.modify_of_ne (by simpa using hca)]

/-- Rewriting the head in place changes neither the slots of a book nor its order. -/
theorem slots_withHead (hk : b.side s = k :: ms) (e : Resting) (hs : e.slot = k.slot) :
    (b.withSide s (e :: ms)).slots = b.slots := by
  unfold QueueBook.slots QueueBook.resting QueueBook.withSide
  unfold QueueBook.side at hk
  split_ifs at hk ⊢
  · simp [hk, hs]
  · simp [hk, hs]

/-- A new head at the same price keeps the queue sorted. -/
theorem sorted_withHead (hsort : ∀ s, Priority.Sorted Resting.price (better s) (b.side s))
    (hk : b.side s = k :: ms) (e : Resting) (hp : e.price = k.price) (s' : Side) :
    Priority.Sorted Resting.price (better s') ((b.withSide s (e :: ms)).side s') := by
  rw [QueueBook.side_withSide]
  split_ifs with hs
  · have hold := Priority.sorted_iff_map.mp (hsort s)
    rw [hk, List.map_cons, ← hp, better_congr hs] at hold
    exact Priority.sorted_iff_map.mpr hold
  · exact hsort s'

/-- **A pass that consumes the maker whole.** -/
theorem fillTop_take (h : Sweepable m b (opposite t.side)) (hk : b.side (opposite t.side) = k :: ms)
    (ha : a ∉ b.slots) (hd : m.pool.storage.data a = t) (hle : k.order.remaining ≤ t.remaining) :
    Moves m b [a] (m.fillTop a k.slot).1 (b.popped (opposite t.side) k ms) [k.consumed]
      ∧ (m.fillTop a k.slot).1.pool.storage.data a = t.fill k.order.remaining
      ∧ (m.fillTop a k.slot).2 = tradeOf t k.order k.order.remaining := by
  have hmem : k ∈ b.side (opposite t.side) := hk ▸ List.mem_cons_self
  have hslot : k.slot ∈ b.slots := QueueBook.mem_slots.mpr ⟨_, k, hmem, rfl⟩
  have hne : k.slot ≠ a := ne_of_mem_of_not_mem hslot ha
  have hq : qtyMin t.remaining k.order.remaining = k.order.remaining :=
    if_neg (UInt64.not_lt.mpr hle)
  rw [fillTop_eq hd (h.rep.data_side hmem) hne hq, OrderData.fill_remaining, if_pos
    OrderData.isFullyFilled_full]
  have hrep : BookRep (traded m.pool.storage a k.slot k.order.remaining .filled) m.book
      (b.withSide (opposite t.side) (k.consumed :: ms)) := by
    have htr := traded_rep h.rep h.nodup hk ha k.order.remaining .filled
    rwa [OrderData.fill_remaining] at htr
  have hsort := sorted_withHead h.sorted hk k.consumed rfl
  have hslots : (b.withSide (opposite t.side) (k.consumed :: ms)).slots = b.slots :=
    slots_withHead hk k.consumed rfl
  have hhead : (b.withSide (opposite t.side) (k.consumed :: ms)).side (opposite t.side)
      = k.consumed :: ms := by
    rw [QueueBook.side_withSide, if_pos (show SameSide _ _ from Iff.rfl)]
  have hdata := hrep.data_popTop hsort hhead
  refine ⟨⟨?_, rfl, rfl, fun c hca hc => ?_, fun e he => ?_⟩, ?_, rfl⟩
  · have hpop := hrep.popTop_rep hsort (hslots ▸ h.nodup) hhead
    have heq :
        ({ (b.withSide (opposite t.side) (k.consumed :: ms)).withSide (opposite t.side) ms with
        index := (b.withSide (opposite t.side) (k.consumed :: ms)).index.erase k.consumed.order.id }
        : QueueBook) = b.popped (opposite t.side) k ms := by
      unfold QueueBook.popped QueueBook.withSide
      split_ifs <;> rfl
    exact heq ▸ hpop
  · exact (hrep.popTop_of_notMem hsort hhead (hslots ▸ hc)).trans
      (traded_of_notMem hslot hca hc _ _)
  · obtain rfl := List.mem_singleton.mp he
    exact (congrFun hdata k.slot).trans (hrep.data_side (hhead ▸ List.mem_cons_self))
  · exact (congrFun hdata a).trans (data_traded hd hne _ _)

/-- **A pass that leaves something of the maker.** -/
theorem fillTop_part (h : Sweepable m b (opposite t.side)) (hk : b.side (opposite t.side) = k :: ms)
    (ha : a ∉ b.slots) (hd : m.pool.storage.data a = t) (hlt : t.remaining < k.order.remaining) :
    Moves m b [a] (m.fillTop a k.slot).1
        (b.withSide (opposite t.side) (k.partly t.remaining :: ms)) []
      ∧ (m.fillTop a k.slot).1.pool.storage.data a = t.full
      ∧ (m.fillTop a k.slot).2 = tradeOf t k.order t.remaining := by
  have hmem : k ∈ b.side (opposite t.side) := hk ▸ List.mem_cons_self
  have hslot : k.slot ∈ b.slots := QueueBook.mem_slots.mpr ⟨_, k, hmem, rfl⟩
  have hne : k.slot ≠ a := ne_of_mem_of_not_mem hslot ha
  have hq : qtyMin t.remaining k.order.remaining = t.remaining := if_pos hlt
  have hopen := (h.isOpen k hmem).sound.open_fill hlt
  have hfull : (k.order.fill t.remaining).isFullyFilled = false :=
    beq_eq_false_iff_ne.mpr (UInt64.ne_of_lt hopen)
  rw [fillTop_eq hd (h.rep.data_side hmem) hne hq, hfull, if_neg Bool.false_ne_true]
  refine ⟨⟨traded_rep h.rep h.nodup hk ha _ _, rfl, rfl, fun c hca hc => ?_, by simp⟩, ?_, rfl⟩
  · exact traded_of_notMem hslot hca hc _ _
  · rw [← OrderData.fill_remaining]
    exact data_traded hd hne _ _

/-! ## The loop

By recursion on the sweep of the queue; the code's loop has no bound of its own, and the fuel it is
given here is the number of orders it can use up. -/

/-- The loop ends where the sweep stops, -/
theorem matchLoop_stop (h : Sweepable m b (opposite t.side)) (hd : m.pool.storage.data a = t)
    (hs : Stops t (b.side (opposite t.side))) (fuel : ℕ) (ts : List Trade) :
    matchLoop fuel m a ts = (m, ts) := by
  have ht : (m.pool.storage a).toOrderData = t := hd
  cases fuel with
  | zero => rfl
  | succ fuel =>
    simp only [matchLoop, ht]
    split_ifs with h0
    · have hb := hs.resolve_left (qty_pos_iff.mp h0)
      rw [h.rep.peekTop_eq h.sorted]
      cases hk : b.side (opposite t.side) with
      | nil => rfl
      | cons k ms =>
        have hprice : (m.pool.storage k.slot).limitPrice = k.price :=
          congrArg (·.limitPrice) (h.rep.data_head hk)
        have hblock : blocked t k.price = true := hb k (by rw [hk]; rfl)
        simp only [List.head?_cons, Option.map_some, hprice, hblock, if_true]
    · rfl

/-- and otherwise does one pass. -/
theorem matchLoop_step (h : Sweepable m b (opposite t.side)) (hd : m.pool.storage.data a = t)
    (hk : b.side (opposite t.side) = k :: ms) (hs : ¬ Stops t (k :: ms)) (fuel : ℕ)
    (ts : List Trade) :
    matchLoop (fuel + 1) m a ts
      = matchLoop fuel (m.fillTop a k.slot).1 a (ts ++ [(m.fillTop a k.slot).2]) := by
  have ht : (m.pool.storage a).toOrderData = t := hd
  obtain ⟨h0, hb⟩ := not_stops_cons.mp hs
  have hprice : (m.pool.storage k.slot).limitPrice = k.price :=
    congrArg (·.limitPrice) (h.rep.data_head hk)
  have htop := h.rep.peekTop_cons h.sorted hk
  simp only [matchLoop, ht, if_pos (qty_pos_iff.mpr h0), htop, hprice, hb, Bool.false_eq_true,
    if_false]

/-- A pass that uses the head up is the head of the sweep. -/
theorem swept_take (b : QueueBook) (s : Side) (k : Resting) (ms : List Resting) (r : Sweep)
    (ts : List Trade) :
    (b.popped s k ms).swept s r
      = b.swept s { r with trades := ts, gone := k.consumed :: r.gone } := by
  unfold QueueBook.popped QueueBook.swept QueueBook.withSide
  split_ifs <;> rfl

/-- A sweep that uses up nobody rewrites one side. -/
theorem swept_of_gone_nil (b : QueueBook) (s : Side) (t : OrderData) (ms : List Resting)
    (ts : List Trade) : b.swept s ⟨t, ms, ts, []⟩ = b.withSide s ms := by
  unfold QueueBook.swept QueueBook.withSide
  split_ifs <;> rfl

/-- Writing back what is there. -/
theorem withSide_side (b : QueueBook) (s : Side) : b.withSide s (b.side s) = b := by
  unfold QueueBook.withSide QueueBook.side
  split_ifs <;> rfl

/-- Without its head a side is still sorted, -/
theorem sorted_popped (hsort : ∀ s, Priority.Sorted Resting.price (better s) (b.side s))
    (hk : b.side s = k :: ms) (s' : Side) :
    Priority.Sorted Resting.price (better s') ((b.popped s k ms).side s') := by
  rw [side_popped]
  split_ifs with hs
  · have hold := hsort s
    rw [hk] at hold
    rw [← better_congr hs]
    exact (Priority.sorted_cons.mp hold).2
  · exact hsort s'

/-- and no slot is in it twice. -/
theorem nodup_popped (hnd : b.slots.Nodup) (hk : b.side s = k :: ms) :
    (b.popped s k ms).slots.Nodup :=
  (List.nodup_cons.mp ((slots_popped_perm hk).nodup_iff.mp hnd)).2

/-- What is left is as fit to be swept. -/
theorem Sweepable.popped (h : Sweepable m b s) (hk : b.side s = k :: ms) {m' : Matcher}
    (hrep : BookRep m'.pool.storage m'.book (b.popped s k ms)) :
    Sweepable m' (b.popped s k ms) s where
  rep := hrep
  sorted := sorted_popped h.sorted hk
  nodup := nodup_popped h.nodup hk
  isOpen e he := by
    rw [side_popped, if_pos (show SameSide s s from Iff.rfl)] at he
    exact h.isOpen e (hk ▸ List.mem_cons_of_mem _ he)

/-- **The matching loop is the sweep.**  The induction is on the fuel, one maker of the queue a
pass; a pass that leaves something of its maker has filled the taker, so the next one stops. -/
theorem matchLoop_moves {fuel : ℕ} (hts : opposite t.side = s) (h : Sweepable m b s)
    (ha : a ∉ b.slots) (hd : m.pool.storage.data a = t) (ht : t.Sound)
    (hfuel : (b.side s).length < fuel) (ts : List Trade) :
    Moves m b [a] (matchLoop fuel m a ts).1 (b.swept s (sweep t (b.side s)))
        (sweep t (b.side s)).gone
      ∧ (matchLoop fuel m a ts).1.pool.storage.data a = (sweep t (b.side s)).taker
      ∧ (matchLoop fuel m a ts).2 = ts ++ (sweep t (b.side s)).trades := by
  induction fuel generalizing m b t ts with
  | zero => omega
  | succ fuel ih =>
    by_cases hs : Stops t (b.side s)
    · rw [matchLoop_stop (hts ▸ h) hd (hts ▸ hs), sweep_stop hs, swept_of_gone_nil, withSide_side,
        List.append_nil]
      exact ⟨Moves.refl h.rep, hd, rfl⟩
    cases hk : b.side s with
    | nil => exact absurd (Or.inr (by simp [hk])) hs
    | cons k ms =>
      subst hts
      have hmem : k ∈ b.side (opposite t.side) := hk ▸ List.mem_cons_self
      rw [hk] at hs hfuel
      rw [matchLoop_step h hd hk hs]
      by_cases hle : k.order.remaining ≤ t.remaining
      · obtain ⟨hm, hd', htr⟩ := fillTop_take h hk ha hd hle
        have hperm := slots_popped_perm hk
        have hnd := List.nodup_cons.mp (hperm.nodup_iff.mp h.nodup)
        have hsub : ∀ c ∈ (b.popped (opposite t.side) k ms).slots, c ∈ b.slots := fun c hc =>
          hperm.mem_iff.mpr (List.mem_cons_of_mem _ hc)
        have hside : (b.popped (opposite t.side) k ms).side (opposite t.side) = ms := by
          rw [side_popped, if_pos (show SameSide _ _ from Iff.rfl)]
        have hlen : ((b.popped (opposite t.side) k ms).side (opposite t.side)).length < fuel := by
          rw [hside]
          exact Nat.lt_of_succ_lt_succ hfuel
        obtain ⟨h1, h2, h3⟩ := ih (t := t.fill k.order.remaining) rfl (h.popped hk hm.rep)
          (fun hc => ha (hsub a hc)) hd' (ht.fill hle) hlen (ts ++ [(m.fillTop a k.slot).2])
        rw [hside] at h1 h2 h3
        rw [swept_take] at h1
        rw [sweep_take hs hle]
        refine ⟨hm.trans h1 hsub fun e he => ?_, h2, ?_⟩
        · obtain rfl := List.mem_singleton.mp he
          refine ⟨?_, hnd.1⟩
          rw [List.mem_singleton]
          exact ne_of_mem_of_not_mem (QueueBook.mem_slots.mpr ⟨_, k, hmem, rfl⟩) ha
        · rw [h3, htr, List.append_assoc]
          rfl
      · have hlt : t.remaining < k.order.remaining := UInt64.not_le.mp hle
        obtain ⟨hm, hd', htr⟩ := fillTop_part h hk ha hd hlt
        have hslots := slots_withHead hk (k.partly t.remaining) rfl
        have hstop : Stops t.full ((b.withSide (opposite t.side) (k.partly t.remaining :: ms)).side
            (opposite t.full.side)) := Or.inl (UInt64.sub_self _)
        have hnext : Sweepable (m.fillTop a k.slot).1
            (b.withSide (opposite t.side) (k.partly t.remaining :: ms)) (opposite t.full.side) :=
          ⟨hm.rep, sorted_withHead h.sorted hk _ rfl, hslots ▸ h.nodup, fun e he => ?_⟩
        · rw [matchLoop_stop hnext hd' hstop, sweep_part hs (h.isOpen k hmem) hlt]
          exact ⟨(swept_of_gone_nil b _ _ _ _).symm ▸ hm, hd', by rw [htr]⟩
        · rw [QueueBook.side_withSide,
            if_pos (show SameSide (opposite t.side) (opposite t.full.side) from Iff.rfl)] at he
          rcases List.mem_cons.mp he with rfl | he
          · exact (h.isOpen k hmem).sound.open_fill hlt
          · exact h.isOpen e (hk ▸ List.mem_cons_of_mem _ he)

end Loop

/-! ## The dry run

`can_fully_fill` walks the levels from the best on, each level order by order, and adds up what it
finds until the price stops crossing. The queue book has the orders in that order already. -/

section DryRun

variable {st : Store} {t : OrderData} {p : Price} {q rest : List Resting}

/-- A level that is too expensive ends the dry run. -/
theorem covers_of_blocked (hq : q ≠ []) (hp : ∀ e ∈ q, e.price = p) (hb : blocked t p = true)
    (need : Quantity) : covers t need (q ++ rest) = (need == 0) := by
  obtain ⟨e, q, rfl⟩ := List.exists_cons_of_ne_nil hq
  rw [List.cons_append, covers, hp e (by simp), hb, if_pos rfl]

/-- A level that crosses is walked order by order. -/
theorem covers_level (hd : ∀ e ∈ q, st.data e.slot = e.order) (hp : ∀ e ∈ q, e.price = p)
    (hb : blocked t p = false) (need : Quantity) :
    covers t need (q ++ rest)
      = match walkLevel st need (q.map (·.slot)) with
        | none => true
        | some need => covers t need rest := by
  induction q generalizing need with
  | nil => rfl
  | cons e q ih =>
    have hrem : (st e.slot).remaining = e.order.remaining :=
      congrArg OrderData.remaining (hd e (by simp))
    rw [List.cons_append, covers, hp e (by simp), hb, if_neg Bool.false_ne_true, List.map_cons,
      walkLevel, hrem]
    split_ifs
    · rfl
    · exact ih (fun f hf => hd f (by simp [hf])) (fun f hf => hp f (by simp [hf])) _

variable {pool : Pool} {l : List Resting}

/-- Level by level, -/
theorem walkLevels_eq (hd : ∀ e ∈ l, pool.storage.data e.slot = e.order)
    {es : List (Price × PriceLevel)} (hes : ∀ x ∈ es, queueAt x.1 l ≠ []
      ∧ x.2.slots pool.storage (pool.capacity + 1) = (queueAt x.1 l).map (·.slot))
    (need : Quantity) :
    walkLevels pool t need es = covers t need (es.flatMap fun x => queueAt x.1 l) := by
  induction es generalizing need with
  | nil => rfl
  | cons x es ih =>
    obtain ⟨p, lv⟩ := x
    obtain ⟨hne, hslots⟩ := hes (p, lv) (by simp)
    have hp : ∀ e ∈ queueAt p l, e.price = p := fun e he => (mem_queueAt.mp he).2
    have hih := ih fun x hx => hes x (by simp [hx])
    rw [walkLevels, hslots, List.flatMap_cons]
    split_ifs with hb
    · rw [covers_of_blocked hne hp hb]
    · rw [covers_level (fun e he => hd e (mem_queueAt.mp he).1) hp (by simpa using hb)]
      cases walkLevel pool.storage need ((queueAt p l).map (·.slot)) with
      | none => rfl
      | some need => exact hih need

variable {lt : Price → Price → Prop} [DecidableRel lt] [IsStrictTotalOrder Price lt]
  {levels : OrdMap lt PriceLevel}

omit [DecidableRel lt] in
/-- A dry run over sorted levels is one walk along the queue. -/
theorem LevelsRep.walkLevels_eq_covers (h : LevelsRep pool.storage levels l)
    (hs : Priority.Sorted Resting.price lt l) (hcap : l.length ≤ pool.capacity) (need : Quantity) :
    walkLevels pool t need levels.entries = covers t need l := by
  rw [walkLevels_eq h.data fun x hx => h.slots_level (Nat.lt_succ_of_le hcap) hx,
    h.flatMap_queueAt hs]

end DryRun

/-! ## `submit`

The checks, the sweep, the last status, and the rest: each is one of the moves above, and
`Moves.trans` puts them in a row. -/

section Submit

variable {m : Matcher} {b : QueueBook} {a : Slot} {o : OrderData}

/-- A status is written to one slot, -/
theorem setStatus_of_ne {c : Slot} (h : c ≠ a) (s : OrderStatus) :
    (m.setStatus a s).pool.storage c = m.pool.storage c := by
  change Store.modify _ a (·.withStatus s) c = _
  exact Store.modify_of_ne h

/-- as a status. -/
theorem data_setStatus (m : Matcher) (a : Slot) (s : OrderStatus) :
    (m.setStatus a s).pool.storage.data a = (m.pool.storage.data a).withStatus s := by
  simp [setStatus, OrderData.withStatus]

/-- A side is part of the book. -/
theorem length_side_le (b : QueueBook) (s : Side) : (b.side s).length ≤ b.slots.length := by
  rw [QueueBook.slots, List.length_map, (b.resting_perm s).length_eq, List.length_append]
  exact Nat.le_add_right _ _

/-- **The dry run of the code is the dry run of the queues.** -/
theorem canFullyFill_eq (h : BookRep m.pool.storage m.book b) (hw : b.WF)
    (hcap : b.slots.length ≤ m.pool.capacity) (t : OrderData) :
    m.canFullyFill t = covers t t.remaining (b.side (opposite t.side)) := by
  have hbids : b.bids.length ≤ m.pool.capacity := (length_side_le b .buy).trans hcap
  have hasks : b.asks.length ≤ m.pool.capacity := (length_side_le b .sell).trans hcap
  unfold canFullyFill QueueBook.side
  split_ifs
  · exact h.bids.walkLevels_eq_covers (hw.sorted .buy) hbids _
  · exact h.asks.walkLevels_eq_covers (hw.sorted .sell) hasks _

/-- The checks before matching are the same. -/
theorem rejects_eq (h : BookRep m.pool.storage m.book b) (hw : b.WF)
    (hcap : b.slots.length ≤ m.pool.capacity) (o : OrderData) : m.rejects o = b.rejects o := by
  rw [Matcher.rejects, QueueBook.rejects, canFullyFill_eq h hw hcap, h.instrument]

/-- **`match` is the sweep of the other side.** -/
theorem matchOrder_moves (h : BookRep m.pool.storage m.book b) (hw : b.WF)
    (hcap : b.slots.length ≤ m.pool.capacity) (ha : a ∉ b.slots)
    (hd : m.pool.storage.data a = o) (ho : o.Sound) :
    Moves m b [a] (m.matchOrder a).1 (b.entered o) (b.entry o).gone
      ∧ (m.matchOrder a).1.pool.storage.data a = (b.entry o).taker
      ∧ (m.matchOrder a).2 = (b.entry o).trades :=
  matchLoop_moves rfl ⟨h, hw.sorted, hw.nodup, hw.open⟩ ha hd ho
    (Nat.lt_succ_of_le ((length_side_le b _).trans hcap)) []

/-- The makers that leave are orders of the book. -/
theorem slot_notMem_gone (hw : b.WF) (ho : o.Sound) (ha : a ∉ b.slots) :
    a ∉ (b.entry o).gone.map (·.slot) := fun hmem =>
  ha ((QueueBook.slots_swept_perm hw ho).mem_iff.mp (List.mem_append_left _ hmem))

/-- **`submit` is the submission to the queues.** -/
theorem submit_moves (h : BookRep m.pool.storage m.book b) (hw : b.WF)
    (hcap : b.slots.length ≤ m.pool.capacity) (ha : a ∉ b.slots)
    (hd : m.pool.storage.data a = o) (ho : o.Sound) :
    Moves m b [a] (m.submit a).1 (b.submit a o).book (b.submit a o).gone
      ∧ (m.submit a).1.pool.storage.data a = (b.submit a o).order
      ∧ (m.submit a).2 = ⟨a, (b.submit a o).trades⟩ := by
  obtain ⟨hm, hd', htr⟩ := matchOrder_moves h hw hcap ha hd ho
  have hout := QueueBook.slot_notMem_entered hw ho ha
  have hgone := slot_notMem_gone hw ho ha
  have hdata : (m.pool.storage a).toOrderData = o := hd
  have hdata' : ((m.matchOrder a).1.pool.storage a).toOrderData = (b.entry o).taker := hd'
  have hident := QueueBook.ident_entry hw ho
  have htype : (b.entry o).taker.type = o.type := congrArg (·.type) hident
  have htif : (b.entry o).taker.tif = o.tif := congrArg (·.tif) hident
  have hs := QueueBook.submitted b a o
  generalize b.submit a o = r at hs ⊢
  cases hs with
  | rejected hrej =>
    have heq : m.submit a = (m.setStatus a .rejected, ⟨a, []⟩) := by
      simp only [submit, hdata, rejects_eq h hw hcap, hrej, if_true]
    rw [heq]
    exact ⟨(Moves.refl h).modify (by simp) ha (by simp) _,
      (data_setStatus m a _).trans (by rw [hd]), rfl⟩
  | filled hrej hfull =>
    have heq : m.submit a = ((m.matchOrder a).1.setStatus a .filled, ⟨a, (m.matchOrder a).2⟩) := by
      simp only [submit, hdata, rejects_eq h hw hcap, hrej, hdata', hfull, if_true,
        Bool.false_eq_true, if_false]
    rw [heq, htr]
    exact ⟨hm.modify (by simp) hout hgone _, (data_setStatus _ a _).trans (by rw [hd']), rfl⟩
  | dropped hrej hfull hdrop =>
    have heq : m.submit a = ((m.matchOrder a).1.setStatus a
        (QueueBook.dropStatus (b.entry o).taker), ⟨a, (m.matchOrder a).2⟩) := by
      simp only [submit, hdata, rejects_eq h hw hcap, hrej, hdata', hfull, if_pos hdrop, htype,
        htif, Bool.false_eq_true, if_false, QueueBook.dropStatus]
    rw [heq, htr]
    exact ⟨hm.modify (by simp) hout hgone _, (data_setStatus _ a _).trans (by rw [hd']), rfl⟩
  | rested hrej hfull hrest =>
    have hm' : Moves m b [a] ((m.matchOrder a).1.setStatus a (b.entry o).taker.restStatus)
        (b.entered o) (b.entry o).gone := hm.modify (by simp) hout hgone _
    have hd'' := (data_setStatus (m.matchOrder a).1 a (b.entry o).taker.restStatus).trans
      (by rw [hd'])
    have hw' := QueueBook.wf_entered hw ho
    have hsub : ∀ c ∈ (b.entered o).slots, c ∈ b.slots := fun c hc =>
      (QueueBook.slots_swept_perm hw ho).mem_iff.mp (List.mem_append_right _ hc)
    have heq : m.submit a = (let m' := (m.matchOrder a).1.setStatus a (b.entry o).taker.restStatus
        (⟨(m'.book.addResting m'.pool.storage a).1,
          { m'.pool with storage := (m'.book.addResting m'.pool.storage a).2 }⟩,
          ⟨a, (m.matchOrder a).2⟩)) := by
      simp only [submit, hdata, rejects_eq h hw hcap, hrej, hdata', hfull, if_neg hrest, htype,
        htif, Bool.false_eq_true, if_false, OrderData.restStatus]
    rw [heq, htr]
    exact ⟨hm'.rest hw'.sorted hw'.nodup hd'' (by simp) hout hsub,
      (congrFun (BookRep.data_addResting _ _ _) a).trans hd'', rfl⟩

end Submit

/-! ## `cancel`

An id that the index knows is cut out of its queue, marked and released; one that it does not know
is nobody's. -/

section Cancel

variable {m : Matcher} {b : QueueBook}

/-- A resting order on its way out. -/
def Resting.cancelled (e : Resting) : Resting := ⟨e.slot, e.order.withStatus .cancelled⟩

/-- Nobody has the id. -/
theorem cancel_of_none {id : OrderId} (h : (m.book.cancelAndGet m.pool.storage id).2.2 = none) :
    m.cancel id = (m, false) := by
  unfold cancel
  generalize m.book.cancelAndGet m.pool.storage id = r at h ⊢
  obtain ⟨book, st, found⟩ := r
  subst h
  rfl

/-- Somebody has. -/
theorem cancel_of_some {id : OrderId} {a : Slot}
    (h : (m.book.cancelAndGet m.pool.storage id).2.2 = some a) :
    m.cancel id = (⟨(m.book.cancelAndGet m.pool.storage id).1, Pool.release
      (Pool.modify { m.pool with storage := (m.book.cancelAndGet m.pool.storage id).2.1 } a
        fun o => o.withStatus .cancelled) a⟩, true) := by
  unfold cancel
  generalize m.book.cancelAndGet m.pool.storage id = r at h ⊢
  obtain ⟨book, st, found⟩ := r
  subst h
  rfl

/-- **`cancel` takes out the order its index entry points to**, and hands back its slot; without
an entry it does nothing. -/
theorem cancel_moves (h : BookRep m.pool.storage m.book b) (hw : b.WF) (id : OrderId) :
    (b.index.lookup id = none ∧ m.cancel id = (m, false))
      ∨ ∃ loc e, b.index.lookup id = some loc ∧ e ∈ b.side loc.side ∧ e.slot = loc.order
        ∧ e.order.id = id ∧ (m.cancel id).2 = true
        ∧ Moves m b [] (m.cancel id).1 (b.remove id loc) [e.cancelled] := by
  obtain ⟨hrep, hslot, hdata, hframe⟩ := h.cancelAndGet_rep hw id
  unfold QueueBook.cancel at hrep hslot
  cases hl : b.index.lookup id with
  | none =>
    rw [hl] at hslot
    exact Or.inl ⟨rfl, cancel_of_none hslot⟩
  | some loc =>
    obtain ⟨e, he, h1, h2, -⟩ := hw.located id loc hl
    rw [hl] at hrep hslot
    have hmem : loc.order ∈ b.slots := h1 ▸ QueueBook.mem_slots.mpr ⟨_, e, he, rfl⟩
    have hout : loc.order ∉ (b.remove id loc).slots := fun hmem => by
      obtain ⟨s, f, hf, hfl⟩ := QueueBook.mem_slots.mp hmem
      exact ((QueueBook.mem_side_remove hw hl).mp hf).2 hfl
    rw [cancel_of_some hslot]
    refine Or.inr ⟨loc, e, rfl, he, h1, h2, rfl, ⟨?_, rfl, ?_, fun c _ hc => ?_, fun f hf => ?_⟩⟩
    · refine hrep.frame fun c hc => ?_
      change Store.modify _ loc.order (·.withStatus .cancelled) c = _
      exact Store.modify_of_ne (ne_of_mem_of_not_mem hc hout)
    · simp [Resting.cancelled, h1]
    · change Store.modify _ loc.order (·.withStatus .cancelled) c = _
      exact (Store.modify_of_ne (ne_of_mem_of_not_mem hmem hc).symm).trans (hframe c hc)
    · obtain rfl := List.mem_singleton.mp hf
      have hcell : m.pool.storage.data loc.order = e.order := h1 ▸ h.data_side he
      change (Store.modify _ _ _).data e.slot = _
      rw [Store.data_modify, h1, Function.update_self]
      rw [hdata, hcell]
      rfl

end Cancel

end Ordbk
