import Ordbk.Refinement.Book
import Ordbk.Abstract.Rename
import Mathlib.Data.List.Sort

/-!
# Refinement/View — what a reader sees of a book

Levels in iteration order, each with its orders from front to back: as slots (`levels`) or as order
records (`view`).  Both are functions of the queue book alone, so books that hold alike queues are
seen alike, whatever the links and the addresses.
-/

namespace Ordbk

/-- Two readers of what is there on both sides or on neither. -/
theorem map_eq_of_isSome {α β γ : Type} {a : Option α} {b : Option β} {f : α → γ} {g : β → γ}
    (hsome : a.isSome = b.isSome) (h : ∀ x y, a = some x → b = some y → f x = g y) :
    a.map f = b.map g := by
  cases a with
  | none =>
    obtain rfl := Option.isNone_iff_eq_none.mp (Option.isSome_eq_false_iff.mp hsome.symm)
    rfl
  | some x =>
    obtain ⟨y, rfl⟩ := Option.isSome_iff_exists.mp hsome.symm
    exact congrArg some (h x y rfl rfl)

section View

variable {lt : Price → Price → Prop}

/-- One side: each level's price, and its orders from front to back. -/
def sideView (levels : OrdMap lt PriceLevel) (pool : Pool) : List (Price × List OrderData) :=
  levels.entries.map fun x =>
    (x.1, (x.2.slots pool.storage (pool.capacity + 1)).map pool.storage.data)

/-- The levels and orders of a book, the bids and the asks. -/
def OrderBook.view (b : OrderBook) (pool : Pool) :
    List (Price × List OrderData) × List (Price × List OrderData) :=
  (sideView b.bids pool, sideView b.asks pool)

/-- What the index says of an id: side, price, and the order it leads to. -/
def OrderBook.found (b : OrderBook) (pool : Pool) (id : OrderId) :
    Option (Side × Price × OrderData) :=
  (b.orderMap.lookup id).map fun loc => (loc.side, loc.price, pool.storage.data loc.order)

/-- The whole of a book, slot addresses aside: its levels and its index. -/
def OrderBook.snapshot (b : OrderBook) (pool : Pool) :
    (List (Price × List OrderData) × List (Price × List OrderData))
      × (OrderId → Option (Side × Price × OrderData)) :=
  (b.view pool, b.found pool)

/-- One side: each level's price, and the slots of its orders from front to back. -/
def levelSlots (levels : OrdMap lt PriceLevel) (pool : Pool) : List (Price × List Slot) :=
  levels.entries.map fun x => (x.1, x.2.slots pool.storage (pool.capacity + 1))

/-- The levels of a side of a book. -/
def OrderBook.levels (b : OrderBook) (pool : Pool) (s : Side) : List (Price × List Slot) :=
  if s = .buy then levelSlots b.bids pool else levelSlots b.asks pool

/-- Take one order out of the levels; a level with no other order goes with it. -/
def strike (c : Slot) (levels : List (Price × List Slot)) : List (Price × List Slot) :=
  (levels.map fun x => (x.1, x.2.erase c)).filter fun x => x.2 ≠ []

variable [DecidableRel lt] [IsStrictTotalOrder Price lt] {levels levels' : OrdMap lt PriceLevel}
  {pool pool' : Pool} {l l' : List Resting}

theorem orders_queueAt (p : Price) (l : List Resting) :
    (queueAt p l).map (·.order) = (l.map (·.order)).filter fun o => o.limitPrice = p := by
  rw [List.filter_map]
  rfl

omit [DecidableRel lt] in
/-- The view of a side, from its prices and its queue. -/
theorem LevelsRep.sideView_eq (h : LevelsRep pool.storage levels l)
    (hlen : l.length ≤ pool.capacity) :
    sideView levels pool = (levels.entries.map (·.1)).map fun p =>
      (p, (l.map (·.order)).filter fun o => o.limitPrice = p) := by
  rw [sideView, List.map_map]
  refine List.map_congr_left fun x hx => ?_
  obtain ⟨-, hslots⟩ := h.slots_level (Nat.lt_succ_of_le hlen) hx
  rw [hslots, List.map_map]
  refine congrArg (Prod.mk x.1) (Eq.trans (List.map_congr_left fun e he => ?_) (orders_queueAt _ _))
  exact h.data e (mem_queueAt.mp he).1

omit [DecidableRel lt] in
/-- The prices with a level are those of the queue. -/
theorem LevelsRep.mem_prices (h : LevelsRep pool.storage levels l) (p : Price) :
    p ∈ levels.entries.map (·.1) ↔ p ∈ (l.map (·.order)).map (·.limitPrice) := by
  rw [List.map_map]
  constructor
  · intro hp
    obtain ⟨x, hx, rfl⟩ := List.mem_map.mp hp
    obtain ⟨e, he⟩ := List.exists_mem_of_ne_nil _ (h.present x.1 x.2 (levels.mem_entries.mp hx)).1
    obtain ⟨hel, hprice⟩ := mem_queueAt.mp he
    exact List.mem_map.mpr ⟨e, hel, hprice⟩
  · intro hp
    obtain ⟨e, he, rfl⟩ := List.mem_map.mp hp
    obtain ⟨lv, hlv⟩ := h.find?_of_mem he
    exact List.mem_map.mpr ⟨(e.price, lv), levels.mem_entries.mpr hlv, rfl⟩

omit [DecidableRel lt] in
/-- **The same orders in the same queue are seen alike**, wherever they are stored. -/
theorem sideView_congr (h : LevelsRep pool.storage levels l)
    (h' : LevelsRep pool'.storage levels' l') (hlen : l.length ≤ pool.capacity)
    (hlen' : l'.length ≤ pool'.capacity) (heq : l'.map (·.order) = l.map (·.order)) :
    sideView levels' pool' = sideView levels pool := by
  have hprices : levels'.entries.map (·.1) = levels.entries.map (·.1) := by
    refine List.Pairwise.eq_of_mem_iff (List.pairwise_map.mpr levels'.sorted)
      (List.pairwise_map.mpr levels.sorted) fun p => ?_
    rw [h'.mem_prices, h.mem_prices, heq]
  rw [h.sideView_eq hlen, h'.sideView_eq hlen', hprices, heq]

/-- Alike queue books are seen alike. -/
theorem BookRep.view_eq {hb hb' : OrderBook} {b b' : QueueBook} (h : BookRep pool.storage hb b)
    (h' : BookRep pool'.storage hb' b') (hlen : b.slots.length ≤ pool.capacity)
    (hlen' : b'.slots.length ≤ pool'.capacity) (halike : b.Alike b') :
    hb'.view pool' = hb.view pool := by
  simp only [QueueBook.slots, QueueBook.resting, List.length_map, List.length_append] at hlen hlen'
  refine Prod.ext ?_ ?_
  · exact sideView_congr h.bids h'.bids (by omega) (by omega) (halike.orders_eq .buy)
  · exact sideView_congr h.asks h'.asks (by omega) (by omega) (halike.orders_eq .sell)

/-- Alike queue books have alike indices. -/
theorem BookRep.found_eq {hb hb' : OrderBook} {b b' : QueueBook} (h : BookRep pool.storage hb b)
    (h' : BookRep pool'.storage hb' b') (hw : b.WF) (halike : b.Alike b') :
    hb'.found pool' = hb.found pool := by
  obtain ⟨π, hπ⟩ := halike
  ext1 id
  unfold OrderBook.found
  rw [h.index, h'.index, hπ.index]
  cases hl : b.index.lookup id with
  | none => rfl
  | some loc =>
    obtain ⟨e, he, hslot, -⟩ := hw.located id loc hl
    have he' : e.rename π ∈ b'.side loc.side := by
      rw [hπ.side]
      exact List.mem_map_of_mem he
    have hdata : pool'.storage.data (π loc.order) = pool.storage.data loc.order := by
      rw [← hslot, h.data_side he]
      exact h'.data_side he'
    simp only [Option.map_some, Locator.rename, hdata]

/-- **Alike queue books look alike.** -/
theorem BookRep.snapshot_eq {hb hb' : OrderBook} {b b' : QueueBook} (h : BookRep pool.storage hb b)
    (h' : BookRep pool'.storage hb' b') (hw : b.WF) (hlen : b.slots.length ≤ pool.capacity)
    (hlen' : b'.slots.length ≤ pool'.capacity) (halike : b.Alike b') :
    hb'.snapshot pool' = hb.snapshot pool :=
  Prod.ext (h.view_eq h' hlen hlen' halike) (h.found_eq h' hw halike)

omit [DecidableRel lt] in
/-- The levels of a side, from its prices and its queue. -/
theorem LevelsRep.levelSlots_eq (h : LevelsRep pool.storage levels l)
    (hlen : l.length ≤ pool.capacity) :
    levelSlots levels pool
      = (levels.entries.map (·.1)).map fun p => (p, (queueAt p l).map (·.slot)) := by
  rw [levelSlots, List.map_map]
  refine List.map_congr_left fun x hx => ?_
  exact congrArg (Prod.mk x.1) (h.slots_level (Nat.lt_succ_of_le hlen) hx).2

omit [DecidableRel lt] in
/-- The prices with a level, after some orders have left. -/
theorem LevelsRep.prices_filter (h : LevelsRep pool.storage levels l) {P : Resting → Bool}
    (h' : LevelsRep pool'.storage levels' (l.filter P)) :
    levels'.entries.map (·.1)
      = (levels.entries.map (·.1)).filter fun p => queueAt p (l.filter P) ≠ [] := by
  refine List.Pairwise.eq_of_mem_iff (List.pairwise_map.mpr levels'.sorted)
    ((List.pairwise_map.mpr levels.sorted).filter _) fun p => ?_
  have hqueue : ∀ l : List Resting,
      p ∈ (l.map (·.order)).map (·.limitPrice) ↔ queueAt p l ≠ [] := fun l => by
    rw [List.map_map, queueAt, ne_eq, List.filter_eq_nil_iff, List.mem_map]
    simp only [decide_eq_true_eq, not_forall, not_not, exists_prop]
    rfl
  rw [List.mem_filter, h'.mem_prices, h.mem_prices, hqueue, hqueue, decide_eq_true_eq]
  refine ⟨fun hne => ⟨fun hnil => hne ?_, hne⟩, And.right⟩
  refine List.filter_eq_nil_iff.mpr fun e he => ?_
  exact List.filter_eq_nil_iff.mp hnil e (List.mem_filter.mp he).1

omit [DecidableRel lt] in
/-- **One order leaves its queue**: it is struck from the levels. -/
theorem LevelsRep.levelSlots_strike {c : Slot} (h : LevelsRep pool.storage levels l)
    (h' : LevelsRep pool'.storage levels' (l.filter fun e => e.slot ≠ c))
    (hnd : (l.map (·.slot)).Nodup) (hlen : l.length ≤ pool.capacity)
    (hcap : pool'.capacity = pool.capacity) :
    levelSlots levels' pool' = strike c (levelSlots levels pool) := by
  have hlen' : (l.filter fun e => e.slot ≠ c).length ≤ pool'.capacity :=
    hcap ▸ (List.length_filter_le _ _).trans hlen
  have herase : ∀ p, ((queueAt p l).map (·.slot)).erase c
      = (queueAt p (l.filter fun e => e.slot ≠ c)).map (·.slot) := fun p => by
    have hsub : ((queueAt p l).map (·.slot)).Nodup := hnd.sublist (List.filter_sublist.map _)
    rw [hsub.erase_eq_filter, List.filter_map, queueAt, queueAt, List.filter_filter,
      List.filter_filter]
    congr 2
    ext e
    rw [Bool.and_comm]
    by_cases he : e.slot = c <;> simp [he]
  rw [h.levelSlots_eq hlen, h'.levelSlots_eq hlen', strike, h.prices_filter h']
  generalize levels.entries.map (·.1) = prices
  rw [List.map_map, List.filter_map]
  simp only [Function.comp_def, herase, ne_eq, List.map_eq_nil_iff]

omit [DecidableRel lt] in
/-- **The same queue is the same levels**, whatever the links. -/
theorem LevelsRep.levelSlots_congr (h : LevelsRep pool.storage levels l)
    (h' : LevelsRep pool'.storage levels' l) (hlen : l.length ≤ pool.capacity)
    (hlen' : l.length ≤ pool'.capacity) : levelSlots levels' pool' = levelSlots levels pool := by
  have hprices : levels'.entries.map (·.1) = levels.entries.map (·.1) := by
    refine List.Pairwise.eq_of_mem_iff (List.pairwise_map.mpr levels'.sorted)
      (List.pairwise_map.mpr levels.sorted) fun p => ?_
    rw [h'.mem_prices, h.mem_prices]
  rw [h.levelSlots_eq hlen, h'.levelSlots_eq hlen', hprices]

end View

end Ordbk
