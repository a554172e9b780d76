import Ordbk.Refinement.Matcher

/-!
# Refinement/Drain — what `cancel_all` visits

`clear_and_drain` nulls the links of an order before the iterator over its level steps, so the step
reads a null `level_next` and the walk of the level ends after its first order.  The orders visited
are therefore `fronts`: the head of each level, and nothing behind it.

`cancelAll_moves` is the whole effect.  `fronts_eq_self_iff` says when it is what the operation is
for: exactly when no level holds two orders.
-/

namespace Ordbk

open Matcher

/-- The first order at each price. -/
def fronts (l : List Resting) : List Resting :=
  l.filter fun e => (queueAt e.price l).head? = some e

/-- **Every order is the front of its level iff no two share a price.** -/
theorem fronts_eq_self_iff {l : List Resting} (hnd : l.Nodup) :
    fronts l = l ↔ ∀ e ∈ l, queueAt e.price l = [e] := by
  rw [fronts, List.filter_eq_self]
  refine ⟨fun h e he => ?_, fun h e he => by simp [h e he]⟩
  have hhead : (queueAt e.price l).head? = some e := by simpa using h e he
  obtain ⟨q, hq⟩ : ∃ q, queueAt e.price l = e :: q := by
    cases hql : queueAt e.price l with
    | nil => simp [hql] at hhead
    | cons f q =>
      rw [hql] at hhead
      exact ⟨q, by rw [Option.some.inj hhead]⟩
  rw [hq]
  -- a second order at this price would be the front as well
  cases q with
  | nil => rfl
  | cons f q =>
    obtain ⟨hf, hfp⟩ := mem_queueAt.mp (show f ∈ queueAt e.price l by simp [hq])
    have hff : (queueAt f.price l).head? = some f := by simpa using h f hf
    rw [hfp, hq] at hff
    have hndq : (queueAt e.price l).Nodup := hnd.filter _
    rw [hq, Option.some.inj hff] at hndq
    simp at hndq

/-! ## One level

The links of an order are reset while the iterator stands on it, and so it steps to null. -/

/-- An order visited by the drain: links nulled, cancelled, given back. -/
def drop (pool : Pool) (a : Slot) : Pool :=
  retire a { pool with storage := (pool.storage.setNext (some a) none).setPrev (some a) none }

@[simp] theorem capacity_drop (pool : Pool) (a : Slot) : (drop pool a).capacity = pool.capacity :=
  rfl

theorem storage_drop (pool : Pool) (a : Slot) :
    (drop pool a).storage = ((pool.storage.setNext (some a) none).setPrev (some a) none).modify a
      fun o => o.withStatus .cancelled := rfl

@[simp] theorem freeSlots_drop (pool : Pool) (a : Slot) :
    (drop pool a).freeSlots = a :: pool.freeSlots := rfl

theorem storage_drop_of_ne {pool : Pool} {a c : Slot} (h : c ≠ a) :
    (drop pool a).storage c = pool.storage c := by
  have hne : some a ≠ some c := fun hac => h (Option.some.inj hac).symm
  rw [storage_drop, Store.modify_of_ne h, Store.setPrev_of_ne hne, Store.setNext_of_ne hne]

theorem data_drop_self (pool : Pool) (a : Slot) :
    (drop pool a).storage.data a = (pool.storage.data a).withStatus .cancelled := by
  rw [storage_drop, Store.data_modify, Function.update_self, Store.data_setPrev, Store.data_setNext]

/-- **The walk of a level ends after its first order**: its `level_next` is null by then. -/
theorem drainLevel_some (fuel : ℕ) (pool : Pool) (a : Slot) :
    OrderBook.drainLevel retire (fuel + 1) (some a) pool = drop pool a := by
  have hnext : ((drop pool a).storage a).levelNext = none := by
    change (drop pool a).storage.nexts a = none
    rw [storage_drop, Store.nexts_modify, Store.nexts_setPrev, Store.nexts_setNext]
    simp [Dll.setAt]
  change OrderBook.drainLevel retire fuel ((drop pool a).storage a).levelNext (drop pool a) = _
  rw [hnext]
  cases fuel <;> rfl

/-! ## All levels

So each level contributes its front, and the fronts come in the order of the levels. -/

section Fold

/-- Visiting a list of orders. -/
theorem foldl_drop {es : List Resting} (pool : Pool) (hnd : (es.map (·.slot)).Nodup) :
    (es.foldl (fun pool e => drop pool e.slot) pool).capacity = pool.capacity
      ∧ (es.foldl (fun pool e => drop pool e.slot) pool).freeSlots
        = (es.map (·.slot)).reverse ++ pool.freeSlots
      ∧ (∀ c, c ∉ es.map (·.slot) →
        (es.foldl (fun pool e => drop pool e.slot) pool).storage c = pool.storage c)
      ∧ ∀ e ∈ es, (es.foldl (fun pool e => drop pool e.slot) pool).storage.data e.slot
        = (pool.storage.data e.slot).withStatus .cancelled := by
  induction es generalizing pool with
  | nil => simp
  | cons e es ih =>
    rw [List.map_cons, List.nodup_cons] at hnd
    obtain ⟨h1, h2, h3, h4⟩ := ih (drop pool e.slot) hnd.2
    rw [List.foldl_cons]
    refine ⟨h1, ?_, fun c hc => ?_, fun f hf => ?_⟩
    · rw [h2, freeSlots_drop]
      simp
    · rw [List.map_cons, List.mem_cons, not_or] at hc
      rw [h3 c hc.2, storage_drop_of_ne hc.1]
    · rcases List.mem_cons.mp hf with rfl | hf
      · rw [Store.data_congr (h3 f.slot hnd.1), data_drop_self]
      · have hne : f.slot ≠ e.slot := fun hfe => hnd.1 (List.mem_map.mpr ⟨f, hf, hfe⟩)
        rw [h4 f hf, Store.data_congr (storage_drop_of_ne hne)]

variable {lt : Price → Price → Prop} [IsStrictTotalOrder Price lt]
  {levels : OrdMap lt PriceLevel} {st : Store} {l : List Resting}

/-- The fronts, level by level. -/
theorem LevelsRep.fronts_eq (h : LevelsRep st levels l) (hs : Priority.Sorted Resting.price lt l)
    (hnd : l.Nodup) :
    fronts l = levels.entries.flatMap fun x => (queueAt x.1 l).head?.toList := by
  have hone : ∀ p, (queueAt p l).filter (fun e => (queueAt e.price l).head? = some e)
      = (queueAt p l).head?.toList := by
    intro p
    have hp : ∀ e ∈ queueAt p l, e.price = p := fun e he => (mem_queueAt.mp he).2
    have hndq : (queueAt p l).Nodup := hnd.filter _
    rw [List.filter_congr fun e he => by rw [hp e he]]
    cases hq : queueAt p l with
    | nil => rfl
    | cons f q =>
      rw [hq, List.nodup_cons] at hndq
      rw [List.head?_cons, List.filter_cons_of_pos (by simp), List.filter_eq_nil_iff.mpr]
      · rfl
      · intro e he hfe
        obtain rfl : f = e := by simpa using hfe
        exact hndq.1 he
  calc fronts l
      = (levels.entries.flatMap fun x => queueAt x.1 l).filter
          fun e => (queueAt e.price l).head? = some e := by rw [h.flatMap_queueAt hs, fronts]
    _ = levels.entries.flatMap fun x => (queueAt x.1 l).head?.toList := by
        rw [List.filter_flatMap]
        exact List.flatMap_congr fun x _ => hone x.1

/-- **Draining a side visits the front of each of its levels.** -/
theorem LevelsRep.drainLevels_eq (h : LevelsRep st levels l)
    (hs : Priority.Sorted Resting.price lt l) (hnd : l.Nodup) (pool : Pool) :
    OrderBook.drainLevels retire levels pool
      = (fronts l).foldl (fun pool e => drop pool e.slot) pool := by
  rw [h.fronts_eq hs hnd, List.foldl_flatMap, OrderBook.drainLevels]
  refine List.foldl_ext _ _ _ fun pool x hx => ?_
  obtain ⟨hne, hh⟩ := h.present x.1 x.2 (levels.mem_entries.mp hx)
  obtain ⟨e, q, hq⟩ := List.exists_cons_of_ne_nil hne
  rw [hq] at hh ⊢
  have hhead : x.2.head = some e.slot := hh.front_eq
  rw [hhead, drainLevel_some]
  rfl

end Fold

/-! ## `cancel_all`

The book is empty afterwards, whoever was visited. -/

/-- The orders visited when a book is drained. -/
def QueueBook.fronts (b : QueueBook) : List Resting := Ordbk.fronts b.bids ++ Ordbk.fronts b.asks

theorem QueueBook.fronts_sublist (b : QueueBook) : b.fronts.Sublist b.resting :=
  List.filter_sublist.append List.filter_sublist

/-- **`cancel_all` empties the book, cancels the front order of each level and hands back its
slot.**  Nothing else of the pool changes. -/
theorem cancelAll_moves {m : Matcher} {b : QueueBook} (h : BookRep m.pool.storage m.book b)
    (hw : b.WF) :
    Moves m b [] m.cancelAll ⟨b.instrument, [], [], ∅⟩ (b.fronts.map Resting.cancelled) := by
  have hnd : b.resting.Nodup := hw.nodup.of_map _
  have hdrain : m.cancelAll = ⟨{ instrument := b.instrument },
      b.fronts.foldl (fun pool e => drop pool e.slot) m.pool⟩ := by
    rw [QueueBook.fronts, List.foldl_append,
      ← h.bids.drainLevels_eq (hw.sorted .buy) hnd.of_append_left,
      ← h.asks.drainLevels_eq (hw.sorted .sell) hnd.of_append_right, ← h.instrument]
    rfl
  have hslots : (b.fronts.map (·.slot)).Sublist b.slots := b.fronts_sublist.map _
  obtain ⟨h1, h2, h3, h4⟩ := foldl_drop m.pool (hw.nodup.sublist hslots)
  rw [hdrain]
  refine ⟨BookRep.new _ _, h1, ?_, fun c _ hc => h3 c fun hmem => hc (hslots.subset hmem),
    fun e he => ?_⟩
  · rw [h2, List.map_map]
    rfl
  · obtain ⟨f, hf, rfl⟩ := List.mem_map.mp he
    refine (h4 f hf).trans ?_
    rw [h.data (b.fronts_sublist.subset hf)]
    rfl

end Ordbk
