import Ordbk.Abstract.Rested

/-!
# Abstract/Fate — what becomes of an order at rest

Another order can trade with it, in part or in whole, at its price; and its id can be cancelled.
Slots name orders here, so the ids may repeat.
-/

namespace Ordbk

/-- **What a submission of `o` makes of an order at rest**: nothing, or an execution against it. -/
inductive Resting.Fate (e : Resting) (o : OrderData) (ts : List Trade) (b' : QueueBook) : Prop
  | stays : e ∈ b'.resting → Fate e o ts b'
  | partly {q : Quantity} : tradeOf o e.order q ∈ ts → 0 < q → q < e.order.remaining →
      e.partly q ∈ b'.resting → Fate e o ts b'
  | filled : tradeOf o e.order e.order.remaining ∈ ts → 0 < e.order.remaining →
      e.slot ∉ b'.slots → Fate e o ts b'

/-- What a sweep makes of one of the makers. -/
theorem fate_sweep {t : OrderData} {ms : List Resting} (ht : t.Sound)
    (hms : ∀ m ∈ ms, m.order.Open) {e : Resting} (he : e ∈ ms) :
    e ∈ (sweep t ms).makers
      ∨ (∃ q, tradeOf t e.order q ∈ (sweep t ms).trades ∧ 0 < q ∧ q < e.order.remaining
        ∧ e.partly q ∈ (sweep t ms).makers)
      ∨ tradeOf t e.order e.order.remaining ∈ (sweep t ms).trades
        ∧ e.consumed ∈ (sweep t ms).gone := by
  revert he
  refine sweep_rec (P := fun t ms s => e ∈ ms → e ∈ s.makers
    ∨ (∃ q, tradeOf t e.order q ∈ s.trades ∧ 0 < q ∧ q < e.order.remaining ∧ e.partly q ∈ s.makers)
    ∨ tradeOf t e.order e.order.remaining ∈ s.trades ∧ e.consumed ∈ s.gone) ?_ ?_ ?_ ht hms
  · exact fun t ms _ _ _ he => .inl he
  · intro t m ms s _ _ _ _ _ _ ih he
    rcases List.mem_cons.mp he with rfl | he
    · exact .inr (.inr ⟨List.mem_cons_self .., List.mem_cons_self ..⟩)
    · rcases ih he with h | ⟨q, h, hq⟩ | ⟨h, hg⟩
      · exact .inl h
      · exact .inr (.inl ⟨q, List.mem_cons_of_mem _ h, hq⟩)
      · exact .inr (.inr ⟨List.mem_cons_of_mem _ h, List.mem_cons_of_mem _ hg⟩)
  · intro t m ms _ _ _ hs hlt he
    rcases List.mem_cons.mp he with rfl | he
    · exact .inr (.inl ⟨_, List.mem_cons_self .., qty_pos_iff.mpr (not_stops_cons.mp hs).1, hlt,
        List.mem_cons_self ..⟩)
    · exact .inl (List.mem_cons_of_mem _ he)

namespace QueueBook

variable {b : QueueBook} {a : Slot} {o : OrderData} {e : Resting}

/-- Who is gone from a queue is in no queue. -/
theorem slot_notMem_of_gone (h : b.WF) (ho : o.Sound) (he : e.consumed ∈ (b.entry o).gone) :
    e.slot ∉ (b.entered o).slots := by
  have hnd := (slots_swept_perm (s := opposite o.side) h ho).nodup_iff.mpr h.nodup
  exact fun hmem => (List.nodup_append.mp hnd).2.2 e.slot (List.mem_map.mpr ⟨_, he, rfl⟩)
    e.slot hmem rfl

/-- What the sweep of an order makes of an order at rest. -/
theorem fate_entered (h : b.WF) (ho : o.Sound) (he : e ∈ b.resting) :
    e.Fate o (b.entry o).trades (b.entered o) := by
  obtain ⟨s, hs⟩ := b.mem_resting.mp he
  by_cases hopp : SameSide (opposite o.side) s
  · rw [← b.side_congr hopp] at hs
    have hmem : ∀ f ∈ (b.entry o).makers, f ∈ (b.entered o).resting := fun f hf =>
      (b.entered o).mem_resting.mpr ⟨opposite o.side, by rwa [side_entered]⟩
    rcases fate_sweep ho h.open hs with hk | ⟨q, ht, hq, hlt, hk⟩ | ⟨ht, hg⟩
    · exact .stays (hmem _ hk)
    · exact .partly ht hq hlt (hmem _ hk)
    · exact .filled ht (qty_pos_iff.mpr (h.open _ hs).remaining_ne_zero)
        (slot_notMem_of_gone h ho hg)
  · refine .stays ((b.entered o).mem_resting.mpr ⟨s, ?_⟩)
    rw [entered, side_swept, if_neg hopp]
    exact hs

/-- **What a submission makes of an order at rest.** -/
theorem fate_submit (h : b.WF) (ho : o.Sound) (ha : a ∉ b.slots) (he : e ∈ b.resting) :
    e.Fate o (b.submit a o).trades (b.submit a o).book := by
  have hent := fate_entered h ho he
  have hs := submitted b a o
  generalize b.submit a o = r at hs ⊢
  cases hs with
  | rejected _ => exact .stays he
  | filled _ _ => exact hent
  | dropped _ _ _ => exact hent
  | rested _ _ _ =>
    cases hent with
    | stays hk => exact .stays (mem_resting_rest hk)
    | partly ht hq hlt hk => exact .partly ht hq hlt (mem_resting_rest hk)
    | filled ht hq hk =>
      refine .filled ht hq fun hmem => ?_
      rcases List.mem_cons.mp ((slots_rest_perm _ _).mem_iff.mp hmem) with hslot | hmem
      · obtain rfl : e.slot = a := hslot
        exact ha (List.mem_map_of_mem he)
      · exact hk hmem

/-- **What a cancel makes of an order at rest**: it takes nobody out but under the id it names. -/
theorem fate_cancel (h : b.WF) (he : e ∈ b.resting) (id : OrderId) :
    e ∈ (b.cancel id).1.resting ∨ e.order.id = id ∧ e.slot ∉ (b.cancel id).1.slots := by
  unfold cancel
  cases hl : b.index.lookup id with
  | none => exact .inl he
  | some loc =>
    obtain ⟨s, hs⟩ := b.mem_resting.mp he
    by_cases hslot : e.slot = loc.order
    · obtain ⟨f, hf, h1, h2, -⟩ := h.located id loc hl
      obtain rfl := h.eq_of_slot hs hf (hslot.trans h1.symm)
      refine .inr ⟨h2, ?_⟩
      rw [slots_remove h hl, List.mem_filter]
      simp [hslot]
    · exact .inl ((b.remove id loc).mem_resting.mpr ⟨s, (mem_side_remove h hl).mpr ⟨hs, hslot⟩⟩)

end QueueBook

end Ordbk
