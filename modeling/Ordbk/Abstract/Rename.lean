import Ordbk.Abstract.QueueBook
import Mathlib.Logic.Equiv.Basic

/-!
# Abstract/Rename — slot addresses do not matter

Two queue books are `Alike` if one is the other with its slots renamed.  Alike books answer the same
calls alike: the same final order, the same executions, and alike books again, wherever the caller
has put the incoming order.
-/

namespace Ordbk

/-- The order at rest, in the renamed slot. -/
def Resting.rename (π : Equiv.Perm Slot) (e : Resting) : Resting := ⟨π e.slot, e.order⟩

/-- The locator, to the renamed slot. -/
def Locator.rename (π : Equiv.Perm Slot) (loc : Locator) : Locator :=
  { loc with order := π loc.order }

section Sweep

variable (π : Equiv.Perm Slot)

/-- **Sweeping renamed makers** is sweeping the makers. -/
theorem sweep_rename (t : OrderData) (ms : List Resting) :
    sweep t (ms.map (Resting.rename π))
      = ⟨(sweep t ms).taker, (sweep t ms).makers.map (Resting.rename π), (sweep t ms).trades,
          (sweep t ms).gone.map (Resting.rename π)⟩ := by
  induction ms generalizing t with
  | nil => rfl
  | cons m ms ih =>
    have hprice : (m.rename π).price = m.price := rfl
    have horder : (m.rename π).order = m.order := rfl
    simp only [List.map_cons, sweep, hprice, horder, ih]
    split_ifs <;> rfl

/-- The dry run counts the same, -/
theorem covers_rename (t : OrderData) (need : Quantity) (ms : List Resting) :
    covers t need (ms.map (Resting.rename π)) = covers t need ms := by
  induction ms generalizing need with
  | nil => rfl
  | cons m ms ih =>
    have hprice : (m.rename π).price = m.price := rfl
    have horder : (m.rename π).order = m.order := rfl
    simp only [List.map_cons, covers, hprice, horder, ih]

/-- and a newcomer finds the same place. -/
theorem enqueue_rename (s : Side) (e : Resting) (l : List Resting) :
    Priority.enqueue Resting.price (better s) (e.rename π) (l.map (Resting.rename π))
      = (Priority.enqueue Resting.price (better s) e l).map (Resting.rename π) := by
  induction l with
  | nil => rfl
  | cons x l ih =>
    have hprice : ∀ y : Resting, (y.rename π).price = y.price := fun _ => rfl
    simp only [List.map_cons, Priority.enqueue, hprice, ih]
    split_ifs <;> rfl

end Sweep

namespace QueueBook

/-- One book is the other under new slot names. -/
structure Renamed (π : Equiv.Perm Slot) (b b' : QueueBook) : Prop where
  /-- The instrument has no slot in its name. -/
  instrument : b'.instrument = b.instrument
  /-- The bids are the same, slot names aside, -/
  bids : b'.bids = b.bids.map (Resting.rename π)
  /-- and so are the asks. -/
  asks : b'.asks = b.asks.map (Resting.rename π)
  /-- Each id leads to the renamed slot. -/
  index : ∀ id, b'.index.lookup id = (b.index.lookup id).map (Locator.rename π)

namespace Renamed

variable {π : Equiv.Perm Slot} {b b' : QueueBook} {a : Slot} {o : OrderData}

/-- Side by side. -/
theorem side (h : Renamed π b b') (s : Side) : b'.side s = (b.side s).map (Resting.rename π) := by
  unfold QueueBook.side
  split_ifs
  · exact h.bids
  · exact h.asks

/-- Replacing a side and the index on both. -/
theorem withSide (h : Renamed π b b') (s : Side) (l : List Resting)
    {ix ix' : Finmap fun _ : OrderId => Locator}
    (hix : ∀ id, ix'.lookup id = (ix.lookup id).map (Locator.rename π)) :
    Renamed π { b.withSide s l with index := ix }
      { b'.withSide s (l.map (Resting.rename π)) with index := ix' } := by
  unfold QueueBook.withSide
  split_ifs
  · exact ⟨h.instrument, rfl, h.asks, hix⟩
  · exact ⟨h.instrument, h.bids, rfl, hix⟩

/-- All slots of the book, renamed. -/
theorem slots_eq (h : Renamed π b b') : b'.slots = b.slots.map π := by
  simp only [slots, resting, h.bids, h.asks, List.map_append, List.map_map]
  rfl

/-- The checks before matching, -/
theorem rejects_eq (h : Renamed π b b') (o : OrderData) : b'.rejects o = b.rejects o := by
  simp only [rejects, h.instrument, h.side, covers_rename]

/-- the sweep, -/
theorem entry_eq (h : Renamed π b b') (o : OrderData) :
    b'.entry o = ⟨(b.entry o).taker, (b.entry o).makers.map (Resting.rename π),
      (b.entry o).trades, (b.entry o).gone.map (Resting.rename π)⟩ := by
  rw [QueueBook.entry, h.side, sweep_rename]
  rfl

/-- the book it leaves, -/
theorem entered (h : Renamed π b b') (o : OrderData) : Renamed π (b.entered o) (b'.entered o) := by
  unfold QueueBook.entered swept
  rw [h.entry_eq]
  refine h.withSide _ _ fun id => ?_
  have hids : ((b.entry o).gone.map (Resting.rename π)).map (·.order.id)
      = (b.entry o).gone.map (·.order.id) := by
    rw [List.map_map]
    rfl
  rw [lookup_forget, lookup_forget, hids, h.index]
  split_ifs <;> rfl

/-- and the order that comes to rest. -/
theorem rest (h : Renamed π b b') (e : Resting) : Renamed π (b.rest e) (b'.rest (e.rename π)) := by
  unfold QueueBook.rest
  have hside : (e.rename π).order.side = e.order.side := rfl
  simp only [hside, h.side, enqueue_rename]
  refine h.withSide _ _ fun id => ?_
  have hid : (e.rename π).order.id = e.order.id := rfl
  simp only [lookup_emplace, hid, h.index, Option.map_eq_none_iff]
  split_ifs <;> rfl

/-- **A submission to alike books** goes alike. -/
theorem submit (h : Renamed π b b') (a : Slot) (o : OrderData) :
    Renamed π (b.submit a o).book (b'.submit (π a) o).book
      ∧ (b'.submit (π a) o).order = (b.submit a o).order
      ∧ (b'.submit (π a) o).trades = (b.submit a o).trades := by
  unfold QueueBook.submit
  simp only [h.rejects_eq, h.entry_eq]
  split_ifs
  · exact ⟨h, rfl, rfl⟩
  · exact ⟨h.entered o, rfl, rfl⟩
  · exact ⟨h.entered o, rfl, rfl⟩
  · exact ⟨(h.entered o).rest _, rfl, rfl⟩

theorem cancel (h : Renamed π b b') (id : OrderId) :
    Renamed π (b.cancel id).1 (b'.cancel id).1
      ∧ (b'.cancel id).2.isSome = (b.cancel id).2.isSome := by
  unfold QueueBook.cancel
  rw [h.index]
  cases b.index.lookup id with
  | none => exact ⟨h, rfl⟩
  | some loc =>
    refine ⟨?_, rfl⟩
    have hfilter : (b'.side loc.side).filter (fun e => e.slot ≠ π loc.order)
        = ((b.side loc.side).filter fun e => e.slot ≠ loc.order).map (Resting.rename π) := by
      rw [h.side, List.filter_map]
      congr 1
      refine List.filter_congr fun e _ => ?_
      simp [Resting.rename]
    change Renamed π (b.remove id loc) (b'.remove id (loc.rename π))
    have hremove : b'.remove id (loc.rename π) = { b'.withSide loc.side
        (((b.side loc.side).filter fun e => e.slot ≠ loc.order).map (Resting.rename π)) with
        index := b'.index.erase id } := by
      rw [← hfilter]
      rfl
    rw [hremove]
    refine h.withSide _ _ fun id' => ?_
    by_cases hid : id' = id
    · subst hid
      rw [Finmap.lookup_erase, Finmap.lookup_erase]
      rfl
    · rw [Finmap.lookup_erase_ne hid, Finmap.lookup_erase_ne hid, h.index]

/-- Only the names of slots in use matter. -/
theorem congr (h : Renamed π b b') (hw : b.WF) {σ : Equiv.Perm Slot}
    (hσ : ∀ c ∈ b.slots, σ c = π c) : Renamed σ b b' := by
  have hmap : ∀ l : List Resting, (∀ e ∈ l, e.slot ∈ b.slots) →
      l.map (Resting.rename π) = l.map (Resting.rename σ) := fun l hl =>
    List.map_congr_left fun e he => by rw [Resting.rename, Resting.rename, hσ _ (hl e he)]
  refine ⟨h.instrument, ?_, ?_, fun id => ?_⟩
  · exact h.bids.trans (hmap _ fun e he => List.mem_map_of_mem (List.mem_append_left _ he))
  · exact h.asks.trans (hmap _ fun e he => List.mem_map_of_mem (List.mem_append_right _ he))
  · rw [h.index]
    cases hl : b.index.lookup id with
    | none => rfl
    | some loc =>
      obtain ⟨e, he, hslot, -⟩ := hw.located id loc hl
      have hmem : loc.order ∈ b.slots := mem_slots.mpr ⟨_, e, he, hslot⟩
      simp only [Option.map_some, Locator.rename, hσ _ hmem]

/-- Two unused slots can be given the same name. -/
theorem exists_renaming (h : Renamed π b b') (hw : b.WF) {a' : Slot} (ha : a ∉ b.slots)
    (ha' : a' ∉ b'.slots) : ∃ σ, Renamed σ b b' ∧ σ a = a' := by
  refine ⟨π.trans (Equiv.swap (π a) a'), h.congr hw fun c hc => ?_, by simp⟩
  have h1 : π c ≠ π a := fun heq => ha (π.injective heq ▸ hc)
  have h2 : π c ≠ a' := by
    rintro rfl
    rw [h.slots_eq] at ha'
    exact ha' (List.mem_map_of_mem hc)
  exact Equiv.swap_apply_of_ne_of_ne h1 h2

end Renamed

/-- The same book, slot addresses aside. -/
def Alike (b b' : QueueBook) : Prop := ∃ π, Renamed π b b'

namespace Alike

variable {b b' : QueueBook} {a a' : Slot} {o : OrderData}

/-- A book is like itself. -/
theorem refl (b : QueueBook) : Alike b b := by
  have hid : ∀ l : List Resting, l.map (Resting.rename (Equiv.refl Slot)) = l := fun l =>
    (List.map_congr_left fun _ _ => rfl).trans l.map_id
  refine ⟨Equiv.refl _, rfl, (hid _).symm, (hid _).symm, fun id => ?_⟩
  cases b.index.lookup id <;> rfl

/-- The orders of a side, in their queue. -/
theorem orders_eq (h : Alike b b') (s : Side) :
    (b'.side s).map (·.order) = (b.side s).map (·.order) := by
  obtain ⟨π, h⟩ := h
  rw [h.side, List.map_map]
  rfl

theorem submit (h : Alike b b') (hw : b.WF) (ha : a ∉ b.slots) (ha' : a' ∉ b'.slots)
    (o : OrderData) :
    Alike (b.submit a o).book (b'.submit a' o).book
      ∧ (b'.submit a' o).order = (b.submit a o).order
      ∧ (b'.submit a' o).trades = (b.submit a o).trades := by
  obtain ⟨π, h⟩ := h
  obtain ⟨σ, hσ, rfl⟩ := h.exists_renaming hw ha ha'
  obtain ⟨h1, h2, h3⟩ := hσ.submit a o
  exact ⟨⟨σ, h1⟩, h2, h3⟩

theorem cancel (h : Alike b b') (id : OrderId) :
    Alike (b.cancel id).1 (b'.cancel id).1 ∧ (b'.cancel id).2.isSome = (b.cancel id).2.isSome := by
  obtain ⟨π, h⟩ := h
  exact ⟨⟨π, (h.cancel id).1⟩, (h.cancel id).2⟩

end Alike

end QueueBook

end Ordbk
