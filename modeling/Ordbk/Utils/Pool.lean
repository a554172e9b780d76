import Ordbk.Orderbook.PriceLevel

/-!
# Utils/Pool — the slab of orders and its free stack

`Pool` owns the orders: a fixed number of slots, and a stack of the slots not handed out.  Only the
live part of `free_slots_` is kept, top first, so `stack_top_` is its length and `release` is a
`cons` — which, like the source, checks nothing.
-/

namespace Ordbk

/-- Slots with orders in them, and a stack of those that are free. -/
structure Pool where
  /-- How many slots there are. -/
  capacity : ℕ
  /-- The orders in them; a slot beyond the capacity is never handed out. -/
  storage : Store
  /-- `free_slots_[0 .. stack_top_)`, the top first. -/
  freeSlots : List Slot

namespace Pool

/-- `Pool(capacity)`: every slot is free, slot `capacity - 1` on top. -/
def new (capacity : ℕ) : Pool where
  capacity := capacity
  storage := fun _ => {}
  freeSlots := (List.range capacity).reverse

/-- A zeroed slot, or nothing if the pool is exhausted. -/
def acquire (pool : Pool) : Option (Slot × Pool) :=
  match pool.freeSlots with
  | [] => none
  | a :: free =>
    some (a, { pool with storage := Function.update pool.storage a {}, freeSlots := free })

/-- Give a slot back. -/
def release (pool : Pool) (a : Slot) : Pool := { pool with freeSlots := a :: pool.freeSlots }

def availableApprox (pool : Pool) : ℕ := pool.freeSlots.length

/-- Assign data fields of one order. -/
def modify (pool : Pool) (a : Slot) (f : OrderData → OrderData) : Pool :=
  { pool with storage := pool.storage.modify a f }

/-- `*order = Order{...}`: overwrite a slot; the links of the new value are null. -/
def write (pool : Pool) (a : Slot) (o : OrderData) : Pool :=
  { pool with storage := Function.update pool.storage a { o with } }

/-- **A slot is handed out** from the top of the stack; nothing else changes. -/
theorem acquire_eq_some {pool pool' : Pool} {a : Slot} (h : pool.acquire = some (a, pool')) :
    pool.freeSlots = a :: pool'.freeSlots ∧ pool'.capacity = pool.capacity
      ∧ ∀ c, c ≠ a → pool'.storage c = pool.storage c := by
  unfold acquire at h
  split at h
  · nomatch h
  · next free hf =>
    obtain ⟨rfl, rfl⟩ := Prod.mk.inj (Option.some.inj h)
    exact ⟨hf, rfl, fun c hc => Function.update_of_ne hc _ _⟩

theorem exists_acquire {pool : Pool} {a : Slot} {free : List Slot}
    (h : pool.freeSlots = a :: free) : ∃ pool', pool.acquire = some (a, pool') := by
  unfold acquire
  rw [h]
  exact ⟨_, rfl⟩

variable (pool : Pool) (a : Slot) (f : OrderData → OrderData) (o : OrderData)

@[simp] theorem capacity_release : (pool.release a).capacity = pool.capacity := rfl

@[simp] theorem storage_release : (pool.release a).storage = pool.storage := rfl

@[simp] theorem freeSlots_release : (pool.release a).freeSlots = a :: pool.freeSlots := rfl

@[simp] theorem capacity_modify : (pool.modify a f).capacity = pool.capacity := rfl

@[simp] theorem storage_modify : (pool.modify a f).storage = pool.storage.modify a f := rfl

@[simp] theorem freeSlots_modify : (pool.modify a f).freeSlots = pool.freeSlots := rfl

@[simp] theorem capacity_write : (pool.write a o).capacity = pool.capacity := rfl

@[simp] theorem freeSlots_write : (pool.write a o).freeSlots = pool.freeSlots := rfl

@[simp] theorem data_write_self : (pool.write a o).storage.data a = o := by
  simp [write, Store.data]

end Pool

end Ordbk
