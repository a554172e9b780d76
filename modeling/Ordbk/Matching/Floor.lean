import Ordbk.Matching.Engine
import Ordbk.Lib.Reach

/-!
# Matching/Floor — whoever calls an engine

`Desk` for an engine: the caller acquires slots from the pool, fills them in, submits them, cancels
by instrument and id, expires instruments, and gives slots back.  A call is refused (`none`) when
the caller would use a slot that is not in its hands.
-/

namespace Ordbk

/-- An engine and its caller. -/
structure Floor where
  /-- Many books, -/
  engine : Engine
  /-- and one pool for all of them. -/
  pool : Pool
  /-- Acquired, and not at rest in a book. -/
  held : List Slot := []

/-- What the caller can do. -/
inductive FloorCall
  | acquire
  | write (a : Slot) (o : Order)
  | submit (a : Slot)
  | cancel (i : InstrumentId) (id : OrderId)
  | expire (i : InstrumentId)
  | release (a : Slot)

namespace Floor

/-- An engine and a fresh pool. -/
def start (engine : Engine) (capacity : ℕ) : Floor := { engine, pool := Pool.new capacity }

/-- The order in a slot. -/
def order (f : Floor) (a : Slot) : OrderData := f.pool.storage.data a

/-- Submit the order in a slot; unless it comes to rest the slot stays in the caller's hands. -/
def submit (f : Floor) (a : Slot) : Floor :=
  let (engine, pool, _) := f.engine.submit f.pool a
  { engine, pool, held := if (pool.storage.data a).rests then f.held.erase a else f.held }

/-- **One call**, with the same rules for slots as at a desk. -/
def call (f : Floor) : FloorCall → Option Floor
  | .acquire => f.pool.acquire.map fun (a, pool) => { f with pool, held := a :: f.held }
  | .write a o =>
      if a ∈ f.held then some { f with pool.storage := Function.update f.pool.storage a o }
      else none
  | .submit a => if a ∈ f.held ∧ (f.order a).filledQty = 0 then some (f.submit a) else none
  | .cancel i id =>
      let (engine, pool, _) := f.engine.cancel f.pool i id
      some { f with engine, pool }
  | .expire i =>
      let (engine, pool, _) := f.engine.expireInstrument f.pool i
      some { f with engine, pool }
  | .release a =>
      if a ∈ f.held then some { f with pool := f.pool.release a, held := f.held.erase a }
      else none

end Floor

end Ordbk
