import Ordbk.Orderbook.Book

/-!
# Matching/Matcher — price-time matching against one book

A `Matcher` holds references to a book and to the pool; here it *is* the pair.  `match_complete_ns`
is left out, for nothing reads it; the latency record is in `Matching/Timed`.
-/

namespace Ordbk

/-- What the two references of a matcher point to. -/
structure Matcher where
  /-- The book of its instrument. -/
  book : OrderBook
  /-- It is shared with the caller, and with other matchers. -/
  pool : Pool

/-- The taker, and the executions of its entry. -/
structure MatchResult where
  /-- The slot that was handed in, whatever became of the order. -/
  order : Slot
  /-- Oldest first. -/
  trades : List Trade

/-- A buyer takes what is no dearer than its limit, everybody else what is no cheaper. -/
def pricesCross (takerSide : Side) (takerLimit makerPrice : Price) : Bool :=
  if takerSide = .buy then makerPrice ≤ takerLimit else takerLimit ≤ makerPrice

namespace Matcher

/-- The price test in front of a fill: only limit takers have one. -/
def blocked (taker : OrderData) (makerPrice : Price) : Bool :=
  taker.type == .limit && !pricesCross taker.side taker.limitPrice makerPrice

/-! ## The dry run of a fill-or-kill order

The walk goes over the levels of the other side and counts down what is needed until there is
enough, without touching an order. -/

/-- The inner loop of `can_fully_fill`: `none` is `return true`, otherwise the quantity still
needed when the level is exhausted. -/
def walkLevel (st : Store) : Quantity → List Slot → Option Quantity
  | need, [] => some need
  | need, o :: os =>
    if need ≤ (st o).remaining then none else walkLevel st (need - (st o).remaining) os

/-- The outer loop: levels in iteration order, until one no longer crosses. -/
def walkLevels (pool : Pool) (taker : OrderData) : Quantity → List (Price × PriceLevel) → Bool
  | need, [] => need == 0
  | need, (price, level) :: levels =>
    if blocked taker price then need == 0
    else match walkLevel pool.storage need (level.slots pool.storage (pool.capacity + 1)) with
      | none => true
      | some need => walkLevels pool taker need levels

/-- The side walked is the one the order would be matched against. -/
def canFullyFill (m : Matcher) (taker : OrderData) : Bool :=
  if opposite taker.side = .buy then walkLevels m.pool taker taker.remaining m.book.bids.entries
  else walkLevels m.pool taker taker.remaining m.book.asks.entries

/-! ## The matching loop

The source fetches the top order anew in each pass, so the loop is about whatever is on top by
then. -/

/-- One pass of the loop body below its guards: trade `taker` against the top order `maker`. -/
def fillTop (m : Matcher) (taker maker : Slot) : Matcher × Trade :=
  let t := m.pool.storage taker
  let k := m.pool.storage maker
  let fill := qtyMin t.remaining k.remaining
  let pool := m.pool.modify taker fun o => { o with filledQty := o.filledQty + fill }
  let pool := pool.modify maker fun o => { o with filledQty := o.filledQty + fill }
  let trade : Trade := ⟨k.id, t.id, t.instrument, k.limitPrice, fill, t.ts⟩
  if (pool.storage maker).isFullyFilled then
    let pool := pool.modify maker fun o => { o with status := .filled }
    let (book, st) := m.book.popTop pool.storage (opposite t.side)
    ({ book, pool := Pool.release { pool with storage := st } maker }, trade)
  else
    ({ m with pool := pool.modify maker fun o => { o with status := .partiallyFilled } }, trade)

/-- The loop of `match`.  Each pass but the last removes an order from the book, so `fuel` above
the number of resting orders is never used up (`Refinement/Matcher`). -/
def matchLoop : ℕ → Matcher → Slot → List Trade → Matcher × List Trade
  | 0, m, _, trades => (m, trades)
  | fuel + 1, m, taker, trades =>
    let t := m.pool.storage taker
    if 0 < t.remaining then
      match m.book.peekTop (opposite t.side) with
      | none => (m, trades)
      | some maker =>
        if blocked t.toOrderData (m.pool.storage maker).limitPrice then (m, trades)
        else
          let (m, trade) := m.fillTop taker maker
          matchLoop fuel m taker (trades ++ [trade])
    else (m, trades)

/-- `match` (a keyword here). -/
def matchOrder (m : Matcher) (taker : Slot) : Matcher × List Trade :=
  matchLoop (m.pool.capacity + 1) m taker []

/-! ## The public operations

What remains of an order after matching is told from its quantities and its kind: filled, dropped,
or brought to rest. -/

def setStatus (m : Matcher) (order : Slot) (s : OrderStatus) : Matcher :=
  { m with pool := m.pool.modify order fun o => { o with status := s } }

/-- The early returns of `submit`, in the source's order. -/
def rejects (m : Matcher) (o : OrderData) : Bool :=
  o.initialQty == 0
    || o.instrument != m.book.instrument
    || (o.type == .limit && decide (o.limitPrice ≤ 0))
    || (o.type == .market && (o.tif == .gtc || o.tif == .day))
    || (o.tif == .fok && !m.canFullyFill o)

/-- Check, match, and then see what remains. -/
def submit (m : Matcher) (order : Slot) : Matcher × MatchResult :=
  if m.rejects (m.pool.storage order).toOrderData then (m.setStatus order .rejected, ⟨order, []⟩)
  else
    let (m, trades) := m.matchOrder order
    let o := m.pool.storage order
    if o.isFullyFilled then (m.setStatus order .filled, ⟨order, trades⟩)
    else if o.type = .market ∨ o.tif = .ioc then
      (m.setStatus order (if 0 < o.filledQty then .partiallyFilled else .cancelled),
        ⟨order, trades⟩)
    else
      let m := m.setStatus order (if 0 < o.filledQty then .partiallyFilled else .new)
      let (book, st) := m.book.addResting m.pool.storage order
      ({ book, pool := { m.pool with storage := st } }, ⟨order, trades⟩)

/-- The order goes back to the pool at once. -/
def cancel (m : Matcher) (id : OrderId) : Matcher × Bool :=
  match m.book.cancelAndGet m.pool.storage id with
  | (_, _, none) => (m, false)
  | (book, st, some o) =>
    let pool : Pool := { m.pool with storage := st }
    ({ book, pool := (pool.modify o fun o => { o with status := .cancelled }).release o }, true)

/-- What `cancel_all` does to each order it visits. -/
def retire (o : Slot) (pool : Pool) : Pool :=
  (pool.modify o fun o => { o with status := .cancelled }).release o

/-- Drain the book, and give each order visited back to the pool. -/
def cancelAll (m : Matcher) : Matcher :=
  let (book, pool) := m.book.clearAndDrain retire m.pool
  { book, pool }

end Matcher

/-- Whether `submit` has left the order in the book, told from its fields afterwards. -/
def OrderData.rests (o : OrderData) : Bool :=
  !o.isTerminal && !(o.type == .market || o.tif == .ioc)

end Ordbk
