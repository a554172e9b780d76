import Ordbk.Lib.OrdMap
import Ordbk.Utils.Pool
import Mathlib.Data.Finmap

/-!
# Orderbook/Book — one instrument's resting orders

Two ordered maps of price levels, opposite comparators, and an index from order id to the place the
order rests at.  The index is a hash map, so its `emplace` keeps an entry that is already there.

The source writes every operation twice, once per side, over maps of different comparator types;
the common text is one definition over an arbitrary comparator (`pushLevel`, `eraseLevel`,
`popLevel`, `qtyAt`), used once for the bids and once for the asks.
-/

namespace Ordbk

/-- `unordered_map::emplace`: an existing entry wins. -/
def emplace {K V : Type} [DecidableEq K] (m : Finmap fun _ : K => V) (k : K) (v : V) :
    Finmap fun _ : K => V := if (m.lookup k).isSome then m else m.insert k v

/-- Where the index says an order rests. -/
structure Locator where
  /-- The side, -/
  side : Side
  /-- the level on it, -/
  price : Price
  /-- and the slot. -/
  order : Slot
  deriving DecidableEq, Repr

/-- Highest price first. -/
abbrev BidLevels := OrdMap (fun a b : Price => a > b) PriceLevel

/-- Lowest price first. -/
abbrev AskLevels := OrdMap (fun a b : Price => a < b) PriceLevel

/-- The resting orders of one instrument. -/
structure OrderBook where
  instrument : InstrumentId
  /-- The buy levels, the highest price first. -/
  bids : BidLevels := .empty
  /-- The sell levels, the lowest first. -/
  asks : AskLevels := .empty
  /-- `order_map_`, from ids to where the orders rest. -/
  orderMap : Finmap fun _ : OrderId => Locator := ∅

/-! ## One side

A map of levels is iterated best price first on both sides, so whatever is said of the first level
is said of the best price. -/

section Levels

variable {lt : Price → Price → Prop} [DecidableRel lt] [IsStrictTotalOrder Price lt]

/-- `levels[price].push_back(order)`: the level is created if it is not there. -/
def pushLevel (levels : OrdMap lt PriceLevel) (st : Store) (price : Price) (order : Slot) :
    OrdMap lt PriceLevel × Store :=
  let (level, st) := ((levels.find? price).getD {}).pushBack st order
  (levels.insertOrAssign price level, st)

/-- Write a level back, dropping it from the map when it has become empty. -/
def putLevel (levels : OrdMap lt PriceLevel) (price : Price) (level : PriceLevel) :
    OrdMap lt PriceLevel :=
  if level.empty then levels.erase price else levels.insertOrAssign price level

/-- `levels.find(price)->second.erase(order)`, then drop the level if it is empty. -/
def eraseLevel (levels : OrdMap lt PriceLevel) (st : Store) (price : Price) (order : Slot) :
    OrdMap lt PriceLevel × Store :=
  match levels.find? price with
  | none => (levels, st) -- the source dereferences `end()`; a locator always names a level
  | some level =>
    let (level, st) := level.erase st order
    (putLevel levels price level, st)

/-- `levels.begin()->second.pop_front()`, then drop the level if it is empty. -/
def popLevel (levels : OrdMap lt PriceLevel) (st : Store) : OrdMap lt PriceLevel × Store :=
  match levels.begin? with
  | none => (levels, st) -- the source dereferences `begin()` of a map that is never empty here
  | some (price, level) =>
    let (level, st) := level.popFront st
    (putLevel levels price level, st)

/-- The front of the first level. -/
def topOf (levels : OrdMap lt PriceLevel) : Option Slot :=
  match levels.begin? with
  | none => none
  | some (_, level) => level.front

/-- The sum of the remaining quantities at one price, modulo `2^64`. -/
def qtyAt (levels : OrdMap lt PriceLevel) (pool : Pool) (p : Price) : Quantity :=
  match levels.find? p with
  | none => 0
  | some level =>
    (level.slots pool.storage (pool.capacity + 1)).foldl
      (fun total o => total + (pool.storage o).remaining) 0

end Levels

namespace OrderBook

/-- The order goes to the end of its level, and into the index unless its id is there. -/
def addResting (b : OrderBook) (st : Store) (order : Slot) : OrderBook × Store :=
  let o := st order
  if o.side = .buy then
    let (bids, st) := pushLevel b.bids st o.limitPrice order
    ({ b with bids, orderMap := emplace b.orderMap o.id ⟨.buy, o.limitPrice, order⟩ }, st)
  else
    let (asks, st) := pushLevel b.asks st o.limitPrice order
    ({ b with asks, orderMap := emplace b.orderMap o.id ⟨.sell, o.limitPrice, order⟩ }, st)

/-- Where the index says the order is, it is taken out. -/
def cancelAndGet (b : OrderBook) (st : Store) (id : OrderId) :
    OrderBook × Store × Option Slot :=
  match b.orderMap.lookup id with
  | none => (b, st, none)
  | some loc =>
    let b := { b with orderMap := b.orderMap.erase id }
    if loc.side = .buy then
      let (bids, st) := eraseLevel b.bids st loc.price loc.order
      ({ b with bids }, st, some loc.order)
    else
      let (asks, st) := eraseLevel b.asks st loc.price loc.order
      ({ b with asks }, st, some loc.order)

def find (b : OrderBook) (id : OrderId) : Option Slot := (b.orderMap.lookup id).map (·.order)

/-- The price of the first level, here and below. -/
def bestBid (b : OrderBook) : Option Price := b.bids.begin?.map (·.1)

def bestAsk (b : OrderBook) : Option Price := b.asks.begin?.map (·.1)

def bidQtyAt (b : OrderBook) (pool : Pool) (p : Price) : Quantity := qtyAt b.bids pool p

def askQtyAt (b : OrderBook) (pool : Pool) (p : Price) : Quantity := qtyAt b.asks pool p

def orderCount (b : OrderBook) : ℕ := b.orderMap.keys.card

/-- The orders of one side: `for (auto& [price, level] : levels) for (Order* o : level)`. -/
def sideSlots (b : OrderBook) (pool : Pool) (side : Side) : List Slot :=
  if side = .buy then b.bids.entries.flatMap fun x => x.2.slots pool.storage (pool.capacity + 1)
  else b.asks.entries.flatMap fun x => x.2.slots pool.storage (pool.capacity + 1)

/-- The orders of both sides, bids first. -/
def restingSlots (b : OrderBook) (pool : Pool) : List Slot :=
  b.sideSlots pool .buy ++ b.sideSlots pool .sell

/-- The oldest order at the best price. -/
def peekTop (b : OrderBook) (side : Side) : Option Slot :=
  if side = .buy then topOf b.bids else topOf b.asks

/-- And the same order taken out. -/
def popTop (b : OrderBook) (st : Store) (side : Side) : OrderBook × Store :=
  -- the index entry of the front order's id goes first, whichever order it points to
  let index := match b.peekTop side with
    | none => b.orderMap
    | some o => b.orderMap.erase (st o).id
  if side = .buy then
    let (bids, st) := popLevel b.bids st
    ({ b with bids, orderMap := index }, st)
  else
    let (asks, st) := popLevel b.asks st
    ({ b with asks, orderMap := index }, st)

/-- The inner loop of `clear_and_drain`.  The links of the visited order are nulled *before* the
iterator steps, and the step reads them after the callback has run. -/
def drainLevel (callback : Slot → Pool → Pool) : ℕ → Option Slot → Pool → Pool
  | 0, _, pool => pool
  | _ + 1, none, pool => pool
  | fuel + 1, some o, pool =>
    let st := (pool.storage.setNext (some o) none).setPrev (some o) none
    let pool := callback o { pool with storage := st }
    drainLevel callback fuel (pool.storage o).levelNext pool

def drainLevels {lt : Price → Price → Prop} (callback : Slot → Pool → Pool)
    (levels : OrdMap lt PriceLevel) (pool : Pool) : Pool :=
  levels.entries.foldl
    (fun pool e => drainLevel callback (pool.capacity + 1) e.2.head pool) pool

/-- Visit the orders level by level, then start anew. -/
def clearAndDrain (b : OrderBook) (callback : Slot → Pool → Pool) (pool : Pool) :
    OrderBook × Pool :=
  let pool := drainLevels callback b.bids pool
  let pool := drainLevels callback b.asks pool
  ({ instrument := b.instrument }, pool)

end OrderBook

end Ordbk
