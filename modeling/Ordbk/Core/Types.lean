import Mathlib.Data.UInt

/-!
# Core/Types — prices, quantities, enumerations and the order record

The strong integer types of `core/types.hpp` and the records of `orderbook/order.hpp` and
`orderbook/trade.hpp`.  Prices are only ever compared, so `Price` is `Int`; quantities are added and
subtracted modulo `2^64`, so `Quantity` is `UInt64` and every wrap is visible.

An `enum class` over a byte can hold any byte, and the gateway casts raw message bytes into three of
them.  `Side`, `OrderType` and `TimeInForce` therefore carry a constructor `other` for the bytes no
enumerator declares; the code's `else` branches see those values too.
-/

namespace Ordbk

/-- Integer ticks. -/
abbrev Price := Int

/-- Unsigned 64-bit; `+` and `-` wrap. -/
abbrev Quantity := UInt64

abbrev OrderId := UInt64

abbrev InstrumentId := UInt32

abbrev ClientId := UInt32

abbrev Timestamp := Int

/-- The smaller of two quantities. -/
def qtyMin (a b : Quantity) : Quantity := if a < b then a else b

/-- Buy or sell. -/
inductive Side
  | buy
  | sell
  | other (byte : UInt8)
  deriving DecidableEq, Repr

inductive OrderType
  | limit
  | market
  | other (byte : UInt8)
  deriving DecidableEq, Repr

inductive TimeInForce
  | gtc
  | ioc
  | fok
  | day
  | other (byte : UInt8)
  deriving DecidableEq, Repr

/-- How far an order has come. -/
inductive OrderStatus
  | new
  | partiallyFilled
  | filled
  | cancelled
  | rejected
  deriving DecidableEq, Repr

/-- `static_cast<Side>` of a raw byte. -/
def Side.ofByte (b : UInt8) : Side := if b = 0 then buy else if b = 1 then sell else other b

/-- `static_cast<OrderType>` of a raw byte. -/
def OrderType.ofByte (b : UInt8) : OrderType :=
  if b = 0 then limit else if b = 1 then market else other b

/-- `static_cast<TimeInForce>` of a raw byte. -/
def TimeInForce.ofByte (b : UInt8) : TimeInForce :=
  if b = 0 then gtc else if b = 1 then ioc else if b = 2 then fok else if b = 3 then day
  else other b

/-- The underlying byte of a status. -/
def OrderStatus.toByte : OrderStatus → UInt8
  | new => 0
  | partiallyFilled => 1
  | filled => 2
  | cancelled => 3
  | rejected => 4

/-- A value named by an enumerator. -/
def Side.Declared (s : Side) : Prop := s = buy ∨ s = sell

def OrderType.Declared (t : OrderType) : Prop := t = limit ∨ t = market

def TimeInForce.Declared (t : TimeInForce) : Prop := t = gtc ∨ t = ioc ∨ t = fok ∨ t = day

instance (s : Side) : Decidable s.Declared := inferInstanceAs (Decidable (_ ∨ _))

instance (t : OrderType) : Decidable t.Declared := inferInstanceAs (Decidable (_ ∨ _))

instance (t : TimeInForce) : Decidable t.Declared := inferInstanceAs (Decidable (_ ∨ _))

/-- `opposite`: anything but `Buy` is answered by `Buy`. -/
def opposite (s : Side) : Side := if s = .buy then .sell else .buy

/-- An `Order*`: a slot of the pool. -/
abbrev Slot := Nat

/-- The fields of an order that are not list links. -/
structure OrderData where
  id : OrderId := 0
  limitPrice : Price := 0
  initialQty : Quantity := 0
  filledQty : Quantity := 0
  instrument : InstrumentId := 0
  client : ClientId := 0
  status : OrderStatus := .new
  side : Side := .buy
  type : OrderType := .limit
  tif : TimeInForce := .gtc
  ts : Timestamp := 0
  deriving DecidableEq, Repr

/-- The core order record: its data, and the intrusive links used while it rests. -/
structure Order extends OrderData where
  /-- The order before it at its price, if it is at rest. -/
  levelPrev : Option Slot := none
  /-- And the one behind it. -/
  levelNext : Option Slot := none
  deriving DecidableEq, Repr

namespace OrderData

/-- Unfilled quantity; wraps when the order is overfilled. -/
def remaining (o : OrderData) : Quantity := o.initialQty - o.filledQty

/-- Compared, not subtracted. -/
def isFullyFilled (o : OrderData) : Bool := o.filledQty == o.initialQty

/-- Nothing more happens to the order. -/
def isTerminal (o : OrderData) : Bool :=
  o.status == .filled || o.status == .cancelled || o.status == .rejected

end OrderData

/-- One execution. -/
structure Trade where
  makerId : OrderId
  takerId : OrderId
  instrument : InstrumentId
  price : Price
  quantity : Quantity
  ts : Timestamp
  deriving DecidableEq, Repr

end Ordbk
