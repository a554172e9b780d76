import Ordbk.Core.Types
import Mathlib.Data.UInt

/-!
# Protocol/Codec — the messages and their bytes

The wire format, little-endian throughout: `protocol.hpp`, `messages.hpp` and `codec.cpp`.  A buffer
is a list of bytes; a `BufferReader` is the part of it not yet read, a `BufferWriter` the part
already written together with the size it must not exceed.  Both fail without a trace, so a read or
a write is an `Option`.
-/

namespace Ordbk

abbrev Byte := UInt8

/-- The only version there is. -/
def kProtocolVersion : Byte := 1

/-- The header has a fixed size; what follows it is the body. -/
def kHeaderSize : ℕ := 8

/-- No body is longer, whatever its header says. -/
def kMaxBodySize : ℕ := 4096

/-- A message type; the cast from a raw byte may name none of them. -/
inductive MsgType
  | logon
  | logout
  | heartbeat
  | newOrder
  | cancelOrder
  | orderAck
  | orderReject
  | fill
  | cancelled
  | other (byte : Byte)
  deriving DecidableEq, Repr

namespace MsgType

def toByte : MsgType → Byte
  | logon => 0x01
  | logout => 0x02
  | heartbeat => 0x03
  | newOrder => 0x10
  | cancelOrder => 0x11
  | orderAck => 0x20
  | orderReject => 0x21
  | fill => 0x22
  | cancelled => 0x23
  | other b => b

def ofByte (b : Byte) : MsgType :=
  if b = 0x01 then logon
  else if b = 0x02 then logout
  else if b = 0x03 then heartbeat
  else if b = 0x10 then newOrder
  else if b = 0x11 then cancelOrder
  else if b = 0x20 then orderAck
  else if b = 0x21 then orderReject
  else if b = 0x22 then fill
  else if b = 0x23 then cancelled
  else other b

end MsgType

/-- Why an order is refused; a decoded reason may be any byte. -/
inductive RejectReason
  | unknown
  | unknownInstrument
  | invalidQuantity
  | invalidPrice
  | invalidTif
  | notLoggedOn
  | duplicateOrderId
  | insufficientLiquidity
  | other (byte : { b : Byte // 7 < b })
  deriving DecidableEq, Repr

namespace RejectReason

def toByte : RejectReason → Byte
  | unknown => 0
  | unknownInstrument => 1
  | invalidQuantity => 2
  | invalidPrice => 3
  | invalidTif => 4
  | notLoggedOn => 5
  | duplicateOrderId => 6
  | insufficientLiquidity => 7
  | other b => b

def ofByte (b : Byte) : RejectReason :=
  if h : 7 < b then other ⟨b, h⟩
  else if b = 0 then unknown
  else if b = 1 then unknownInstrument
  else if b = 2 then invalidQuantity
  else if b = 3 then invalidPrice
  else if b = 4 then invalidTif
  else if b = 5 then notLoggedOn
  else if b = 6 then duplicateOrderId
  else insufficientLiquidity

end RejectReason

/-- What stands before every body, in this order. -/
structure MessageHeader where
  protocolVersion : Byte
  msgType : MsgType
  /-- How many bytes follow the header. -/
  bodyLength : UInt16
  /-- Counted by each sender on its own, from 1. -/
  sequence : UInt32
  deriving DecidableEq, Repr

/-! ## The message bodies

One structure for each type of message, with the fields in the order they are written in.  What a
client sends comes first, then what the gateway answers. -/

/-- The first message of a session. -/
structure LogonMsg where
  clientId : ClientId
  deriving DecidableEq, Repr

/-- An order, its enumerations as raw bytes: nothing in the codec looks whether they are
declared. -/
structure NewOrderMsg where
  /-- The client's own name for the order. -/
  clientOrderId : UInt64
  instrumentId : UInt32
  /-- 0 = Buy, 1 = Sell -/
  side : Byte
  /-- 0 = Limit, 1 = Market -/
  orderType : Byte
  /-- 0 = GTC, 1 = IOC, 2 = FOK, 3 = Day -/
  tif : Byte
  /-- In ticks. -/
  price : Int64
  quantity : UInt64
  deriving DecidableEq, Repr

/-- A cancel, by the client's own name for the order. -/
structure CancelOrderMsg where
  clientOrderId : UInt64
  instrumentId : UInt32
  deriving DecidableEq, Repr

/-- The order was taken. -/
structure OrderAckMsg where
  clientOrderId : UInt64
  serverOrderId : UInt64
  deriving DecidableEq, Repr

/-- The order was refused. -/
structure OrderRejectMsg where
  clientOrderId : UInt64
  reason : RejectReason
  deriving DecidableEq, Repr

/-- The order was executed, in full or in part. -/
structure FillMsg where
  clientOrderId : UInt64
  serverOrderId : UInt64
  price : Int64
  quantity : UInt64
  /-- The underlying value of an `OrderStatus`. -/
  postStatus : Byte
  deriving DecidableEq, Repr

/-- The order was taken out of its book. -/
structure CancelledMsg where
  clientOrderId : UInt64
  deriving DecidableEq, Repr

/-- A body, with its type. -/
inductive MessageBody
  | logon (m : LogonMsg)
  | logout
  | heartbeat
  | newOrder (m : NewOrderMsg)
  | cancelOrder (m : CancelOrderMsg)
  | orderAck (m : OrderAckMsg)
  | orderReject (m : OrderRejectMsg)
  | fill (m : FillMsg)
  | cancelled (m : CancelledMsg)
  deriving DecidableEq, Repr

/-- A header and the body behind it. -/
structure DecodedMessage where
  header : MessageHeader
  body : MessageBody
  deriving DecidableEq, Repr

/-! ## Writing

A buffer of fixed size is filled from the front; a write that does not fit in fails. -/

/-- The bytes written so far into a buffer of `size` bytes; `pos_` is their number. -/
structure BufferWriter where
  /-- How much fits. -/
  size : ℕ
  /-- What was written so far. -/
  buf : List Byte := []

namespace BufferWriter

/-- How far the writer has come. -/
def pos (w : BufferWriter) : ℕ := w.buf.length

/-- The guard all the `write_` functions share, then their bytes. -/
def write (w : BufferWriter) (bytes : List Byte) : Option BufferWriter :=
  if w.pos + bytes.length > w.size then none else some { w with buf := w.buf ++ bytes }

def writeU8 (w : BufferWriter) (v : UInt8) : Option BufferWriter := w.write [v]

/-- The low byte first, here and in the wider words. -/
def writeU16 (w : BufferWriter) (v : UInt16) : Option BufferWriter :=
  w.write [(v &&& 0xFF).toUInt8, ((v >>> 8) &&& 0xFF).toUInt8]

def writeU32 (w : BufferWriter) (v : UInt32) : Option BufferWriter :=
  w.write ((List.range 4).map fun i => ((v >>> (8 * UInt32.ofNat i)) &&& 0xFF).toUInt8)

def writeU64 (w : BufferWriter) (v : UInt64) : Option BufferWriter :=
  w.write ((List.range 8).map fun i => ((v >>> (8 * UInt64.ofNat i)) &&& 0xFF).toUInt8)

def writeI64 (w : BufferWriter) (v : Int64) : Option BufferWriter := w.writeU64 v.toUInt64

end BufferWriter

/-- The four fields, then nothing: a header is eight bytes. -/
def encodeHeader (w : BufferWriter) (h : MessageHeader) : Option BufferWriter := do
  let w ← w.writeU8 h.protocolVersion
  let w ← w.writeU8 h.msgType.toByte
  let w ← w.writeU16 h.bodyLength
  w.writeU32 h.sequence

/-- The fields of each body in their order; a new order has a padding byte, which is 0. -/
def encodeBody (w : BufferWriter) : MessageBody → Option BufferWriter
  | .logon m => w.writeU32 m.clientId
  | .logout => some w
  | .heartbeat => some w
  | .newOrder m => do
    let w ← w.writeU64 m.clientOrderId
    let w ← w.writeU32 m.instrumentId
    let w ← w.writeU8 m.side
    let w ← w.writeU8 m.orderType
    let w ← w.writeU8 m.tif
    let w ← w.writeU8 0 -- padding to 8-byte alignment
    let w ← w.writeI64 m.price
    w.writeU64 m.quantity
  | .cancelOrder m => do
    let w ← w.writeU64 m.clientOrderId
    w.writeU32 m.instrumentId
  | .orderAck m => do
    let w ← w.writeU64 m.clientOrderId
    w.writeU64 m.serverOrderId
  | .orderReject m => do
    let w ← w.writeU64 m.clientOrderId
    w.writeU8 m.reason.toByte
  | .fill m => do
    let w ← w.writeU64 m.clientOrderId
    let w ← w.writeU64 m.serverOrderId
    let w ← w.writeI64 m.price
    let w ← w.writeU64 m.quantity
    w.writeU8 m.postStatus
  | .cancelled m => w.writeU64 m.clientOrderId

/-- The type that goes with a body. -/
def typeOf : MessageBody → MsgType
  | .logon _ => .logon
  | .logout => .logout
  | .heartbeat => .heartbeat
  | .newOrder _ => .newOrder
  | .cancelOrder _ => .cancelOrder
  | .orderAck _ => .orderAck
  | .orderReject _ => .orderReject
  | .fill _ => .fill
  | .cancelled _ => .cancelled

/-- `encode` into a buffer of the given size: the bytes written, none of them on overflow. -/
def encodeInto (size : ℕ) (seq : UInt32) (body : MessageBody) : List Byte :=
  if size < kHeaderSize then []
  else match encodeBody ⟨kMaxBodySize, []⟩ body with
    | none => []
    | some bw =>
      let bodyLen := bw.pos
      if size < kHeaderSize + bodyLen then []
      else if bodyLen > kMaxBodySize then []
      else
        let h : MessageHeader := ⟨kProtocolVersion, typeOf body, UInt16.ofNat bodyLen, seq⟩
        match encodeHeader ⟨size, []⟩ h with
        | none => []
        | some hw => hw.buf ++ bw.buf

/-- `encode` into a fresh vector. -/
def encode (seq : UInt32) (body : MessageBody) : List Byte :=
  encodeInto (kHeaderSize + kMaxBodySize) seq body

/-! ## Reading

A word is put together from its bytes in a loop; the header and the bodies are read field by
field. -/

/-- A read: the value and the rest of the buffer, or nothing if the buffer is too short. -/
abbrev Reader (α : Type) := StateT (List Byte) Option α

def readU8 : Reader UInt8 := fun bytes =>
  match bytes with
  | [] => none
  | b :: bytes => some (b, bytes)

def readU16 : Reader UInt16 := fun bytes =>
  match bytes with
  | a :: b :: bytes => some (a.toUInt16 ||| (b.toUInt16 <<< 8), bytes)
  | _ => none

/-- The loop `v |= byte << (8 * i)` over the bytes of a word, from byte `i` on. -/
def orBytes32 (i : ℕ) (v : UInt32) : List Byte → UInt32
  | [] => v
  | b :: bytes => orBytes32 (i + 1) (v ||| (b.toUInt32 <<< (8 * UInt32.ofNat i))) bytes

def orBytes64 (i : ℕ) (v : UInt64) : List Byte → UInt64
  | [] => v
  | b :: bytes => orBytes64 (i + 1) (v ||| (b.toUInt64 <<< (8 * UInt64.ofNat i))) bytes

def readU32 : Reader UInt32 := fun bytes =>
  if 4 > bytes.length then none else some (orBytes32 0 0 (bytes.take 4), bytes.drop 4)

def readU64 : Reader UInt64 := fun bytes =>
  if 8 > bytes.length then none else some (orBytes64 0 0 (bytes.take 8), bytes.drop 8)

/-- A signed word is read as an unsigned one and cast. -/
def readI64 : Reader Int64 := do
  let u ← readU64
  return u.toInt64

/-- The version is read like any other byte: who checks it is the framer. -/
def decodeHeader : Reader MessageHeader := do
  let protocolVersion ← readU8
  let mt ← readU8
  let bodyLength ← readU16
  let sequence ← readU32
  return ⟨protocolVersion, .ofByte mt, bodyLength, sequence⟩

/-- The fields of a body in the order they are read; an undeclared type has none. -/
def readBody : MsgType → Reader MessageBody
  | .logon => do
    let clientId ← readU32
    return .logon ⟨clientId⟩
  | .logout => return .logout
  | .heartbeat => return .heartbeat
  | .newOrder => do
    let clientOrderId ← readU64
    let instrumentId ← readU32
    let side ← readU8
    let orderType ← readU8
    let tif ← readU8
    let _pad ← readU8
    let price ← readI64
    let quantity ← readU64
    return .newOrder ⟨clientOrderId, instrumentId, side, orderType, tif, price, quantity⟩
  | .cancelOrder => do
    let clientOrderId ← readU64
    let instrumentId ← readU32
    return .cancelOrder ⟨clientOrderId, instrumentId⟩
  | .orderAck => do
    let clientOrderId ← readU64
    let serverOrderId ← readU64
    return .orderAck ⟨clientOrderId, serverOrderId⟩
  | .orderReject => do
    let clientOrderId ← readU64
    let reason ← readU8
    return .orderReject ⟨clientOrderId, .ofByte reason⟩
  | .fill => do
    let clientOrderId ← readU64
    let serverOrderId ← readU64
    let price ← readI64
    let quantity ← readU64
    let postStatus ← readU8
    return .fill ⟨clientOrderId, serverOrderId, price, quantity, postStatus⟩
  | .cancelled => do
    let clientOrderId ← readU64
    return .cancelled ⟨clientOrderId⟩
  | .other _ => failure

/-- What is left of the body after its fields is not looked at. -/
def decodeBody (header : MessageHeader) (body : List Byte) : Option MessageBody :=
  (readBody header.msgType).run' body

end Ordbk
