import MarketWire.GeneratedViews
import MarketWire.ItchSchema

/-! The two ITCH decoders: the one over the generated views and the handwritten reference, which
reads at offsets of its own. -/
namespace MarketWire
open Protocolc

/-- `meta(...)`, its arguments read from left to right. -/
def eventMeta (locate tracking : Except Thrown UInt16) (ts : Except Thrown UInt64) :
    Except Thrown EventMeta := do
  return ⟨← locate,← tracking,← ts⟩

def sideFromChar (c : UInt8) : Except Thrown Side :=
  if c = 'B'.toUInt8 then .ok .buy
  else if c = 'S'.toUInt8 then .ok .sell
  else .error (.decodeError "invalid ITCH side")

namespace ItchDecoder

def validate (bytes : Bytes) : Except Thrown Unit :=
  match bytes with
  | [] => .error (.decodeError "empty ITCH message")
  | type::_ =>
    match Itch50.protocol.messageSize type with
    | none => .error (.decodeError "unsupported ITCH message type")
    | some expected =>
      if bytes.length=expected.toNat then .ok ()
      else .error (.decodeError "ITCH message length mismatch")

def decodeAddOrder (v : View Itch50.addOrder) : Except Thrown MarketEvent := do
  let m ← eventMeta (v.get "stock_locate" .uint16) (v.get "tracking_number" .uint16)
    (v.get "timestamp" .uint64)
  let id ← v.get "order_reference" .uint64
  let stock ← v.get "stock" .stringView
  let side ← sideFromChar (← v.get "side" .char)
  let shares ← v.get "shares" .uint32
  let price ← v.get "price" .uint32
  return .add ⟨m,⟨id,Symbol.fromPadded stock,side,shares,price⟩⟩

def decodeAddOrderWithMpid (v : View Itch50.addOrderWithMpid) : Except Thrown MarketEvent := do
  let m ← eventMeta (v.get "stock_locate" .uint16) (v.get "tracking_number" .uint16)
    (v.get "timestamp" .uint64)
  let id ← v.get "order_reference" .uint64
  let stock ← v.get "stock" .stringView
  let side ← sideFromChar (← v.get "side" .char)
  let shares ← v.get "shares" .uint32
  let price ← v.get "price" .uint32
  return .add ⟨m,⟨id,Symbol.fromPadded stock,side,shares,price⟩⟩

def decodeOrderExecuted (v : View Itch50.orderExecuted) : Except Thrown MarketEvent := do
  let m ← eventMeta (v.get "stock_locate" .uint16) (v.get "tracking_number" .uint16)
    (v.get "timestamp" .uint64)
  let id ← v.get "order_reference" .uint64
  let shares ← v.get "executed_shares" .uint32
  let matchNumber ← v.get "match_number" .uint64
  return .execute ⟨m,id,shares,matchNumber,false,0,true⟩

def decodeOrderExecutedWithPrice (v : View Itch50.orderExecutedWithPrice) : Except Thrown MarketEvent := do
  let m ← eventMeta (v.get "stock_locate" .uint16) (v.get "tracking_number" .uint16)
    (v.get "timestamp" .uint64)
  let id ← v.get "order_reference" .uint64
  let shares ← v.get "executed_shares" .uint32
  let matchNumber ← v.get "match_number" .uint64
  let price ← v.get "execution_price" .uint32
  let printable ← v.get "printable" .char
  return .execute ⟨m,id,shares,matchNumber,true,price,printable = 'Y'.toUInt8⟩

def decodeOrderCancel (v : View Itch50.orderCancel) : Except Thrown MarketEvent := do
  let m ← eventMeta (v.get "stock_locate" .uint16) (v.get "tracking_number" .uint16)
    (v.get "timestamp" .uint64)
  let id ← v.get "order_reference" .uint64
  let shares ← v.get "canceled_shares" .uint32
  return .cancel ⟨m,id,shares⟩

def decodeOrderDelete (v : View Itch50.orderDelete) : Except Thrown MarketEvent := do
  let m ← eventMeta (v.get "stock_locate" .uint16) (v.get "tracking_number" .uint16)
    (v.get "timestamp" .uint64)
  let id ← v.get "order_reference" .uint64
  return .delete ⟨m,id⟩

def decodeOrderReplace (v : View Itch50.orderReplace) : Except Thrown MarketEvent := do
  let m ← eventMeta (v.get "stock_locate" .uint16) (v.get "tracking_number" .uint16)
    (v.get "timestamp" .uint64)
  let old ← v.get "original_order_reference" .uint64
  let new ← v.get "new_order_reference" .uint64
  let shares ← v.get "shares" .uint32
  let price ← v.get "price" .uint32
  return .replace ⟨m,old,new,shares,price⟩

/-- A `switch` case: the view is constructed, then read. -/
def viewed (m : Message) (decode : View m → Except Thrown MarketEvent) (bytes : Bytes) :
    Except Thrown (Option MarketEvent) := do
  let v ← View.create m bytes
  return some (← decode v)

/-- The `switch` on the message type. -/
def decodeTyped (bytes : Bytes) : Char → Except Thrown (Option MarketEvent)
  | 'A' => viewed Itch50.addOrder decodeAddOrder bytes
  | 'F' => viewed Itch50.addOrderWithMpid decodeAddOrderWithMpid bytes
  | 'E' => viewed Itch50.orderExecuted decodeOrderExecuted bytes
  | 'C' => viewed Itch50.orderExecutedWithPrice decodeOrderExecutedWithPrice bytes
  | 'X' => viewed Itch50.orderCancel decodeOrderCancel bytes
  | 'D' => viewed Itch50.orderDelete decodeOrderDelete bytes
  | 'U' => viewed Itch50.orderReplace decodeOrderReplace bytes
  | _ => .ok none

def decodeBookEvent (bytes : Bytes) : Except Thrown (Option MarketEvent) := do
  validate bytes
  decodeTyped bytes (Char.ofUInt8 (bytes.headD 0))

end ItchDecoder

namespace ReferenceItchDecoder

def requireExact (bytes : Bytes) (size : Nat) (type : Char) : Except Thrown Unit :=
  if bytes.length≠size ∨ bytes=[] ∨ bytes.headD 0≠type.toUInt8 then
    .error (.decodeError "invalid ITCH message size/type")
  else .ok ()

def m (b : Bytes) : Except Thrown EventMeta := do
  return ⟨← readU16Be b 1,← readU16Be b 3,← readU48Be b 5⟩

/-! The events of the `switch` cases; 'A' and 'F' read the same offsets. -/

def addEvent (b : Bytes) : Except Thrown MarketEvent := do
  let m ← m b
  let id ← readU64Be b 11
  let stock ← readAsciiView b 24 8
  let side ← sideFromChar (← readChar b 19)
  let shares ← readU32Be b 20
  let price ← readU32Be b 32
  return .add ⟨m,⟨id,Symbol.fromPadded stock,side,shares,price⟩⟩

def executeEvent (b : Bytes) : Except Thrown MarketEvent := do
  let m ← m b
  let id ← readU64Be b 11
  let shares ← readU32Be b 19
  let matchNumber ← readU64Be b 23
  return .execute ⟨m,id,shares,matchNumber,false,0,true⟩

def executeWithPriceEvent (b : Bytes) : Except Thrown MarketEvent := do
  let m ← m b
  let id ← readU64Be b 11
  let shares ← readU32Be b 19
  let matchNumber ← readU64Be b 23
  let price ← readU32Be b 32
  let printable ← readChar b 31
  return .execute ⟨m,id,shares,matchNumber,true,price,printable = 'Y'.toUInt8⟩

def cancelEvent (b : Bytes) : Except Thrown MarketEvent := do
  let m ← m b
  let id ← readU64Be b 11
  let shares ← readU32Be b 19
  return .cancel ⟨m,id,shares⟩

def deleteEvent (b : Bytes) : Except Thrown MarketEvent := do
  let m ← m b
  let id ← readU64Be b 11
  return .delete ⟨m,id⟩

def replaceEvent (b : Bytes) : Except Thrown MarketEvent := do
  let m ← m b
  let old ← readU64Be b 11
  let new ← readU64Be b 19
  let shares ← readU32Be b 27
  let price ← readU32Be b 31
  return .replace ⟨m,old,new,shares,price⟩

def sized (b : Bytes) (size : Nat) (type : Char) (event : Except Thrown MarketEvent) :
    Except Thrown (Option MarketEvent) := do
  requireExact b size type
  return some (← event)

def decodeTyped (b : Bytes) : Char → Except Thrown (Option MarketEvent)
  | 'A' => sized b 36 'A' (addEvent b)
  | 'F' => sized b 40 'F' (addEvent b)
  | 'E' => sized b 31 'E' (executeEvent b)
  | 'C' => sized b 36 'C' (executeWithPriceEvent b)
  | 'X' => sized b 23 'X' (cancelEvent b)
  | 'D' => sized b 19 'D' (deleteEvent b)
  | 'U' => sized b 35 'U' (replaceEvent b)
  | _ => .ok none

def decodeBookEvent (b : Bytes) : Except Thrown (Option MarketEvent) :=
  match b with
  | [] => .error (.decodeError "empty ITCH message")
  | t::_ => decodeTyped b (Char.ofUInt8 t)

end ReferenceItchDecoder

end MarketWire
