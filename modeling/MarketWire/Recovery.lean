import MarketWire.MoldUdp64
import MarketWire.Library.SortedMap

/-! The recovery engine: it releases messages in sequence, buffers what is ahead and asks
for the first hole. -/
namespace MarketWire
open Library

structure GapRequest where
  first : Sequence
  count : UInt16
  deriving DecidableEq, Repr

structure Result where
  ready : List MoldMessage := []
  request : Option GapRequest := none
  duplicateOrStale : Bool := false
  endOfSession : Bool := false
  deriving DecidableEq, Repr

abbrev Pending := SortedMap Sequence Bytes (fun a b => a<b)

structure RecoveryEngine where
  expected : Sequence
  pending : Pending := SortedMap.empty
  session : Option Session := none
  lastRequestedFirst : Sequence := 0
  lastRequestedLast : Sequence := 0
  deriving DecidableEq

/-- How a call ends early: an exception, or a second erase through an iterator whose entry
is gone, which is undefined. -/
inductive Fault where
  | threw (e : Thrown)
  | erasedTwice
  deriving DecidableEq, Repr

namespace RecoveryEngine
open MoldUdp64

def exhausted : Thrown := .decodeError "MoldUDP64 sequence number exhausted"

def maybeRequest (e : RecoveryEngine) (r : Result) (observedNext : Sequence) :
    RecoveryEngine×Result :=
  if observedNext≤e.expected then (e,r)
  else
    let lastMissing := observedNext-1
    if e.lastRequestedFirst=e.expected ∧ e.lastRequestedLast≥lastMissing then (e,r)
    else
      let gap := lastMissing-e.expected+1
      let count := (if gap<0xFFFE then gap else 0xFFFE).toUInt16
      ({ e with
          lastRequestedFirst := e.expected
          lastRequestedLast := e.expected+count.toUInt64-1 },
        { r with request := some ⟨e.expected,count⟩ })

/-- The loop of `drain`; it runs at most once per buffered message. -/
def drainLoop : Nat → RecoveryEngine → Result → RecoveryEngine×Result×Option Fault
  | 0, e, r => (e,r,none)
  | n+1, e, r =>
    match e.pending.find? e.expected with
    | none => (e,r,none)
    | some payload =>
      let r := { r with ready := r.ready++[⟨e.expected,payload⟩] }
      let e := { e with pending := e.pending.erase e.expected }
      if e.expected=sequenceMax then (e,r,some .erasedTwice)
      else drainLoop n { e with expected := e.expected+1 } r

def drain (e : RecoveryEngine) (r : Result) : RecoveryEngine×Result×Option Fault :=
  match drainLoop e.pending.size e r with
  | (e,r,some fault) => (e,r,some fault)
  | (e,r,none) =>
    if e.lastRequestedLast<e.expected then
      ({ e with lastRequestedFirst := 0, lastRequestedLast := 0 },r,none)
    else (e,r,none)

/-- One message of a data packet. -/
def ingestMessage (e : RecoveryEngine) (r : Result) (message : MoldMessage) :
    RecoveryEngine×Result×Option Fault :=
  if message.sequence<e.expected then (e,{ r with duplicateOrStale := true },none)
  else if message.sequence=e.expected then
    let r := { r with ready := r.ready++[message] }
    if e.expected=sequenceMax then (e,r,some (.threw exhausted))
    else drain { e with expected := e.expected+1 } r
  else
    ({ e with pending := (e.pending.tryEmplace message.sequence message.payload).1 },r,none)

def ingestMessages (e : RecoveryEngine) (r : Result) :
    List MoldMessage → RecoveryEngine×Result×Option Fault
  | [] => (e,r,none)
  | message::rest =>
    match e.ingestMessage r message with
    | (e,r,some fault) => (e,r,some fault)
    | (e,r,none) => ingestMessages e r rest

def ingest (e : RecoveryEngine) (packet : MoldDownstreamPacket) :
    RecoveryEngine×Except Fault Result :=
  let e := if e.session.isNone then { e with session := some packet.session } else e
  if e.session≠some packet.session then
    (e,.error (.threw (.decodeError "MoldUDP64 session changed unexpectedly")))
  else if packet.heartbeat || packet.endOfSession then
    let (e,r) := e.maybeRequest {} packet.firstSequence
    (e,.ok { r with endOfSession := packet.endOfSession })
  else
    match e.ingestMessages {} packet.messages with
    | (e,_,some fault) => (e,.error fault)
    | (e,r,none) =>
      match e.pending.first? with
      | none => (e,.ok r)
      | some entry =>
        let (e,r) := e.maybeRequest r entry.1
        (e,.ok r)

/-- Packets one after another; the engine and everything released, or nothing when a call
does not return. -/
def ingestAll (e : RecoveryEngine) :
    List MoldDownstreamPacket → Option (RecoveryEngine×List MoldMessage)
  | [] => some (e,[])
  | packet::rest =>
    match e.ingest packet with
    | (_,.error _) => none
    | (e,.ok r) => (ingestAll e rest).map fun out => (out.1,r.ready++out.2)

/-! What the loop, one message and a list of messages can do. -/

/-- A turn of the loop stops, fails at the last number or takes the expected message. -/
theorem drainLoop_cases (n : Nat) (e : RecoveryEngine) (r : Result) :
    (e.pending.find? e.expected=none ∧ drainLoop (n+1) e r=(e,r,none)) ∨
    (∃ payload, e.pending.find? e.expected=some payload ∧ e.expected=sequenceMax ∧
      drainLoop (n+1) e r=({ e with pending := e.pending.erase e.expected },
        { r with ready := r.ready++[⟨e.expected,payload⟩] },some .erasedTwice)) ∨
    ∃ payload, e.pending.find? e.expected=some payload ∧ e.expected≠sequenceMax ∧
      drainLoop (n+1) e r=drainLoop n
        { e with pending := e.pending.erase e.expected, expected := e.expected+1 }
        { r with ready := r.ready++[⟨e.expected,payload⟩] } := by
  rw [drainLoop]
  cases hf : e.pending.find? e.expected with
  | none => exact .inl ⟨rfl,rfl⟩
  | some payload =>
    dsimp only
    by_cases hmax : e.expected=sequenceMax
    · exact .inr (.inl ⟨payload,rfl,hmax,if_pos hmax⟩)
    · exact .inr (.inr ⟨payload,rfl,hmax,if_neg hmax⟩)

/-- Behind the loop the memory of a request is kept or cleared. -/
theorem drain_cases {e e' : RecoveryEngine} {r r' : Result} {fault : Option Fault}
    (h : e.drain r=(e',r',fault)) :
    ∃ e1, drainLoop e.pending.size e r=(e1,r',fault) ∧
      (e'=e1 ∨ fault=none ∧ e'={ e1 with lastRequestedFirst := 0, lastRequestedLast := 0 }) := by
  unfold drain at h
  rcases hl : drainLoop e.pending.size e r with ⟨e1,r1,_ | fault1⟩
  · rw [hl] at h
    dsimp only at h
    split_ifs at h
    · cases h
      exact ⟨e1,rfl,.inr ⟨rfl,rfl⟩⟩
    · cases h
      exact ⟨_,rfl,.inl rfl⟩
  · rw [hl] at h
    cases h
    exact ⟨_,rfl,.inl rfl⟩

/-- A message is stale, the last number, the expected one or ahead. -/
theorem ingestMessage_cases (e : RecoveryEngine) (r : Result) (m : MoldMessage) :
    (m.sequence<e.expected ∧
      e.ingestMessage r m=(e,{ r with duplicateOrStale := true },none)) ∨
    (m.sequence=e.expected ∧ e.expected=sequenceMax ∧
      e.ingestMessage r m=(e,{ r with ready := r.ready++[m] },some (.threw exhausted))) ∨
    (m.sequence=e.expected ∧ e.expected≠sequenceMax ∧
      e.ingestMessage r m=
        drain { e with expected := e.expected+1 } { r with ready := r.ready++[m] }) ∨
    (e.expected < m.sequence ∧ e.ingestMessage r m=
      ({ e with pending := (e.pending.tryEmplace m.sequence m.payload).1 },r,none)) := by
  unfold ingestMessage
  dsimp only
  split_ifs with hlt heq hmax
  · exact .inl ⟨hlt,rfl⟩
  · exact .inr (.inl ⟨heq,hmax,rfl⟩)
  · exact .inr (.inr (.inl ⟨heq,hmax,rfl⟩))
  · exact .inr (.inr (.inr ⟨UInt64.lt_of_le_of_ne (UInt64.not_lt.mp hlt) (Ne.symm heq),rfl⟩))

/-- The messages behind the first are taken only when it does not fail. -/
theorem ingestMessages_cons {e e' : RecoveryEngine} {r r' : Result} {m : MoldMessage}
    {rest : List MoldMessage} {fault : Option Fault}
    (h : e.ingestMessages r (m::rest)=(e',r',fault)) :
    (∃ e1 r1, e.ingestMessage r m=(e1,r1,none) ∧ e1.ingestMessages r1 rest=(e',r',fault)) ∨
      fault≠none ∧ e.ingestMessage r m=(e',r',fault) := by
  rw [ingestMessages] at h
  rcases hm : e.ingestMessage r m with ⟨e1,r1,_ | fault1⟩
  · rw [hm] at h
    exact .inl ⟨e1,r1,rfl,h⟩
  · rw [hm] at h
    cases h
    exact .inr ⟨by simp,rfl⟩

end RecoveryEngine
end MarketWire
