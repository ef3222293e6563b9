import MarketWire.CaptureFile
import MarketWire.Pipeline
import Mathlib.Data.List.Chain

/-! Replaying a capture through the pipeline. Delays and step input are explicit, and the modes
differ in what they do before a callback only. A replay depends on a file only through the records
that can be read from it. -/
namespace MarketWire
open Library

inductive ReplayMode where
  | maxSpeed
  | realtime
  | step
  deriving DecidableEq, Repr

/-- What a replay consumes and leaves behind besides its callbacks. -/
structure Console where
  input : Bytes := []
  slept : List Int64 := []
  deriving DecidableEq, Repr

/-- Where a replay ended: normally with the number of packets, or by an exception. -/
structure Replayed (σ : Type) where
  state : σ
  console : Console
  outcome : Except Abort Nat

namespace ReplayEngine

/-- The delay before a record. `nanoseconds` has a signed 64-bit representation. -/
def delay (mode : ReplayMode) (prev : Option UInt64) (ns : UInt64) (io : Console) :
    Except Thrown Console :=
  match prev with
  | none => .ok io
  | some p =>
    if ns<p then .error (.runtimeError "capture timestamps are not monotonic")
    else
      let delta := ns-p
      if mode=.realtime ∧ delta≠0 then .ok { io with slept := io.slept++[delta.toInt64] }
      else .ok io

/-- The prompt before a record: `get()` returns the next character, or a negative number at
the end of the input, and `!` tests the number for zero. -/
def prompt (mode : ReplayMode) (io : Console) : Except Thrown Console :=
  if mode=.step then
    match io.input with
    | [] => .ok io
    | c::rest =>
      if c=0 then .error (.runtimeError "step replay input ended") else .ok { io with input := rest }
  else .ok io

/-- What a replay does before a callback. -/
abbrev Pause := Option UInt64 → UInt64 → Console → Except Thrown Console

def Pause.ofMode (mode : ReplayMode) : Pause := fun prev ns io => do
  let io ← delay mode prev ns io
  prompt mode io

/-- The arithmetic of the scaled mode: whether the speed is positive, and the delay that a
difference of timestamps becomes, unless it is too large. -/
structure Scale where
  positive : Bool
  delay : UInt64 → Option UInt64

/-- The delay of the scaled mode. -/
def Pause.scaled (scale : Scale) : Pause := fun prev ns io =>
  match prev with
  | none => .ok io
  | some p =>
    if ns<p then .error (.runtimeError "capture timestamps are not monotonic")
    else
      let delta := ns-p
      if delta≠0 then
        match scale.delay delta with
        -- an `overflow_error` is a `runtime_error`
        | none => .error (.runtimeError "scaled replay delay is too large")
        | some scaled => .ok { io with slept := io.slept++[scaled.toInt64] }
      else .ok io

section Loop
variable {σ : Type} (pause : Pause) (cb : σ → CaptureRecord → Except Abort σ)

/-- The loop of `run`. -/
def loop (reader : CaptureReader) (prev : Option UInt64) (count : Nat) (io : Console) (s : σ) :
    Replayed σ :=
  match h : reader.next with
  | .error e => ⟨s,io,.error (.threw e)⟩
  | .ok none => ⟨s,io,.ok count⟩
  | .ok (some (r,reader')) =>
    match pause prev r.monotonicNs io with
    | .error e => ⟨s,io,.error (.threw e)⟩
    | .ok io =>
      match cb s r with
      | .error a => ⟨s,io,.error a⟩
      | .ok s =>
        have := CaptureReader.next_length h
        loop reader' (some r.monotonicNs) (count+1) io s
termination_by reader.rest.length

/-- `run` once its options are checked. -/
def runWith (file : Bytes) (io : Console) (s : σ) : Replayed σ :=
  match CaptureReader.create file with
  | .error e => ⟨s,io,.error (.threw e)⟩
  | .ok reader => loop pause cb reader none 0 io s

/-- `run` in the scaled mode. -/
def runScaled (scale : Scale) (file : Bytes) (io : Console) (s : σ) : Replayed σ :=
  if scale.positive then runWith (.scaled scale) cb file io s
  else ⟨s,io,.error (.threw (.invalidArgument "replay speed must be > 0"))⟩

/-- The loop over records that were read already, with the exception that ended the reading. -/
def loopRecords (last : Option Thrown) :
    List CaptureRecord → Option UInt64 → Nat → Console → σ → Replayed σ
  | [], _, count, io, s =>
    match last with
    | none => ⟨s,io,.ok count⟩
    | some e => ⟨s,io,.error (.threw e)⟩
  | r::rest, prev, count, io, s =>
    match pause prev r.monotonicNs io with
    | .error e => ⟨s,io,.error (.threw e)⟩
    | .ok io =>
      match cb s r with
      | .error a => ⟨s,io,.error a⟩
      | .ok s => loopRecords last rest (some r.monotonicNs) (count+1) io s

theorem loop_eq_loopRecords (reader : CaptureReader) (prev : Option UInt64) (count : Nat)
    (io : Console) (s : σ) : loop pause cb reader prev count io s=
      loopRecords pause cb reader.readAll.2 reader.readAll.1 prev count io s := by
  induction hn : reader.rest.length using Nat.strong_induction_on
    generalizing reader prev count io s with
  | _ n ih =>
    subst hn
    rw [loop]
    split
    · rename_i e he
      rw [CaptureReader.readAll_error he]
      rfl
    · rename_i he
      rw [CaptureReader.readAll_none he]
      rfl
    · rename_i r reader' he
      rw [CaptureReader.readAll_some he,loopRecords]
      cases pause prev r.monotonicNs io with
      | error e => rfl
      | ok io =>
        dsimp only
        cases cb s r with
        | error a => rfl
        | ok s => exact ih _ (CaptureReader.next_length he) _ _ _ _ _ rfl

/-- A replay of a file is the loop over what can be read from it. -/
theorem runWith_eq_loopRecords (file : Bytes) (io : Console) (s : σ) : runWith pause cb file io s=
    loopRecords pause cb (CaptureReader.readFile file).2 (CaptureReader.readFile file).1 none 0 io
      s := by
  unfold runWith CaptureReader.readFile
  cases CaptureReader.create file with
  | error e => rfl
  | ok reader => exact loop_eq_loopRecords pause cb reader none 0 io s

/-- A replay of a written capture is the loop over its records. -/
theorem runWith_captureFile {records : List CaptureRecord} (hfits : Fits records) (io : Console)
    (s : σ) : runWith pause cb (captureFile records) io s=
      loopRecords pause cb none records none 0 io s := by
  rw [runWith_eq_loopRecords,CaptureReader.readFile_iff.mpr ⟨rfl,hfits⟩]

variable {pause cb}

/-- One record for which nothing throws. -/
theorem loopRecords_cons {last : Option Thrown} {r : CaptureRecord} {rest : List CaptureRecord}
    {prev : Option UInt64} {count : Nat} {io io1 : Console} {s s1 : σ}
    (hp : pause prev r.monotonicNs io=.ok io1) (hc : cb s r=.ok s1) :
    loopRecords pause cb last (r::rest) prev count io s=
      loopRecords pause cb last rest (some r.monotonicNs) (count+1) io1 s1 := by
  rw [loopRecords,hp]
  dsimp only
  rw [hc]

end Loop

/-- `run` in any other mode. -/
def run {σ : Type} (mode : ReplayMode) (cb : σ → CaptureRecord → Except Abort σ) (file : Bytes)
    (io : Console) (s : σ) : Replayed σ :=
  runWith (.ofMode mode) cb file io s

/-- Neighbouring timestamps are related, from an earlier one on. -/
def Linked (R : UInt64 → UInt64 → Prop) (prev : Option UInt64) : List CaptureRecord → Prop
  | [] => True
  | r::rest => (∀ p∈prev, R p r.monotonicNs) ∧ Linked R (some r.monotonicNs) rest

abbrev InTime (prev : Option UInt64) (records : List CaptureRecord) : Prop :=
  Linked (fun a b => a≤b) prev records

/-- Records in time order. -/
def Ordered (records : List CaptureRecord) : Prop :=
  (records.map CaptureRecord.monotonicNs).IsChain fun a b => a≤b

theorem linked_iff (R : UInt64 → UInt64 → Prop) (prev : Option UInt64)
    (records : List CaptureRecord) : Linked R prev records ↔
      (prev.toList++records.map CaptureRecord.monotonicNs).IsChain R := by
  induction records generalizing prev with
  | nil => cases prev <;> simp [Linked]
  | cons r rest ih =>
    rw [Linked,ih]
    cases prev <;> simp

theorem inTime_none {records : List CaptureRecord} : InTime none records ↔ Ordered records :=
  linked_iff _ none records

/-- Out of real time there is nothing to wait for between records in time order. -/
theorem delay_of_ne {mode : ReplayMode} (hm : mode≠.realtime) {prev : Option UInt64} {ns : UInt64}
    {io : Console} (h : ∀ p∈prev, p≤ns) : delay mode prev ns io=.ok io := by
  cases prev with
  | none => rfl
  | some p =>
    have hp : ¬ns<p := UInt64.not_lt.mpr (h p rfl)
    simp only [delay]
    rw [if_neg hp,if_neg (by simp [hm])]

theorem prompt_of_ne {mode : ReplayMode} (h : mode≠.step) (io : Console) :
    prompt mode io=.ok io := by
  rw [prompt,if_neg h]

namespace Pause
variable {prev : Option UInt64} {ns : UInt64} {mode : ReplayMode} {io io1 io2 : Console}

theorem ofMode_ok (hd : delay mode prev ns io=.ok io1) (hp : prompt mode io1=.ok io2) :
    Pause.ofMode mode prev ns io=.ok io2 :=
  bind_eq_ok.mpr ⟨io1,hd,hp⟩

/-- At maximum speed there is no pause. -/
theorem maxSpeed_ok (h : ∀ p∈prev, p≤ns) (io : Console) :
    Pause.ofMode .maxSpeed prev ns io=.ok io :=
  ofMode_ok (delay_of_ne (by simp) h) (prompt_of_ne (by simp) io)

end Pause

section Encoded
variable {σ : Type} {cb : σ → CaptureRecord → Except Abort σ} {records : List CaptureRecord}
  {io : Console} {s s' : σ}

/-- Records in time order are replayed one by one. -/
theorem loopRecords_foldlM {prev : Option UInt64} {count : Nat} (htime : InTime prev records)
    (h : records.foldlM cb s=.ok s') :
    loopRecords (.ofMode .maxSpeed) cb none records prev count io s=
      ⟨s',io,.ok (count+records.length)⟩ := by
  induction records generalizing prev count s with
  | nil =>
    cases h
    rfl
  | cons r rest ih =>
    obtain ⟨s1,h1,h2⟩ := bind_eq_ok.mp h
    rw [loopRecords_cons (Pause.maxSpeed_ok htime.1 io) h1,ih htime.2 h2,List.length_cons,
      Nat.add_assoc,Nat.add_comm 1]

theorem run_encoded (hfits : Fits records)
    (htime : (records.map CaptureRecord.monotonicNs).Pairwise fun a b => a≤b)
    (h : records.foldlM cb s=.ok s') :
    run .maxSpeed cb (captureFile records) io s=⟨s',io,.ok records.length⟩ := by
  rw [run,runWith_captureFile _ cb hfits,loopRecords_foldlM (inTime_none.mpr htime.isChain) h,
    Nat.zero_add]

end Encoded

end ReplayEngine

/-- The callback of the replay command, with its message count. -/
def replayRecord (s : Pipeline×Nat) (r : CaptureRecord) : Except Abort (Pipeline×Nat) := do
  let (pipeline,result) ← s.1.processPacket r.datagram
  return (pipeline,s.2+result.ready.length)

structure ReplayReport where
  packets : Nat
  messages : Nat
  liveOrders : Nat
  stateHash : Option UInt64
  deriving DecidableEq, Repr

/-- The replay command over a capture, with a book of `maxOrders` slots. -/
def replayWith (maxOrders : Nat) (mode : ReplayMode) (file : Bytes) (io : Console) :
    Except Abort ReplayReport :=
  match OrderBook.create maxOrders with
  | .error e => .error (.threw e)
  | .ok book =>
    let out := ReplayEngine.run mode replayRecord file io (⟨{ expected := 1 },book⟩,0)
    match out.outcome with
    | .error a => .error a
    | .ok packets =>
      .ok ⟨packets,out.state.2,out.state.1.book.liveOrderCount,out.state.1.book.stateHash⟩

def replay (mode : ReplayMode) (file : Bytes) (io : Console) : Except Abort ReplayReport :=
  replayWith 1000000 mode file io

/-- The callbacks run the pipeline. -/
theorem foldlM_replayRecord {records : List CaptureRecord} {s s' : Pipeline} {n : Nat}
    (h : s.run (records.map CaptureRecord.datagram)=.ok s') :
    ∃ n', records.foldlM replayRecord (s,n)=.ok (s',n') := by
  induction records generalizing s n with
  | nil =>
    cases h
    exact ⟨n,rfl⟩
  | cons r rest ih =>
    rw [List.map_cons,Pipeline.run] at h
    obtain ⟨⟨s1,result⟩,h1,h2⟩ := bind_eq_ok.mp h
    obtain ⟨n',hn⟩ := ih (n := n+result.ready.length) h2
    refine ⟨n',?_⟩
    rw [List.foldlM_cons]
    simp only [replayRecord,h1]
    exact hn

/-- Replaying a written capture at maximum speed runs the pipeline over its datagrams. -/
theorem replayWith_encoded {n : Nat} {book : OrderBook} (hb : OrderBook.create n=.ok book)
    {records : List CaptureRecord} (io : Console) {s : Pipeline} (hfits : Fits records)
    (htime : (records.map CaptureRecord.monotonicNs).Pairwise fun a b => a≤b)
    (h : Pipeline.run ⟨{ expected := 1 },book⟩ (records.map CaptureRecord.datagram)=.ok s) :
    ∃ report, replayWith n .maxSpeed (captureFile records) io=.ok report ∧
      report.liveOrders=s.book.liveOrderCount ∧ report.stateHash=s.book.stateHash := by
  obtain ⟨messages,hf⟩ := foldlM_replayRecord (n := 0) h
  refine ⟨⟨records.length,messages,s.book.liveOrderCount,s.book.stateHash⟩,?_,rfl,rfl⟩
  rw [replayWith,hb]
  simp only
  rw [ReplayEngine.run_encoded hfits htime hf]

end MarketWire
