import MarketWire.RecoverySession
import MarketWire.SampleMessages
import MarketWire.BookAtomicity

/-! The processing path shared by the demo, live and replay drivers: frame, recover, decode,
apply. What it ends with depends only on the set of messages that arrived. -/
namespace MarketWire
open Library MoldUdp64

/-- How processing a datagram ends early. -/
inductive Abort where
  | threw (e : Thrown)
  | undefined
  deriving DecidableEq, Repr

def Fault.abort : Fault → Abort
  | .threw e => .threw e
  | .erasedTwice => .undefined

structure Pipeline where
  recovery : RecoveryEngine
  book : OrderBook
  deriving DecidableEq

namespace Pipeline

/-- `book.apply(*event)`; a rejection is reported and otherwise ignored. -/
def applyEvent (book : OrderBook) (event : MarketEvent) : Except Abort OrderBook :=
  match book.apply event with
  | (book,.returned _) => .ok book
  | (_,.threw e) => .error (.threw e)
  | (_,.endDereferenced) => .error .undefined

/-- One released message: decoded, and applied when it carries a book event. -/
def handle (book : OrderBook) (m : MoldMessage) : Except Abort OrderBook :=
  match ItchDecoder.decodeBookEvent m.payload with
  | .error e => .error (.threw e)
  | .ok none => .ok book
  | .ok (some event) => applyEvent book event

/-- Framing and recovery of one datagram. -/
def ingest (s : Pipeline) (datagram : Bytes) : Except Abort (RecoveryEngine×Result) :=
  match parseDownstream datagram with
  | .error e => .error (.threw e)
  | .ok packet =>
    match s.recovery.ingest packet with
    | (_,.error fault) => .error fault.abort
    | (recovery,.ok r) => .ok (recovery,r)

def processPacket (s : Pipeline) (datagram : Bytes) : Except Abort (Pipeline×Result) := do
  let (recovery,r) ← s.ingest datagram
  let book ← r.ready.foldlM handle s.book
  return (⟨recovery,book⟩,r)

/-- Datagrams one after another. -/
def run (s : Pipeline) : List Bytes → Except Abort Pipeline
  | [] => .ok s
  | d::rest => do
    let (s,_) ← s.processPacket d
    s.run rest

end Pipeline

/-- The packets of the datagrams that parse. -/
def packetsOf (ds : List Bytes) : List MoldDownstreamPacket :=
  ds.filterMap fun d => (parseDownstream d).toOption

/-- The numbered messages that the datagrams carry. -/
def carried (ds : List Bytes) : List MoldMessage := received (packetsOf ds)

/-- The event of a message, when it has one. -/
def decoded (m : MoldMessage) : Option MarketEvent :=
  match ItchDecoder.decodeBookEvent m.payload with
  | .ok event => event
  | .error _ => none

/-- Datagrams of one session that parse and decode; each number has one payload. -/
structure Admissible (session : Session) (ds : List Bytes) : Prop where
  parses : ∀ d∈ds, (parseDownstream d).map MoldDownstreamPacket.session=.ok session
  bounded : ∀ m∈carried ds, m.sequence≠sequenceMax
  consistent : ∀ m∈carried ds, ∀ m'∈carried ds, m.sequence=m'.sequence → m.payload=m'.payload
  decodes : ∀ m∈carried ds, (ItchDecoder.decodeBookEvent m.payload).isOk

instance (session : Session) (ds : List Bytes) : Decidable (Admissible session ds) :=
  decidable_of_iff
    ((∀ d∈ds, (parseDownstream d).map MoldDownstreamPacket.session=.ok session) ∧
      (∀ m∈carried ds, m.sequence≠sequenceMax) ∧
      (∀ m∈carried ds, ∀ m'∈carried ds, m.sequence=m'.sequence → m.payload=m'.payload) ∧
      ∀ m∈carried ds, (ItchDecoder.decodeBookEvent m.payload).isOk)
    ⟨fun h => ⟨h.1,h.2.1,h.2.2.1,h.2.2.2⟩,fun h => ⟨h.parses,h.bounded,h.consistent,h.decodes⟩⟩

namespace Pipeline
variable {b b' : OrderBook} {L : Ledger} {m : MoldMessage} {ready : List MoldMessage}

theorem handle_eq (h : Rep b L) (hd : (ItchDecoder.decodeBookEvent m.payload).isOk) :
    handle b m=.ok (b.run (decoded m).toList) := by
  obtain ⟨event,he⟩ := exists_of_isOk hd
  rw [handle,decoded,he]
  cases event with
  | none => rfl
  | some event =>
    have ho := (h.apply event).1
    dsimp only [applyEvent,Option.toList,OrderBook.run,List.foldl]
    revert ho
    generalize b.apply event=out
    intro ho
    obtain ⟨b1,outcome⟩ := out
    cases ho
    rfl

/-- Released messages that decode are applied one after another. -/
theorem foldlM_handle (h : Rep b L)
    (hd : ∀ m∈ready, (ItchDecoder.decodeBookEvent m.payload).isOk) :
    ready.foldlM handle b=.ok (b.run (ready.filterMap decoded)) := by
  induction ready generalizing b L with
  | nil => rfl
  | cons m rest ih =>
    rw [List.foldlM_cons,handle_eq h (hd m (by simp))]
    have hrest := ih (h.run (decoded m).toList) fun x hx => hd x (List.mem_cons_of_mem m hx)
    change rest.foldlM handle (b.run (decoded m).toList)=_
    rw [hrest,List.filterMap_cons]
    cases decoded m with
    | none => rfl
    | some event => rfl

/-- The pipeline is the engine followed by the book. -/
theorem run_eq {ds : List Bytes} {e e' : RecoveryEngine}
    (hp : ∀ d∈ds, ∃ p, parseDownstream d=.ok p)
    (hi : e.ingestAll (packetsOf ds)=some (e',ready)) (hb : ready.foldlM handle b=.ok b') :
    run ⟨e,b⟩ ds=.ok ⟨e',b'⟩ := by
  induction ds generalizing e b ready with
  | nil =>
    cases hi
    cases hb
    rfl
  | cons d rest ih =>
    obtain ⟨p,hd⟩ := hp d (by simp)
    have hpackets : packetsOf (d::rest)=p::packetsOf rest := by simp [packetsOf,hd,Except.toOption]
    rw [hpackets,RecoveryEngine.ingestAll] at hi
    cases hin : e.ingest p with
    | mk e1 out =>
      cases out with
      | error fault =>
        rw [hin] at hi
        cases hi
      | ok r =>
        rw [hin] at hi
        obtain ⟨⟨e2,ready2⟩,hrest,he⟩ := Option.map_eq_some_iff.mp hi
        cases he
        rw [List.foldlM_append,bind_eq_ok] at hb
        obtain ⟨b1,hb1,hb2⟩ := hb
        have hnext := ih (fun x hx => hp x (List.mem_cons_of_mem d hx)) hrest hb2
        have hstep : processPacket ⟨e,b⟩ d=.ok (⟨e1,b1⟩,r) := by
          simp only [processPacket,ingest,hd,hin,bind,Except.bind,hb1]
          rfl
        rw [run,hstep]
        exact hnext

theorem handle_inv (h : handle b m=.ok b') :
    (ItchDecoder.decodeBookEvent m.payload).isOk ∧ b'=b.run (decoded m).toList := by
  unfold handle at h
  unfold decoded
  cases hd : ItchDecoder.decodeBookEvent m.payload with
  | error e =>
    rw [hd] at h
    cases h
  | ok event =>
    rw [hd] at h
    refine ⟨rfl,?_⟩
    cases event with
    | none =>
      cases h
      rfl
    | some event =>
      dsimp only [applyEvent] at h
      dsimp only [Option.toList,OrderBook.run,List.foldl]
      revert h
      generalize b.apply event=out
      intro h
      match out with
      | (b1,.returned ok) =>
        cases h
        rfl
      | (b1,.threw e) => cases h
      | (b1,.endDereferenced) => cases h

theorem foldlM_handle_inv (h : ready.foldlM handle b=.ok b') :
    (∀ m∈ready, (ItchDecoder.decodeBookEvent m.payload).isOk) ∧
      b'=b.run (ready.filterMap decoded) := by
  induction ready generalizing b with
  | nil =>
    cases h
    exact ⟨by simp,rfl⟩
  | cons m rest ih =>
    rw [List.foldlM_cons,bind_eq_ok] at h
    obtain ⟨b1,h1,h2⟩ := h
    obtain ⟨hd,rfl⟩ := handle_inv h1
    obtain ⟨hds,rfl⟩ := ih h2
    refine ⟨List.forall_mem_cons.mpr ⟨hd,hds⟩,?_⟩
    rw [List.filterMap_cons]
    cases decoded m with
    | none => rfl
    | some event => rfl

theorem processPacket_inv {s s' : Pipeline} {d : Bytes} {r : Result}
    (h : s.processPacket d=.ok (s',r)) :
    ∃ p, parseDownstream d=.ok p ∧ s.recovery.ingest p=(s'.recovery,.ok r) ∧
      r.ready.foldlM handle s.book=.ok s'.book := by
  obtain ⟨⟨recovery,r1⟩,h1,h⟩ := bind_eq_ok.mp h
  obtain ⟨book,h2,h⟩ := bind_eq_ok.mp h
  cases h
  unfold ingest at h1
  cases hd : parseDownstream d with
  | error e =>
    rw [hd] at h1
    cases h1
  | ok p =>
    rw [hd] at h1
    revert h1
    cases hi : s.recovery.ingest p with
    | mk e out =>
      intro h1
      cases out with
      | error fault =>
        simp only [hi] at h1
        cases h1
      | ok r' =>
        simp only [hi] at h1
        cases h1
        exact ⟨p,rfl,hi,h2⟩

/-- A run that went through: the engine's run, and the released messages applied. -/
theorem run_inv {ds : List Bytes} {s s' : Pipeline} (h : s.run ds=.ok s') :
    ∃ ready, (∀ d∈ds, ∃ p, parseDownstream d=.ok p) ∧
      s.recovery.ingestAll (packetsOf ds)=some (s'.recovery,ready) ∧
      ready.foldlM handle s.book=.ok s'.book := by
  induction ds generalizing s with
  | nil =>
    cases h
    exact ⟨[],by simp,rfl,rfl⟩
  | cons d rest ih =>
    obtain ⟨⟨s1,r⟩,h1,h2⟩ := bind_eq_ok.mp h
    obtain ⟨p,hp,hi,hb⟩ := processPacket_inv h1
    obtain ⟨ready,hps,his,hbs⟩ := ih h2
    have hpackets : packetsOf (d::rest)=p::packetsOf rest := by simp [packetsOf,hp,Except.toOption]
    refine ⟨r.ready++ready,List.forall_mem_cons.mpr ⟨⟨p,hp⟩,hps⟩,?_,?_⟩
    · rw [hpackets,RecoveryEngine.ingestAll,hi]
      simp [his]
    · rw [List.foldlM_append,hb]
      exact hbs

/-- The released messages are determined by their numbers and the set that arrived. -/
theorem released_unique {l released released' : List MoldMessage}
    (hl : ∀ m∈l, ∀ m'∈l, m.sequence=m'.sequence → m.payload=m'.payload)
    (h : ∀ m∈released, m∈l) (h' : ∀ m∈released', m∈l)
    (hs : released.map (fun m => m.sequence.toNat)=released'.map fun m => m.sequence.toNat) :
    released=released' := by
  induction released generalizing released' with
  | nil =>
    cases released' with
    | nil => rfl
    | cons x rest => cases hs
  | cons m rest ih =>
    cases released' with
    | nil => cases hs
    | cons m' rest' =>
      rw [List.map_cons,List.map_cons,List.cons.injEq] at hs
      obtain ⟨hseq,hrest⟩ := hs
      have hseq' : m.sequence=m'.sequence := UInt64.toNat_inj.mp hseq
      have hpay := hl m (h m (by simp)) m' (h' m' (by simp)) hseq'
      have hm : m=m' := by
        cases m
        cases m'
        simp_all
      rw [hm,ih (fun x hx => h x (List.mem_cons_of_mem m hx))
        (fun x hx => h' x (List.mem_cons_of_mem m' hx)) hrest]

/-- The first number from 1 on that has not arrived. -/
theorem expected_unique {l : List MoldMessage} {s s' : Sequence}
    (h : ∀ t, 1≤t → t<s → ∃ m∈l, m.sequence=t) (hn : ∀ m∈l, m.sequence≠s)
    (h' : ∀ t, 1≤t → t<s' → ∃ m∈l, m.sequence=t) (hn' : ∀ m∈l, m.sequence≠s')
    (h1 : 1 ≤ s) (h1' : 1 ≤ s') : s=s' := by
  by_contra hne
  obtain hlt|hlt := UInt64.lt_or_lt_of_ne hne
  · obtain ⟨m,hm,he⟩ := h' s h1 hlt
    exact hn m hm he
  · obtain ⟨m,hm,he⟩ := h s' h1' hlt
    exact hn' m hm he

end Pipeline

namespace Admissible
variable {session : Session} {ds : List Bytes} {b : OrderBook} {L : Ledger}

theorem inSession (h : Admissible session ds) : ∀ p∈packetsOf ds, InSession session p := by
  intro p hp
  obtain ⟨d,hd,hpd⟩ := List.mem_filterMap.mp hp
  obtain ⟨q,hq,hs⟩ := map_eq_ok.mp (h.parses d hd)
  rw [hq] at hpd
  obtain rfl : q=p := Option.some.inj hpd
  refine ⟨hs,fun m hm => h.bounded m ?_⟩
  rw [received,List.flatMap_singleton] at hm
  exact List.mem_flatMap.mpr ⟨q,hp,hm⟩

/-- The engine releases the longest contiguous run from 1 on. -/
theorem ingestAll_ok (h : Admissible session ds) :
    ∃ e ready, RecoveryEngine.ingestAll { expected := 1 } (packetsOf ds)=some (e,ready) ∧
      InOrder 1 (carried ds) e ready := by
  have hopen : OpenFor session { expected := 1 } := ⟨.inl rfl,rfl⟩
  obtain ⟨e,ready,hi⟩ := RecoveryEngine.ingestAll_returns hopen h.inSession
  exact ⟨e,ready,hi,RecoveryEngine.ingestAll_fresh hi⟩

/-- The pipeline runs through; its state is that of the engine, with the released messages
applied in order. -/
theorem run_ok (h : Admissible session ds) (hb : Rep b L) :
    ∃ e ready, Pipeline.run ⟨{ expected := 1 },b⟩ ds=.ok ⟨e,b.run (ready.filterMap decoded)⟩ ∧
      InOrder 1 (carried ds) e ready := by
  obtain ⟨e,ready,hi,hspec⟩ := h.ingestAll_ok
  have hbook := Pipeline.foldlM_handle hb fun m hm => h.decodes m (hspec.mem m hm)
  refine ⟨e,ready,Pipeline.run_eq (fun d hd => ?_) hi hbook,hspec⟩
  obtain ⟨p,hp,-⟩ := map_eq_ok.mp (h.parses d hd)
  exact ⟨p,hp⟩

end Admissible

namespace Pipeline

/-- Two runs over the same messages, however packed, ordered and repeated, end in the same
state: the decoded events of the longest contiguous run from 1 on, applied in order. -/
theorem run_converges (n : Nat) {b : OrderBook} (hb : OrderBook.create n=.ok b)
    {session : Session} {ds ds' : List Bytes} (h : Admissible session ds)
    (h' : Admissible session ds') (hset : ∀ m, m∈carried ds ↔ m∈carried ds') :
    ∃ s s' released, run ⟨{ expected := 1 },b⟩ ds=.ok s ∧ run ⟨{ expected := 1 },b⟩ ds'=.ok s' ∧
      s.recovery.expected=s'.recovery.expected ∧ s.book.SameView s'.book ∧
      List.map (fun m => m.sequence.toNat) released=
        List.range' 1 (s.recovery.expected.toNat-1) ∧
      (∀ m∈released, m∈carried ds) ∧ (∀ m∈carried ds, m.sequence≠s.recovery.expected) ∧
      s.book=b.run (released.filterMap decoded) ∧ s'.book=b.run (released.filterMap decoded) := by
  have hrep := OrderBook.create_rep hb
  obtain ⟨e,ready,hrun,hi⟩ := h.run_ok hrep
  obtain ⟨e',ready',hrun',hi'⟩ := h'.run_ok hrep
  have hexp : e.expected=e'.expected :=
    expected_unique (fun t => hi.below) hi.missing
      (fun t h1 h2 => by
        obtain ⟨m,hm,he⟩ := hi'.below h1 h2
        exact ⟨m,(hset m).mpr hm,he⟩)
      (fun m hm => hi'.missing m ((hset m).mp hm)) hi.delivered.start_le hi'.delivered.start_le
  have hready : ready=ready' :=
    released_unique h.consistent hi.mem (fun m hm => (hset m).mpr (hi'.mem m hm))
      (by rw [hi.delivered.order,hi'.delivered.order,hexp])
  refine ⟨_,_,ready,hrun,hrun',hexp,?_,hi.delivered.order,hi.mem,hi.missing,rfl,by rw [hready]⟩
  rw [hready]
  exact ⟨fun _ => rfl,rfl,fun _ => rfl,fun _ => rfl,fun _ => rfl,fun _ => rfl,rfl⟩

/-- The packets of the demo: its second message is lost and retransmitted last. -/
def demoPackets : List Bytes :=
  [moldPacket (text "DEMO") 1 [addMsg 10 'B'.toUInt8 100 (text "AAPL") 2000000],
    moldPacket (text "DEMO") 3 [cancelMsg 10 25],
    moldPacket (text "DEMO") 2 [addMsg 11 'B'.toUInt8 200 (text "AAPL") 1999000]]

/-- The same messages in one packet, after a heartbeat. -/
def demoPacked : List Bytes :=
  [moldPacket (text "DEMO") 4 [],
    moldPacket (text "DEMO") 1 [addMsg 10 'B'.toUInt8 100 (text "AAPL") 2000000,
      addMsg 11 'B'.toUInt8 200 (text "AAPL") 1999000,cancelMsg 10 25]]

theorem run_converges_demo : ∃ b s s', OrderBook.create 8=.ok b ∧
    run ⟨{ expected := 1 },b⟩ demoPackets=.ok s ∧ run ⟨{ expected := 1 },b⟩ demoPacked=.ok s' ∧
    s.recovery.expected=s'.recovery.expected ∧ s.book.SameView s'.book ∧
    s.recovery.expected=4 ∧ s.book.liveOrderCount=2 ∧
      s'.book.find 10=some ⟨10,Symbol.fromPadded (text "AAPL"),.buy,75,2000000⟩ := by
  obtain ⟨b,hb⟩ := OrderBook.create_isOk (n := 8) (by decide) (by decide)
  have h : Admissible (sessionFromString (text "DEMO")) demoPackets := by decide +kernel
  have h' : Admissible (sessionFromString (text "DEMO")) demoPacked := by decide +kernel
  have hsub : carried demoPackets⊆carried demoPacked := by decide +kernel
  have hsub' : carried demoPacked⊆carried demoPackets := by decide +kernel
  obtain ⟨s,s',-,hs,hs',he,hv,-⟩ :=
    run_converges 8 hb h h' fun m => ⟨fun hm => hsub hm,fun hm => hsub' hm⟩
  have hvalues : (run ⟨{ expected := 1 },b⟩ demoPackets).toOption.map
      (fun s => (s.recovery.expected,s.book.liveOrderCount,s.book.find 10))=
      some (4,2,some ⟨10,Symbol.fromPadded (text "AAPL"),.buy,75,2000000⟩) := by
    obtain ⟨-,-,rfl⟩ := OrderBook.create_ok hb
    decide +kernel
  rw [hs] at hvalues
  simp only [Except.toOption,Option.map_some,Option.some.injEq,Prod.mk.injEq] at hvalues
  obtain ⟨hexpected,hcount,hfind⟩ := hvalues
  exact ⟨b,s,s',hb,hs,hs',he,hv,hexpected,hcount,(hv.find 10).symm.trans hfind⟩

end Pipeline

end MarketWire
