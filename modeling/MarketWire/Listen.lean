import MarketWire.Replay

/-! The live loop: each datagram is captured, framed, recovered and applied, gaps are asked
for, and an end-of-session packet stops the loop. What a send throws, if it fails, is told beside
the datagram that it answers. -/
namespace MarketWire
open Library MoldUdp64

/-- A return of `receive()`, with the clock read after it, and what `send_unicast` throws in the
same turn of the loop: at a host that is no address, or when `sendto` fails. -/
structure Arrival where
  stopRequested : Bool := false
  ns : UInt64
  datagram : Bytes
  sendFails : Option String := none
  deriving DecidableEq, Repr

def Arrival.record (a : Arrival) : CaptureRecord := ⟨a.ns,a.datagram⟩

structure Listener where
  pipeline : Pipeline
  capture : Option CaptureWriter
  sent : List Bytes := []
  deriving DecidableEq

/-- How the loop stands: over with the printed hash, stopped, or in `receive()`. -/
inductive ListenEnd where
  | endOfSession (stateHash : Option UInt64)
  | stopped
  | waiting
  deriving DecidableEq, Repr

namespace Listener

def record (l : Listener) (a : Arrival) : Except Abort (Option CaptureWriter) :=
  match l.capture with
  | none => .ok none
  | some w => ((w.write a.ns a.datagram).mapError .threw).map some

def sendUnicast (fails : Option String) (sent : List Bytes) (bytes : Bytes) :
    Except Abort (List Bytes) :=
  match fails with
  | none => .ok (sent++[bytes])
  | some what => .error (.threw (.runtimeError what))

/-- The rerequests sent so far, with the one that a result calls for. -/
def rerequest (fails : Option String) (recovery : RecoveryEngine) (r : Result)
    (sent : List Bytes) : Except Abort (List Bytes) :=
  match r.request, recovery.session with
  | some q, some session => do
    let out ← (encodeRequest ⟨session,q.first,q.count⟩).mapError .threw
    sendUnicast fails sent out
  | _, _ => .ok sent

def receive (l : Listener) (a : Arrival) : Except Abort (Listener×Result) := do
  let capture ← l.record a
  let (recovery,r) ← l.pipeline.ingest a.datagram
  let sent ← rerequest a.sendFails recovery r l.sent
  let book ← r.ready.foldlM Pipeline.handle l.pipeline.book
  return (⟨⟨recovery,book⟩,capture,sent⟩,r)

def loop (l : Listener) : List Arrival → Except Abort (Listener×ListenEnd)
  | [] => .ok (l,.waiting)
  | a::rest =>
    if a.datagram=[] ∧ a.stopRequested then .ok (l,.stopped)
    else do
      let (l,r) ← l.receive a
      if r.endOfSession then return (l,.endOfSession l.pipeline.book.stateHash)
      else l.loop rest

end Listener

/-- The live command with a book of `maxOrders` slots. -/
def listenWith (maxOrders : Nat) (capture : Bool) (arrivals : List Arrival) :
    Except Abort (Listener×ListenEnd) :=
  match OrderBook.create maxOrders with
  | .error e => .error (.threw e)
  | .ok book =>
    Listener.loop ⟨⟨{ expected := 1 },book⟩,if capture then some CaptureWriter.create else none,[]⟩
      arrivals

def listen (capture : Bool) (arrivals : List Arrival) : Except Abort (Listener×ListenEnd) :=
  listenWith 2000000 capture arrivals

namespace Listener
variable {l l' : Listener} {a : Arrival} {r : Result} {arrivals : List Arrival}

/-- What the loop does with the datagrams it takes: the pipeline, and a record for each. -/
structure Took (l : Listener) (arrivals : List Arrival) (l' : Listener) : Prop where
  run : l.pipeline.run (arrivals.map Arrival.datagram)=.ok l'.pipeline
  capture : ∀ w, l.capture=some w →
    (∀ a∈arrivals, a.datagram.length≤kMaxCaptureDatagramSize) ∧
      l'.capture=some ⟨w.out++(arrivals.map Arrival.record).flatMap CaptureRecord.encode⟩

theorem receive_ok {capture : Option CaptureWriter} {recovery : RecoveryEngine}
    {sent : List Bytes} {book : OrderBook} (h1 : l.record a=.ok capture)
    (h2 : l.pipeline.ingest a.datagram=.ok (recovery,r))
    (h3 : rerequest a.sendFails recovery r l.sent=.ok sent)
    (h4 : r.ready.foldlM Pipeline.handle l.pipeline.book=.ok book) :
    l.receive a=.ok (⟨⟨recovery,book⟩,capture,sent⟩,r) :=
  bind_eq_ok.mpr ⟨_,h1,bind_eq_ok.mpr ⟨_,h2,bind_eq_ok.mpr ⟨_,h3,bind_eq_ok.mpr ⟨_,h4,rfl⟩⟩⟩⟩

theorem receive_inv (h : l.receive a=.ok (l',r)) :
    l.pipeline.processPacket a.datagram=.ok (l'.pipeline,r) ∧ Took l [a] l' := by
  obtain ⟨capture,h1,h⟩ := bind_eq_ok.mp h
  obtain ⟨⟨recovery,r1⟩,h2,h⟩ := bind_eq_ok.mp h
  obtain ⟨sent,h3,h⟩ := bind_eq_ok.mp h
  obtain ⟨book,h4,h⟩ := bind_eq_ok.mp h
  cases h
  have hp : l.pipeline.processPacket a.datagram=.ok (⟨recovery,book⟩,r) :=
    bind_eq_ok.mpr ⟨_,h2,bind_eq_ok.mpr ⟨book,h4,rfl⟩⟩
  refine ⟨hp,?_,fun w hw => ?_⟩
  · rw [List.map_singleton,Pipeline.run,hp]
    rfl
  · rw [record,hw] at h1
    obtain ⟨w',hw',he⟩ := map_eq_ok.mp h1
    obtain ⟨hs,rfl⟩ := CaptureWriter.write_ok (mapError_ok.mp hw')
    exact ⟨by simpa using hs,by simp [← he,Arrival.record]⟩

theorem Took.refl (l : Listener) : Took l [] l := ⟨rfl,fun w hw => ⟨by simp,by simp [hw]⟩⟩

theorem run_append {s s1 : Pipeline} {ds ds' : List Bytes} (h : s.run ds=.ok s1) :
    s.run (ds++ds')=s1.run ds' := by
  induction ds generalizing s with
  | nil =>
    cases h
    rfl
  | cons d rest ih =>
    obtain ⟨⟨s2,r⟩,h1,h2⟩ := bind_eq_ok.mp h
    rw [List.cons_append,Pipeline.run,h1]
    exact ih h2

theorem Took.trans {l1 l2 : Listener} {as as' : List Arrival} (h : Took l as l1)
    (h' : Took l1 as' l2) : Took l (as++as') l2 := by
  refine ⟨?_,fun w hw => ?_⟩
  · rw [List.map_append,run_append h.run]
    exact h'.run
  · obtain ⟨hs,hc⟩ := h.capture w hw
    obtain ⟨hs',hc'⟩ := h'.capture _ hc
    refine ⟨List.forall_mem_append.mpr ⟨hs,hs'⟩,?_⟩
    rw [hc',List.map_append,List.flatMap_append,List.append_assoc]

/-- A datagram that does not end the session leaves the loop to the next. -/
theorem loop_next {l1 : Listener} {rest : List Arrival}
    (hs : ¬(a.datagram=[] ∧ a.stopRequested)) (h : l.receive a=.ok (l1,r))
    (he : r.endOfSession=false) : l.loop (a::rest)=l1.loop rest := by
  rw [loop,if_neg hs,h]
  change (if r.endOfSession=true then _ else l1.loop rest)=_
  rw [he]
  rfl

theorem loop_ends {l1 : Listener} {rest : List Arrival}
    (hs : ¬(a.datagram=[] ∧ a.stopRequested)) (h : l.receive a=.ok (l1,r))
    (he : r.endOfSession=true) :
    l.loop (a::rest)=.ok (l1,.endOfSession l1.pipeline.book.stateHash) := by
  rw [loop,if_neg hs,h]
  change (if r.endOfSession=true then _ else l1.loop rest)=_
  rw [he]
  rfl

/-- A turn of the loop stops, ends the session or goes on. -/
theorem loop_cases {rest : List Arrival} {out : ListenEnd}
    (h : l.loop (a::rest)=.ok (l',out)) : out=.stopped ∨
      ∃ l1 r, ¬(a.datagram=[] ∧ a.stopRequested) ∧ l.receive a=.ok (l1,r) ∧
        (r.endOfSession=true ∧ l'=l1 ∧ out=.endOfSession l1.pipeline.book.stateHash ∨
          r.endOfSession=false ∧ l1.loop rest=.ok (l',out)) := by
  rw [loop] at h
  split_ifs at h with hs
  · cases h
    exact .inl rfl
  · obtain ⟨⟨l1,r⟩,h1,h⟩ := bind_eq_ok.mp h
    dsimp only at h
    split_ifs at h with he
    · cases h
      exact .inr ⟨_,r,hs,h1,.inl ⟨he,rfl,rfl⟩⟩
    · exact .inr ⟨l1,r,hs,h1,.inr ⟨Bool.eq_false_iff.mpr he,h⟩⟩

/-- A loop that is still waiting has taken everything. -/
theorem loop_waiting (h : l.loop arrivals=.ok (l',.waiting)) : Took l arrivals l' := by
  induction arrivals generalizing l with
  | nil =>
    cases h
    exact .refl _
  | cons a rest ih =>
    obtain hout | ⟨l1,r,-,h1,⟨-,-,hout⟩ | ⟨-,h⟩⟩ := loop_cases h
    · cases hout
    · cases hout
    · exact (receive_inv h1).2.trans (ih h)

theorem loop_append {l1 : Listener} {rest : List Arrival} (h : l.loop arrivals=.ok (l1,.waiting)) :
    l.loop (arrivals++rest)=l1.loop rest := by
  induction arrivals generalizing l with
  | nil =>
    cases h
    rfl
  | cons a more ih =>
    obtain hout | ⟨l2,r,hs,h1,⟨-,-,hout⟩ | ⟨he,h⟩⟩ := loop_cases h
    · cases hout
    · cases hout
    · exact (loop_next hs h1 he).trans (ih h)

/-- The packet that ends a loop which was waiting before it. -/
theorem loop_last {hash : Option UInt64} (h : l.loop [a]=.ok (l',.endOfSession hash)) :
    ∃ p, parseDownstream a.datagram=.ok p ∧ p.endOfSession=true ∧
      hash=l'.pipeline.book.stateHash ∧ Took l [a] l' := by
  obtain hout | ⟨l1,r,-,h1,⟨he,rfl,hout⟩ | ⟨-,h⟩⟩ := loop_cases h
  · cases hout
  · cases hout
    obtain ⟨hp,ht⟩ := receive_inv h1
    obtain ⟨p,hparse,hi,-⟩ := Pipeline.processPacket_inv hp
    exact ⟨p,hparse,(RecoveryEngine.ingest_result hi).2 ▸ he,rfl,ht⟩
  · cases h

theorem sendUnicast_ok {fails : Option String} {sent sent' : List Bytes} {bytes : Bytes}
    (h : sendUnicast fails sent bytes=.ok sent') : sent'=sent++[bytes] := by
  cases fails with
  | none => exact (Except.ok.inj h).symm
  | some what => cases h

/-- A result that calls for nothing sends nothing; one that calls for messages of a session sends
their rerequest. -/
theorem rerequest_cases (fails : Option String) (recovery : RecoveryEngine) {r : Result}
    (sent : List Bytes) (h : RecoveryEngine.ValidCount r.request) :
    (r.request=none ∨ recovery.session=none) ∧ rerequest fails recovery r sent=.ok sent ∨
      ∃ q session out, r.request=some q ∧ recovery.session=some session ∧
        encodeRequest ⟨session,q.first,q.count⟩=.ok out ∧
        rerequest fails recovery r sent=sendUnicast fails sent out := by
  unfold rerequest
  cases hq : r.request with
  | none => exact .inl ⟨.inl rfl,rfl⟩
  | some q =>
    cases recovery.session with
    | none => exact .inl ⟨.inr rfl,rfl⟩
    | some session =>
      obtain ⟨h0,h1⟩ := h q hq
      have hout := encodeRequest_eq (q := ⟨session,q.first,q.count⟩) h0 h1
      exact .inr ⟨q,session,_,rfl,rfl,hout,by simp only [hout]; rfl⟩

/-- Sending goes wrong in `send_unicast` alone. -/
theorem rerequest_error {fails : Option String} {recovery : RecoveryEngine} {sent : List Bytes}
    {x : Abort} (h : RecoveryEngine.ValidCount r.request)
    (hx : rerequest fails recovery r sent=.error x) :
    ∃ what q, fails=some what ∧ x=.threw (.runtimeError what) ∧ r.request=some q := by
  obtain ⟨-,hok⟩ | ⟨q,_,_,hq,-,-,he⟩ := rerequest_cases fails recovery sent h
  · cases hok.symm.trans hx
  · rw [he] at hx
    cases fails with
    | none => cases hx
    | some what =>
      cases hx
      exact ⟨what,q,rfl,rfl,hq⟩

theorem rerequest_ok (recovery : RecoveryEngine) {r : Result} (sent : List Bytes)
    (h : RecoveryEngine.ValidCount r.request) :
    ∃ sent', rerequest none recovery r sent=.ok sent' := by
  cases hx : rerequest none recovery r sent with
  | ok sent' => exact ⟨sent',rfl⟩
  | error x =>
    obtain ⟨what,-,hfails,-⟩ := rerequest_error h hx
    cases hfails

theorem record_ok (l : Listener) (h : a.datagram.length≤kMaxCaptureDatagramSize) :
    ∃ capture, l.record a=.ok capture := by
  unfold record
  cases l.capture with
  | none => exact ⟨none,rfl⟩
  | some w =>
    dsimp only
    rw [w.write_eq h]
    exact ⟨_,rfl⟩

/-- A datagram that the pipeline takes is received, unless a send fails. -/
theorem receive_of_process {s : Pipeline} (hs : a.datagram.length≤kMaxCaptureDatagramSize)
    (hsend : a.sendFails=none) (h : l.pipeline.processPacket a.datagram=.ok (s,r)) :
    ∃ l', l.receive a=.ok (l',r) ∧ l'.pipeline=s := by
  obtain ⟨⟨recovery,r1⟩,h1,h2⟩ := bind_eq_ok.mp h
  obtain ⟨book,h3,h4⟩ := bind_eq_ok.mp h2
  cases h4
  obtain ⟨p,-,hi,-⟩ := Pipeline.processPacket_inv h
  obtain ⟨capture,hc⟩ := l.record_ok hs
  obtain ⟨sent,hsent⟩ := rerequest_ok recovery l.sent (RecoveryEngine.ingest_result hi).1
  exact ⟨_,receive_ok hc h1 (hsend ▸ hsent) h3,rfl⟩

/-- An arrival that does not interrupt the loop. -/
structure Regular (a : Arrival) : Prop where
  size : a.datagram.length≤kMaxCaptureDatagramSize
  stop : a.stopRequested=false
  send : a.sendFails=none

/-- Datagrams that the pipeline takes and that do not end the session keep the loop going. -/
theorem loop_of_run {s : Pipeline} (hrun : l.pipeline.run (arrivals.map Arrival.datagram)=.ok s)
    (ha : ∀ a∈arrivals, Regular a)
    (hkind : ∀ a∈arrivals, ∀ p, parseDownstream a.datagram=.ok p → p.endOfSession=false) :
    ∃ l', l.loop arrivals=.ok (l',.waiting) ∧ l'.pipeline=s := by
  induction arrivals generalizing l with
  | nil =>
    cases hrun
    exact ⟨l,rfl,rfl⟩
  | cons a rest ih =>
    obtain ⟨⟨s1,r⟩,h1,h2⟩ := bind_eq_ok.mp hrun
    obtain ⟨l1,hl,rfl⟩ := receive_of_process (ha a (by simp)).size (ha a (by simp)).send h1
    obtain ⟨p,hp,hi,-⟩ := Pipeline.processPacket_inv h1
    have hend : r.endOfSession=false :=
      (RecoveryEngine.ingest_result hi).2.trans (hkind a (by simp) p hp)
    obtain ⟨l',hl',hs⟩ := ih h2 (fun x hx => ha x (List.mem_cons_of_mem a hx))
      fun x hx => hkind x (List.mem_cons_of_mem a hx)
    exact ⟨l',(loop_next (by simp [(ha a (by simp)).stop]) hl hend).trans hl',hs⟩

/-- An end-of-session packet that the pipeline takes ends the loop. -/
theorem loop_end_of_run {s : Pipeline} {p : MoldDownstreamPacket} (ha : Regular a)
    (hrun : l.pipeline.run [a.datagram]=.ok s) (hp : parseDownstream a.datagram=.ok p)
    (he : p.endOfSession=true) :
    ∃ l', l.loop [a]=.ok (l',.endOfSession l'.pipeline.book.stateHash) ∧ l'.pipeline=s := by
  obtain ⟨⟨s1,r⟩,h1,h2⟩ := bind_eq_ok.mp hrun
  cases h2
  obtain ⟨l1,hl,rfl⟩ := receive_of_process ha.size ha.send h1
  obtain ⟨q,hq,hi,-⟩ := Pipeline.processPacket_inv h1
  obtain rfl : p=q := Except.ok.inj (hp.symm.trans hq)
  have hend : r.endOfSession=true := (RecoveryEngine.ingest_result hi).2.trans he
  exact ⟨l1,loop_ends (by simp [ha.stop]) hl hend,rfl⟩

end Listener

end MarketWire
