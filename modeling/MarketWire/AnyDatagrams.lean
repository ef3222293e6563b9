import MarketWire.PostMortem
import MarketWire.RecoveryFailure
import MarketWire.RecoveryProgress
import MarketWire.ListenCalls

/-! Any datagrams at all, well formed or not. Which one the live loop refuses and why, where it
ends, and the book that it has by then are told by the datagrams alone, and by what sending throws
where one of them makes the loop send. -/
namespace MarketWire
open Library MoldUdp64

/-- A datagram that can be captured, parses and is of the session heard so far. -/
structure Framed (capture : Bool) (ds : List Bytes) (d : Bytes) (p : MoldDownstreamPacket) :
    Prop where
  size : capture=true → d.length≤kMaxCaptureDatagramSize
  parses : parseDownstream d=.ok p
  session : ∀ q∈packetsOf ds, q.session=p.session

/-- The failures of an arrival behind `ds`. -/
inductive Refuses (capture : Bool) (ds : List Bytes) (a : Arrival) : Abort → Prop where
  | tooLarge : capture=true → kMaxCaptureDatagramSize<a.datagram.length →
      Refuses capture ds a (.threw (.runtimeError "capture datagram too large"))
  | malformed {what : String} : (capture=true → a.datagram.length≤kMaxCaptureDatagramSize) →
      parseDownstream a.datagram=.error (.decodeError what) →
      Refuses capture ds a (.threw (.decodeError what))
  | otherSession {p q : MoldDownstreamPacket} :
      (capture=true → a.datagram.length≤kMaxCaptureDatagramSize) →
      parseDownstream a.datagram=.ok p → q∈packetsOf ds → q.session≠p.session →
      Refuses capture ds a (.threw (.decodeError "MoldUDP64 session changed unexpectedly"))
  -- every number has arrived
  | exhausted {p : MoldDownstreamPacket} {x : Abort} : Framed capture ds a.datagram p →
      (∀ s, 1 ≤ s → firstPayload (carried (ds++[a.datagram])) s≠none) →
      x=.threw RecoveryEngine.exhausted ∨ x=.undefined → Refuses capture ds a x
  -- a rerequest is called for, and sending it fails
  | unsent {p : MoldDownstreamPacket} {what : String} : Framed capture ds a.datagram p →
      RecoveryEngine.ShowsMore 1 (packetsOf ds) p → a.sendFails=some what →
      Refuses capture ds a (.threw (.runtimeError what))
  -- the first message in sequence that does not decode
  | undecodable {p : MoldDownstreamPacket} {s missing : Sequence} {payload : Bytes} {e : Thrown} :
      Framed capture ds a.datagram p →
      (RecoveryEngine.ShowsMore 1 (packetsOf ds) p → a.sendFails=none) → 1 ≤ missing →
      firstPayload (carried (ds++[a.datagram])) missing=none → 1 ≤ s →
      firstPayload (carried (ds++[a.datagram])) s=some payload →
      ItchDecoder.decodeBookEvent payload=.error e →
      (∀ t, 1 ≤ t → t<s → ∃ payload', firstPayload (carried (ds++[a.datagram])) t=some payload' ∧
        (ItchDecoder.decodeBookEvent payload').isOk) →
      Refuses capture ds a (.threw e)

def Arrival.Stops (a : Arrival) : Prop := a.datagram=[] ∧ a.stopRequested

def EndsSession (d : Bytes) : Prop := ∃ p, parseDownstream d=.ok p ∧ p.endOfSession=true

/-- An arrival behind `ds` that ends the loop, in one way or another. -/
def Halts (capture : Bool) (ds : List Bytes) (a : Arrival) : Prop :=
  a.Stops ∨ (∃ x, Refuses capture ds a x) ∨ EndsSession a.datagram

/-- Arrivals behind `ds` that the loop takes, to wait for more. -/
def Waits (capture : Bool) (ds : List Bytes) : List Arrival → Prop
  | [] => True
  | a::rest => ¬Halts capture ds a ∧ Waits capture (ds++[a.datagram]) rest

/-- The book of what has arrived: the first payload under each number, up to the first number
that is missing. -/
def Shows (b : OrderBook) (ds : List Bytes) (book : OrderBook) : Prop :=
  ∃ next released, Delivered 1 (carried ds) next released ∧
    firstPayload (carried ds) next=none ∧ book=b.run (released.filterMap decoded)

/-- How the loop ends on arrivals behind `ds`. -/
inductive Ends (b : OrderBook) (capture : Bool) (ds : List Bytes) (arrivals : List Arrival) :
    Except Abort (Listener×ListenEnd) → Prop where
  | waiting {l : Listener} : Waits capture ds arrivals →
      Shows b (ds++arrivals.map Arrival.datagram) l.pipeline.book →
      Ends b capture ds arrivals (.ok (l,.waiting))
  | stopped {l : Listener} {a : Arrival} {taken rest : List Arrival} :
      arrivals=taken++a::rest → Waits capture ds taken → a.Stops →
      Shows b (ds++taken.map Arrival.datagram) l.pipeline.book →
      Ends b capture ds arrivals (.ok (l,.stopped))
  | ended {l : Listener} {a : Arrival} {taken rest : List Arrival} :
      arrivals=taken++a::rest → Waits capture ds taken → ¬a.Stops →
      (∀ x, ¬Refuses capture (ds++taken.map Arrival.datagram) a x) →
      EndsSession a.datagram →
      Shows b (ds++(taken++[a]).map Arrival.datagram) l.pipeline.book →
      Ends b capture ds arrivals (.ok (l,.endOfSession l.pipeline.book.stateHash))
  | failed {x : Abort} {a : Arrival} {taken rest : List Arrival} :
      arrivals=taken++a::rest → Waits capture ds taken → ¬a.Stops →
      Refuses capture (ds++taken.map Arrival.datagram) a x →
      Ends b capture ds arrivals (.error x)

section Waits
variable {capture : Bool} {ds : List Bytes} {a a' : Arrival}
  {taken taken' rest rest' : List Arrival}

theorem Waits.not_halts (h : Waits capture ds (taken++a::rest)) :
    ¬Halts capture (ds++taken.map Arrival.datagram) a := by
  induction taken generalizing ds with
  | nil =>
    rw [List.map_nil,List.append_nil]
    exact h.1
  | cons a1 more ih =>
    have hmore := ih h.2
    rwa [List.append_assoc,List.singleton_append] at hmore

/-- There is one place where the loop can end. -/
theorem Waits.unique (h : Waits capture ds taken) (h' : Waits capture ds taken')
    (ha : Halts capture (ds++taken.map Arrival.datagram) a)
    (ha' : Halts capture (ds++taken'.map Arrival.datagram) a')
    (he : taken++a::rest=taken'++a'::rest') : taken=taken' ∧ a=a' ∧ rest=rest' := by
  obtain ⟨more,rfl,hmore⟩ | ⟨more,rfl,hmore⟩ := List.append_eq_append_iff.mp he
  · cases more with
    | nil => exact ⟨(List.append_nil _).symm,List.cons.inj hmore⟩
    | cons a1 more =>
      obtain ⟨rfl,-⟩ := List.cons.inj hmore
      exact absurd ha h'.not_halts
  · cases more with
    | nil => exact ⟨List.append_nil _,(List.cons.inj hmore).imp Eq.symm Eq.symm⟩
    | cons a1 more =>
      obtain ⟨rfl,-⟩ := List.cons.inj hmore
      exact absurd ha' h.not_halts

end Waits

/-- A datagram that is taken before the others. -/
theorem Ends.cons {b : OrderBook} {capture : Bool} {ds : List Bytes} {a : Arrival}
    {rest : List Arrival} {out : Except Abort (Listener×ListenEnd)}
    (h : Ends b capture (ds++[a.datagram]) rest out) (ha : ¬Halts capture ds a) :
    Ends b capture ds (a::rest) out := by
  have hwaits (taken : List Arrival) (hw : Waits capture (ds++[a.datagram]) taken) :
      Waits capture ds (a::taken) := ⟨ha,hw⟩
  have hassoc (as : List Arrival) : ds++[a.datagram]++as.map Arrival.datagram=
      ds++(a::as).map Arrival.datagram := by simp
  cases h with
  | waiting hw hshows => exact .waiting (hwaits _ hw) (hassoc rest ▸ hshows)
  | stopped hsplit hw hstop hshows =>
    exact .stopped (congrArg (a::·) hsplit) (hwaits _ hw) hstop (hassoc _ ▸ hshows)
  | ended hsplit hw hgo hnot hend hshows =>
    exact .ended (congrArg (a::·) hsplit) (hwaits _ hw) hgo (hassoc _ ▸ hnot) hend
      (hassoc _ ▸ hshows)
  | failed hsplit hw hgo hx =>
    exact .failed (congrArg (a::·) hsplit) (hwaits _ hw) hgo (hassoc _ ▸ hx)

theorem Delivered.exists_mem {s0 expected : Sequence} {l ready : List MoldMessage}
    (h : Delivered s0 l expected ready) {s : Sequence} (h1 : s0 ≤ s) (h2 : s<expected) :
    ∃ m∈ready, m.sequence=s := by
  rw [UInt64.le_iff_toNat_le] at h1
  rw [UInt64.lt_iff_toNat_lt] at h2
  have hm : s.toNat∈ready.map fun m => m.sequence.toNat := by
    rw [h.order,List.mem_range'_1]
    omega
  obtain ⟨m,hmem,he⟩ := List.mem_map.mp hm
  exact ⟨m,hmem,UInt64.toNat_inj.mp he⟩

/-- What is released before a message has the smaller numbers. -/
theorem Delivered.exists_before {s0 expected : Sequence} {l before after : List MoldMessage}
    {m : MoldMessage} (h : Delivered s0 l expected (before++m::after)) {s : Sequence}
    (h1 : s0 ≤ s) (h2 : s < m.sequence) : ∃ m'∈before, m'.sequence=s := by
  have hm : m∈before++m::after := by simp
  obtain ⟨m',hm',hs⟩ := h.exists_mem h1 (UInt64.lt_trans h2 (h.lt hm))
  have hsorted : (before++m::after).Pairwise fun x y => x.sequence.toNat<y.sequence.toNat := by
    have hrange := List.pairwise_lt_range' (s := s0.toNat) (n := expected.toNat-s0.toNat)
    rw [← h.order,List.pairwise_map] at hrange
    exact hrange
  rw [UInt64.lt_iff_toNat_lt,← hs] at h2
  obtain hbefore | hafter := List.mem_append.mp hm'
  · exact ⟨m',hbefore,hs⟩
  · obtain rfl | hafter := List.mem_cons.mp hafter
    · omega
    · have hlt := (List.pairwise_cons.mp (List.pairwise_append.mp hsorted).2.1).1 m' hafter
      omega

namespace RecoveryEngine
variable {e e' : RecoveryEngine} {r r' : Result} {fault : Fault}

theorem drainLoop_kind {n : Nat} (h : drainLoop n e r=(e',r',some fault)) :
    fault=.erasedTwice := by
  induction n generalizing e r with
  | zero => cases h
  | succ n ih =>
    obtain ⟨-,heq⟩ | ⟨payload,-,-,heq⟩ | ⟨payload,-,-,heq⟩ := drainLoop_cases n e r
    · rw [heq] at h
      cases h
    · rw [heq] at h
      cases h
      rfl
    · rw [heq] at h
      exact ih h

/-- Messages fail in two ways. -/
theorem ingestMessages_kind {ms : List MoldMessage}
    (h : e.ingestMessages r ms=(e',r',some fault)) :
    fault=.threw exhausted ∨ fault=.erasedTwice := by
  induction ms generalizing e r with
  | nil => cases h
  | cons m rest ih =>
    obtain ⟨e1,r1,-,h⟩ | ⟨-,hm⟩ := ingestMessages_cons h
    · exact ih h
    obtain ⟨-,heq⟩ | ⟨-,-,heq⟩ | ⟨-,-,heq⟩ | ⟨-,heq⟩ := ingestMessage_cases e r m
    · rw [heq] at hm
      cases hm
    · rw [heq] at hm
      cases hm
      exact .inl rfl
    · rw [heq] at hm
      obtain ⟨e1,hl,-⟩ := drain_cases hm
      exact .inr (drainLoop_kind hl)
    · rw [heq] at hm
      cases hm

end RecoveryEngine

/-- Released messages fail at the first that does not decode. -/
theorem Pipeline.foldlM_handle_first {b : OrderBook} {L : Ledger} {ready : List MoldMessage}
    {x : Abort} (h : Rep b L) (he : ready.foldlM handle b=.error x) :
    ∃ before m after e, ready=before++m::after ∧
      (∀ m'∈before, (ItchDecoder.decodeBookEvent m'.payload).isOk) ∧
      ItchDecoder.decodeBookEvent m.payload=.error e ∧ x=.threw e := by
  induction ready generalizing b L with
  | nil => cases he
  | cons m rest ih =>
    rw [List.foldlM_cons] at he
    obtain hm | ⟨b1,hm,he⟩ := bind_eq_error.mp he
    · cases hd : ItchDecoder.decodeBookEvent m.payload with
      | error e =>
        rw [handle,hd] at hm
        cases hm
        exact ⟨[],m,rest,e,rfl,by simp,hd,rfl⟩
      | ok event =>
        rw [handle_eq h (by rw [hd]; rfl)] at hm
        cases hm
    · obtain ⟨hd,rfl⟩ := handle_inv hm
      obtain ⟨before,m',after,e,rfl,hbefore,he,hx⟩ := ih (h.run _) he
      exact ⟨m::before,m',after,e,rfl,List.forall_mem_cons.mpr ⟨hd,hbefore⟩,he,hx⟩

namespace Listener
variable {l l' : Listener} {a : Arrival} {r : Result}

theorem receive_capture (h : l.receive a=.ok (l',r)) : l'.capture.isSome=l.capture.isSome := by
  obtain ⟨capture,hrec,h⟩ := bind_eq_ok.mp h
  obtain ⟨_,-,h⟩ := bind_eq_ok.mp h
  obtain ⟨_,-,h⟩ := bind_eq_ok.mp h
  obtain ⟨_,-,h⟩ := bind_eq_ok.mp h
  cases h
  unfold record at hrec
  cases hc : l.capture with
  | none =>
    rw [hc] at hrec
    cases hrec
    rfl
  | some w =>
    rw [hc] at hrec
    obtain ⟨w',-,rfl⟩ := map_eq_ok.mp hrec
    rfl

/-- The capture refuses a datagram for its size alone. -/
theorem record_error {x : Abort} (h : l.record a=.error x) : l.capture.isSome=true ∧
    kMaxCaptureDatagramSize<a.datagram.length ∧
    x=.threw (.runtimeError "capture datagram too large") := by
  unfold record at h
  cases hc : l.capture with
  | none =>
    rw [hc] at h
    cases h
  | some w =>
    rw [hc] at h
    dsimp only at h
    by_cases hlong : a.datagram.length>kMaxCaptureDatagramSize
    · rw [CaptureWriter.write,if_pos hlong] at h
      cases h
      exact ⟨rfl,hlong,rfl⟩
    · rw [CaptureWriter.write,if_neg hlong] at h
      cases h

end Listener

/-- A listener behind the datagrams `ds`. -/
structure Heard (b : OrderBook) (capture : Bool) (ds : List Bytes) (l : Listener) : Prop where
  applied : ∃ released, InOrder 1 (carried ds) l.pipeline.recovery released ∧
    l.pipeline.book=b.run (released.filterMap decoded) ∧
    ∀ m∈released, (ItchDecoder.decodeBookEvent m.payload).isOk
  session : ∀ s, l.pipeline.recovery.session=some s ↔ ∃ q∈packetsOf ds, q.session=s
  capture : l.capture.isSome=capture
  called : ∃ calls, RecoveryEngine.Calls 1 calls l.pipeline.recovery ∧
    RecoveryEngine.packetsOf calls=packetsOf ds

namespace Heard
variable {b : OrderBook} {L : Ledger} {capture : Bool} {ds : List Bytes} {l l' : Listener}
  {a : Arrival} {r : Result} {p : MoldDownstreamPacket} {recovery : RecoveryEngine}

theorem shows (h : Heard b capture ds l) : Shows b ds l.pipeline.book := by
  obtain ⟨released,hi,hbook,-⟩ := h.applied
  exact ⟨_,released,hi.delivered,hi.next,hbook⟩

theorem carried_snoc {d : Bytes} (hp : parseDownstream d=.ok p) :
    carried (ds++[d])=carried ds++received [p] := by
  rw [carried_append]
  simp [carried,packetsOf,hp,Except.toOption]

theorem packetsOf_snoc {d : Bytes} (hp : parseDownstream d=.ok p) :
    packetsOf (ds++[d])=packetsOf ds++[p] := by
  simp [packetsOf,hp,Except.toOption]

/-- The engine is open to a packet of the session heard so far. -/
theorem open_iff (h : Heard b capture ds l) :
    (l.pipeline.recovery.session=none ∨ l.pipeline.recovery.session=some p.session) ↔
      ∀ q∈packetsOf ds, q.session=p.session := by
  constructor
  · intro hopen q hq
    have hs := (h.session q.session).mpr ⟨q,hq,rfl⟩
    obtain hnone | hsome := hopen
    · rw [hnone] at hs
      cases hs
    · rw [hs] at hsome
      exact Option.some.inj hsome
  · intro hall
    cases hs : l.pipeline.recovery.session with
    | none => exact .inl rfl
    | some s =>
      obtain ⟨q,hq,rfl⟩ := (h.session s).mp hs
      exact .inr (congrArg some (hall q hq))

/-- What the engine has released is what has arrived in sequence. -/
theorem framed (h : Heard b capture ds l)
    (hsize : capture=true → a.datagram.length≤kMaxCaptureDatagramSize)
    (hp : parseDownstream a.datagram=.ok p) (hi : l.pipeline.recovery.ingest p=(recovery,.ok r)) :
    Framed capture ds a.datagram p ∧ ∀ released,
      InOrder 1 (carried ds) l.pipeline.recovery released →
      InOrder 1 (carried (ds++[a.datagram])) recovery (released++r.ready) := by
  refine ⟨⟨hsize,hp,h.open_iff.mp (RecoveryEngine.ingest_ok hi).1⟩,fun released ho => ?_⟩
  rw [carried_snoc hp]
  exact RecoveryEngine.ingest_spec ho hi

/-- Whether a rerequest is called for. -/
theorem asks (h : Heard b capture ds l) (hi : l.pipeline.recovery.ingest p=(recovery,.ok r)) :
    (∃ q, r.request=some q) ↔ RecoveryEngine.ShowsMore 1 (packetsOf ds) p := by
  obtain ⟨calls,hcalls,hpackets⟩ := h.called
  have hnext : RecoveryEngine.Calls 1 (calls++⟨p,recovery,r⟩::[]) recovery := .call p hcalls hi
  rw [← hpackets]
  exact hnext.asks (by decide)

/-- A rerequest that was called for has been sent. -/
theorem sendFails_of_asks (h : Heard b capture ds l) {sent sent' : List Bytes}
    (hi : l.pipeline.recovery.ingest p=(recovery,.ok r))
    (hsent : Listener.rerequest a.sendFails recovery r sent=.ok sent')
    (hasks : RecoveryEngine.ShowsMore 1 (packetsOf ds) p) : a.sendFails=none := by
  obtain ⟨q,hq⟩ := (h.asks hi).mpr hasks
  obtain ⟨hnone,-⟩ | ⟨_,_,_,-,-,-,he⟩ := Listener.rerequest_cases a.sendFails recovery sent
    (RecoveryEngine.ingest_result hi).1
  · rw [hq,RecoveryEngine.ingest_session hi] at hnone
    simp at hnone
  · rw [he] at hsent
    cases hf : a.sendFails with
    | none => rfl
    | some what =>
      rw [hf] at hsent
      cases hsent

/-- A datagram that the loop takes is not refused. -/
theorem taken (h : Heard b capture ds l) (hr : l.receive a=.ok (l',r)) :
    (∀ x, ¬Refuses capture ds a x) ∧ Heard b capture (ds++[a.datagram]) l' ∧
      (r.endOfSession=true ↔ EndsSession a.datagram) := by
  obtain ⟨hprocess,ht⟩ := Listener.receive_inv hr
  obtain ⟨p,hp,hi,hfold⟩ := Pipeline.processPacket_inv hprocess
  obtain ⟨hready,hbook'⟩ := Pipeline.foldlM_handle_inv hfold
  obtain ⟨released,ho,hbook,hdecodes⟩ := h.applied
  have hsize : capture=true → a.datagram.length≤kMaxCaptureDatagramSize := fun hc => by
    obtain ⟨w,hw⟩ := Option.isSome_iff_exists.mp (h.capture.trans hc)
    exact (ht.capture w hw).1 a (by simp)
  obtain ⟨hframed,hnext⟩ := h.framed hsize hp hi
  have ho' := hnext released ho
  have hall : ∀ m∈released++r.ready, (ItchDecoder.decodeBookEvent m.payload).isOk :=
    List.forall_mem_append.mpr ⟨hdecodes,hready⟩
  refine ⟨fun x hx => ?_,⟨⟨_,ho',?_,hall⟩,fun s => ?_,?_,?_⟩,?_⟩
  · cases hx with
    | tooLarge hc hlong => exact absurd (hsize hc) (Nat.not_le.mpr hlong)
    | malformed _ hbad =>
      rw [hp] at hbad
      cases hbad
    | otherSession _ hq hmem hne =>
      rw [hp] at hq
      cases hq
      exact hne (hframed.session _ hmem)
    | exhausted _ hfull _ => exact hfull _ ho'.delivered.start_le ho'.next
    | unsent hf hasks hfails =>
      obtain ⟨_,_,-,hsent⟩ := Listener.receive_parts hr
      obtain rfl := Except.ok.inj (hp.symm.trans hf.parses)
      rw [h.sendFails_of_asks hi hsent hasks] at hfails
      cases hfails
    | @undecodable _ s _ payload _ _ _ _ _ hs1 hs hbad hbelow =>
      -- the number has been released, for all below it have arrived
      have hlt : s<l'.pipeline.recovery.expected := UInt64.not_le.mp fun hle => by
        have hnone := ho'.next
        obtain heq | hlt := UInt64.le_iff_lt_or_eq.mp hle |>.symm
        · rw [heq,hs] at hnone
          cases hnone
        · obtain ⟨payload',hsome,-⟩ := hbelow _ ho'.delivered.start_le hlt
          rw [hsome] at hnone
          cases hnone
      obtain ⟨m,hm,hseq⟩ := ho'.delivered.exists_mem hs1 hlt
      have hpayload := ho'.delivered.payload m hm
      rw [hseq,hs] at hpayload
      have hok := hall m hm
      rw [← Option.some.inj hpayload,hbad] at hok
      cases hok
  · rw [hbook',hbook,List.filterMap_append,OrderBook.run,OrderBook.run,OrderBook.run,
      List.foldl_append]
  · rw [RecoveryEngine.ingest_session hi,packetsOf_snoc hp]
    constructor
    · intro hs
      exact ⟨p,by simp,Option.some.inj hs⟩
    · rintro ⟨q,hq,rfl⟩
      obtain hq | hq := List.mem_append.mp hq
      · exact congrArg some (hframed.session q hq).symm
      · rw [List.mem_singleton.mp hq]
  · exact (Listener.receive_capture hr).trans h.capture
  · obtain ⟨calls,hcalls,hpackets⟩ := h.called
    refine ⟨_,.call p hcalls hi,?_⟩
    rw [RecoveryEngine.packetsOf_snoc,hpackets,packetsOf_snoc hp]
  · rw [(RecoveryEngine.ingest_result hi).2]
    constructor
    · exact fun he => ⟨p,hp,he⟩
    · rintro ⟨q,hq,he⟩
      rw [hp] at hq
      cases hq
      exact he

theorem refused_ingest {x : Abort} (h : Heard b capture ds l)
    (hsize : capture=true → a.datagram.length≤kMaxCaptureDatagramSize)
    (hx : l.pipeline.ingest a.datagram=.error x) : Refuses capture ds a x := by
  unfold Pipeline.ingest at hx
  cases hp : parseDownstream a.datagram with
  | error e =>
    rw [hp] at hx
    cases hx
    obtain ⟨what,rfl⟩ := OnlyDecodeErrors.downstream _ e hp
    exact .malformed hsize hp
  | ok p =>
    rw [hp] at hx
    cases hi : l.pipeline.recovery.ingest p with
    | mk recovery out =>
      cases out with
      | ok r =>
        simp only [hi] at hx
        cases hx
      | error fault =>
        simp only [hi] at hx
        cases hx
        obtain ⟨released,ho,-,-⟩ := h.applied
        obtain ⟨hnone,hsome,-,-⟩ | ⟨hopen,r2,hm⟩ := RecoveryEngine.ingest_error hi
        · rw [RecoveryEngine.ingest_other hnone hsome] at hi
          cases hi
          have hother : ¬∀ q∈packetsOf ds, q.session=p.session := fun hall =>
            not_or.mpr ⟨hnone,hsome⟩ (h.open_iff.mpr hall)
          push Not at hother
          obtain ⟨q,hq,hne⟩ := hother
          exact .otherSession hsize hp hq hne
        · have ho1 : InOrder 1 (carried ds) { l.pipeline.recovery with session := some p.session }
              (released++Result.ready {}) := by
            rw [List.append_nil]
            exact RecoveryEngine.inOrder_congr ho rfl rfl
          obtain ⟨-,hfull,-⟩ := RecoveryEngine.ingestMessages_fault ho1 hm
          rw [← carried_snoc hp] at hfull
          refine .exhausted ⟨hsize,hp,h.open_iff.mp hopen⟩ hfull ?_
          obtain rfl | rfl := RecoveryEngine.ingestMessages_kind hm
          · exact .inl rfl
          · exact .inr rfl

theorem refused_send {x : Abort} (h : Heard b capture ds l)
    (hsize : capture=true → a.datagram.length≤kMaxCaptureDatagramSize)
    (hin : l.pipeline.ingest a.datagram=.ok (recovery,r))
    (hx : Listener.rerequest a.sendFails recovery r l.sent=.error x) : Refuses capture ds a x := by
  obtain ⟨p,hp,hi⟩ := Pipeline.ingest_inv hin
  obtain ⟨what,q,hfails,rfl,hq⟩ := Listener.rerequest_error (Listener.ingest_valid hin) hx
  exact .unsent (h.framed hsize hp hi).1 ((h.asks hi).mp ⟨q,hq⟩) hfails

theorem refused_handle {x : Abort} {sent : List Bytes} (h : Heard b capture ds l) (hb : Rep b L)
    (hsize : capture=true → a.datagram.length≤kMaxCaptureDatagramSize)
    (hin : l.pipeline.ingest a.datagram=.ok (recovery,r))
    (hsent : Listener.rerequest a.sendFails recovery r l.sent=.ok sent)
    (hx : r.ready.foldlM Pipeline.handle l.pipeline.book=.error x) :
    Refuses capture ds a x := by
  obtain ⟨p,hp,hi⟩ := Pipeline.ingest_inv hin
  obtain ⟨released,ho,hbook,hdecodes⟩ := h.applied
  obtain ⟨hframed,hnext⟩ := h.framed hsize hp hi
  have ho' := hnext released ho
  rw [hbook] at hx
  obtain ⟨before,m,after,e,hready,hbefore,hbad,rfl⟩ := Pipeline.foldlM_handle_first (hb.run _) hx
  rw [hready,← List.append_assoc] at ho'
  have hm : m∈released++before++m::after := by simp
  have hstart : 1 ≤ m.sequence := by
    have hnumber : m.sequence.toNat∈(released++before++m::after).map fun m => m.sequence.toNat :=
      List.mem_map_of_mem hm
    rw [ho'.delivered.order,List.mem_range'_1] at hnumber
    exact UInt64.le_iff_toNat_le.mpr hnumber.1
  refine .undecodable hframed (h.sendFails_of_asks hi hsent) ho'.delivered.start_le ho'.next hstart
    (ho'.delivered.payload m hm) hbad fun t h1 hlt => ?_
  obtain ⟨m',hm',rfl⟩ := ho'.delivered.exists_before h1 hlt
  exact ⟨m'.payload,ho'.delivered.payload m' (List.mem_append_left _ hm'),
    List.forall_mem_append.mpr ⟨hdecodes,hbefore⟩ m' hm'⟩

/-- A datagram that the loop fails on is refused. -/
theorem refused {x : Abort} (h : Heard b capture ds l) (hb : Rep b L)
    (hx : l.receive a=.error x) : Refuses capture ds a x := by
  obtain hx | ⟨_,hrec,hx⟩ := bind_eq_error.mp hx
  · obtain ⟨hc,hlong,rfl⟩ := Listener.record_error hx
    exact .tooLarge (h.capture.symm.trans hc) hlong
  have hsize : capture=true → a.datagram.length≤kMaxCaptureDatagramSize := fun hc => by
    obtain ⟨w,hw⟩ := Option.isSome_iff_exists.mp (h.capture.trans hc)
    rw [Listener.record,hw] at hrec
    obtain ⟨w',hw',-⟩ := map_eq_ok.mp hrec
    exact (CaptureWriter.write_ok (mapError_ok.mp hw')).1
  obtain hx | ⟨⟨recovery,r⟩,hin,hx⟩ := bind_eq_error.mp hx
  · exact h.refused_ingest hsize hx
  obtain hx | ⟨_,hsent,hx⟩ := bind_eq_error.mp hx
  · exact h.refused_send hsize hin hx
  obtain hx | ⟨_,-,hx⟩ := bind_eq_error.mp hx
  · exact h.refused_handle hb hsize hin hsent hx
  · cases hx

theorem loop (h : Heard b capture ds l) (hb : Rep b L) (arrivals : List Arrival) :
    Ends b capture ds arrivals (l.loop arrivals) := by
  induction arrivals generalizing l ds with
  | nil => exact .waiting trivial (by rw [List.map_nil,List.append_nil]; exact h.shows)
  | cons a rest ih =>
    by_cases hs : a.datagram=[] ∧ a.stopRequested
    · rw [Listener.loop,if_pos hs]
      exact .stopped (List.nil_append _).symm trivial hs
        (by rw [List.map_nil,List.append_nil]; exact h.shows)
    cases hr : l.receive a with
    | error x =>
      rw [Listener.loop,if_neg hs,hr]
      exact .failed (List.nil_append _).symm trivial hs
        (by rw [List.map_nil,List.append_nil]; exact h.refused hb hr)
    | ok out =>
      obtain ⟨l1,r⟩ := out
      obtain ⟨hnot,h1,hend⟩ := h.taken hr
      cases he : r.endOfSession with
      | true =>
        rw [Listener.loop_ends hs hr he]
        refine .ended (List.nil_append _).symm trivial hs ?_ (hend.mp he) h1.shows
        rw [List.map_nil,List.append_nil]
        exact hnot
      | false =>
        rw [Listener.loop_next hs hr he]
        have hon : ¬EndsSession a.datagram := fun hends => by
          rw [hend.mpr hends] at he
          cases he
        exact (ih h1).cons (not_or.mpr ⟨hs,not_or.mpr ⟨not_exists.mpr hnot,hon⟩⟩)

end Heard

/-- The live command on any arrivals at all. It fails exactly if it takes some of them and the next
is refused. -/
theorem listen_any {n : Nat} {b : OrderBook} (hb : OrderBook.create n=.ok b) (capture : Bool)
    (arrivals : List Arrival) : Ends b capture [] arrivals (listenWith n capture arrivals) ∧
      ((∃ x, listenWith n capture arrivals=.error x) ↔ ∃ taken a rest x,
        arrivals=taken++a::rest ∧ Waits capture [] taken ∧ ¬a.Stops ∧
        Refuses capture (taken.map Arrival.datagram) a x) := by
  have hstart : Heard b capture [] ⟨⟨{ expected := 1 },b⟩,
      if capture then some CaptureWriter.create else none,[]⟩ := by
    refine ⟨⟨[],RecoveryEngine.inOrder_start 1,rfl,by simp⟩,fun s => ?_,by cases capture <;> rfl,
      [],.start,rfl⟩
    simp [packetsOf]
  have hends : Ends b capture [] arrivals (listenWith n capture arrivals) := by
    rw [listenWith,hb]
    exact hstart.loop (OrderBook.create_rep hb) arrivals
  refine ⟨hends,?_,?_⟩
  · rintro ⟨x,hx⟩
    rw [hx] at hends
    cases hends with
    | failed hsplit hw hs hr => exact ⟨_,_,_,x,hsplit,hw,hs,hr⟩
  · rintro ⟨taken,a,rest,x,hsplit,hw,hs,hr⟩
    have hhalts : Halts capture ([]++taken.map Arrival.datagram) a := .inr (.inl ⟨x,hr⟩)
    generalize listenWith n capture arrivals=out at hends
    cases hends with
    | waiting hall =>
      rw [hsplit] at hall
      exact absurd hhalts hall.not_halts
    | stopped hsplit' hw' hs' =>
      obtain ⟨-,rfl,-⟩ := hw.unique hw' hhalts (.inl hs') (hsplit.symm.trans hsplit')
      exact absurd hs' hs
    | ended hsplit' hw' _ hnot hend =>
      obtain ⟨rfl,rfl,-⟩ := hw.unique hw' hhalts (.inr (.inr hend)) (hsplit.symm.trans hsplit')
      exact absurd hr (hnot x)
    | @failed x' => exact ⟨x',rfl⟩

/-- The demo's second packet, and a host that is no address. -/
def demoUnsent : Arrival :=
  ⟨false,0,moldPacket (text "DEMO") 3 [cancelMsg 10 25],some "invalid rerequest host"⟩

/-- It makes the loop send, so it is refused; if the host were an address it would be taken. -/
theorem listen_any_unsent :
    listenWith 8 true [demoUnsent]=.error (.threw (.runtimeError "invalid rerequest host")) ∧
    Refuses true [] demoUnsent (.threw (.runtimeError "invalid rerequest host")) ∧
    Waits true [] [{ demoUnsent with sendFails := none }] := by
  obtain ⟨b,hb⟩ := OrderBook.create_isOk (n := 8) (by decide) (by decide)
  have hfails : listenWith 8 true [demoUnsent]=
      .error (.threw (.runtimeError "invalid rerequest host")) := by decide +kernel
  have hwaits : (listenWith 8 true [{ demoUnsent with sendFails := none }]).map Prod.snd=
      .ok .waiting := by decide +kernel
  have hends := (listen_any hb true [demoUnsent]).1
  have hends' := (listen_any hb true [{ demoUnsent with sendFails := none }]).1
  refine ⟨hfails,?_,?_⟩
  · rw [hfails] at hends
    cases hends with
    | @failed _ a taken rest hsplit _ _ hr =>
      obtain ⟨rfl,hcons⟩ | ⟨-,hnil⟩ := List.singleton_eq_append_iff.mp hsplit
      · obtain ⟨rfl,-⟩ := List.cons.inj hcons
        exact hr
      · cases hnil
  · obtain ⟨⟨l,out⟩,hl,rfl⟩ := map_eq_ok.mp hwaits
    rw [hl] at hends'
    cases hends' with
    | waiting hw => exact hw

end MarketWire
