import MarketWire.SessionEnd
import MarketWire.ListenCalls
import MarketWire.RecoveryProgress

/-! One publisher and its listeners. A feed numbers its messages from 1 on. Whatever a network does
with datagrams that tell nothing but the feed, a listener has applied the beginning of the feed, and
it asks only for messages that were published. -/
namespace MarketWire
open Library MoldUdp64

/-- What is published in one session. -/
structure Feed where
  session : Session
  payloads : List Bytes
  bounded : payloads.length<2^64-1
  decodes : ∀ payload∈payloads, (ItchDecoder.decodeBookEvent payload).isOk

namespace Feed

/-- The messages 1, 2, … of the feed. -/
def messages (f : Feed) : List MoldMessage := numbered 1 0 f.payloads

/-- A packet that tells nothing but the feed: its messages, or how far it has come. -/
structure Tells (f : Feed) (p : MoldDownstreamPacket) : Prop where
  session : p.session=f.session
  messages : ∀ m∈received [p], m∈f.messages
  announced : (p.heartbeat || p.endOfSession)=true → p.firstSequence.toNat≤f.payloads.length+1

/-- An arrival that can be captured and parses to such a packet. -/
structure Brings (f : Feed) (a : Arrival) : Prop where
  size : a.datagram.length≤kMaxCaptureDatagramSize
  tells : ∃ p, parseDownstream a.datagram=.ok p ∧ f.Tells p

instance (f : Feed) (p : MoldDownstreamPacket) : Decidable (f.Tells p) :=
  decidable_of_iff (p.session=f.session ∧ (∀ m∈received [p], m∈f.messages) ∧
      ((p.heartbeat || p.endOfSession)=true → p.firstSequence.toNat≤f.payloads.length+1))
    ⟨fun h => ⟨h.1,h.2.1,h.2.2⟩,fun h => ⟨h.session,h.messages,h.announced⟩⟩

instance (f : Feed) (a : Arrival) : Decidable (f.Brings a) :=
  decidable_of_iff (a.datagram.length≤kMaxCaptureDatagramSize ∧
      ∃ p∈(parseDownstream a.datagram).toOption, f.Tells p)
    ⟨fun ⟨h,p,hp,ht⟩ => ⟨h,p,toOption_eq_some.mp hp,ht⟩,
      fun ⟨h,p,hp,ht⟩ => ⟨h,p,toOption_eq_some.mpr hp,ht⟩⟩

/-- A datagram that asks for published messages. -/
def Asks (f : Feed) (out : Bytes) : Prop :=
  ∃ first count, encodeRequest ⟨f.session,first,count⟩=.ok out ∧ 1≤first.toNat ∧
    1≤count.toNat ∧ first.toNat+count.toNat≤f.payloads.length+1

section Messages
variable (f : Feed)

theorem messages_pairs : (f.messages.map fun m => (m.sequence.toNat,m.payload))=
    f.payloads.zipIdx.map fun e => (1+e.2,e.1) := by
  have hb := f.bounded
  exact numbered_map (by rw [UInt64.toNat_one]; omega)

theorem messages_sequences :
    (f.messages.map fun m => m.sequence.toNat)=List.range' 1 f.payloads.length := by
  have h := congrArg (List.map Prod.fst) f.messages_pairs
  rw [List.map_map,List.map_map] at h
  refine h.trans ?_
  rw [show (Prod.fst ∘ fun e : Bytes×Nat => (1+e.2,e.1))=(1+·)∘Prod.snd from rfl,← List.map_map,
    List.zipIdx_map_snd,List.map_add_range']

variable {f} {m m' : MoldMessage}

theorem sequence_bounds (h : m∈f.messages) :
    1 ≤ m.sequence.toNat ∧ m.sequence.toNat≤f.payloads.length := by
  have hm : m.sequence.toNat∈f.messages.map fun m => m.sequence.toNat := List.mem_map_of_mem h
  rw [messages_sequences,List.mem_range'_1] at hm
  omega

theorem exists_message {s : Sequence} (h1 : 1 ≤ s.toNat) (h2 : s.toNat≤f.payloads.length) :
    ∃ m∈f.messages, m.sequence=s := by
  have hs : s.toNat∈f.messages.map fun m => m.sequence.toNat := by
    rw [messages_sequences,List.mem_range'_1]
    omega
  obtain ⟨m,hm,he⟩ := List.mem_map.mp hs
  exact ⟨m,hm,UInt64.toNat_inj.mp he⟩

/-- A number has one message. -/
theorem eq_of_sequence (h : m∈f.messages) (h' : m'∈f.messages) (hs : m.sequence=m'.sequence) :
    m=m' := by
  have hnodup : (f.messages.map fun m => m.sequence.toNat).Nodup := by
    rw [messages_sequences]
    exact List.nodup_range'
  exact List.inj_on_of_nodup_map hnodup h h' (congrArg UInt64.toNat hs)

theorem decodes_messages (h : m∈f.messages) : (ItchDecoder.decodeBookEvent m.payload).isOk := by
  refine f.decodes _ ?_
  rw [← numbered_payloads 1 0 f.payloads]
  exact List.mem_map_of_mem h

theorem below_max (h : m∈f.messages) : m.sequence≠sequenceMax := fun he => by
  have hb := f.bounded
  have hm := (sequence_bounds h).2
  rw [he,toNat_sequenceMax] at hm
  omega

/-- What is released from messages of the feed is its beginning. -/
theorem released_eq {arrived released : List MoldMessage} {e : RecoveryEngine}
    (h : InOrder 1 arrived e released) (ha : ∀ m∈arrived, m∈f.messages) :
    ∃ k≤f.payloads.length, e.expected.toNat=k+1 ∧ released=f.messages.take k := by
  have hle := UInt64.le_iff_toNat_le.mp h.delivered.start_le
  have horder := h.delivered.order
  rw [UInt64.toNat_one] at hle horder
  have hk : e.expected.toNat-1≤f.payloads.length := by
    by_contra hbeyond
    have hb := f.bounded
    obtain ⟨m,hm,hs⟩ := h.below (s := UInt64.ofNat (f.payloads.length+1))
      (UInt64.le_iff_toNat_le.mpr (by
        rw [UInt64.toNat_one,UInt64.toNat_ofNat_of_lt' (by simp only [UInt64.size]; omega)]
        omega))
      (UInt64.lt_iff_toNat_lt.mpr (by
        rw [UInt64.toNat_ofNat_of_lt' (by simp only [UInt64.size]; omega)]
        omega))
    have hm := (sequence_bounds (ha m hm)).2
    rw [hs,UInt64.toNat_ofNat_of_lt' (by simp only [UInt64.size]; omega)] at hm
    omega
  refine ⟨_,hk,by omega,Pipeline.released_unique (l := f.messages)
    (fun m hm m' hm' hs => by rw [eq_of_sequence hm hm' hs]) (fun m hm => ha m (h.mem m hm))
    (fun m hm => List.mem_of_mem_take hm) ?_⟩
  rw [horder,List.map_take,messages_sequences,List.take_range'_of_length_ge hk]

end Messages
/-! One step of a listener. -/

section Step
variable {f : Feed} {s0 : Sequence} {e e' : RecoveryEngine} {p : MoldDownstreamPacket} {r : Result}

/-- A call asks for numbers below the one that the packet shows. -/
theorem request_below (h : e.ingest p=(e',.ok r)) {q : GapRequest} (hq : r.request=some q) :
    q.first=e'.expected ∧ 1≤q.count.toNat ∧ q.first.toNat+q.count.toNat≤(e'.horizon p).toNat := by
  obtain ⟨-,e2,r2,hm,he',hr⟩ := RecoveryEngine.ingest_ok h
  have hr2 : r2.request=none := by
    have hf := RecoveryEngine.ingestMessages_frame { e with session := some p.session } {}
      (received [p])
    rw [hm] at hf
    exact hf.request
  obtain ⟨hexp,hpend,-⟩ := RecoveryEngine.maybeRequest_frame e2 r2 (e2.horizon p)
  rw [← he'] at hexp hpend
  rw [RecoveryEngine.horizon_congr hpend,hexp]
  have hreq : (e2.maybeRequest r2 (e2.horizon p)).2.request=some q := by
    rw [hr] at hq
    exact hq
  rcases RecoveryEngine.maybeRequest_cases e2 r2 (e2.horizon p) with
    ⟨he,-⟩ | ⟨count,last,hlt,-,hn,-,he⟩
  · rw [he,hr2] at hreq
    cases hreq
  · rw [he] at hreq
    cases hreq
    have hcap : RecoveryEngine.requestCap=0xFFFE := rfl
    dsimp only
    exact ⟨rfl,by omega,by omega⟩

/-- What a packet shows of the feed is at most the next number to be published. -/
theorem horizon_le {arrived released : List MoldMessage} (hi : InOrder 1 arrived e released)
    (ha : ∀ m∈arrived, m∈f.messages) (hp : f.Tells p) :
    (e.horizon p).toNat≤f.payloads.length+1 := by
  unfold RecoveryEngine.horizon
  split_ifs with hk
  · exact hp.announced hk
  · unfold RecoveryEngine.lowest
    cases hf : e.pending.first? with
    | none => exact Nat.zero_le _
    | some entry =>
      obtain ⟨-,m,hm,hs⟩ := hi.isSome_pending.mp
        (Option.isSome_iff_exists.mpr ⟨_,(SortedMap.first?_eq_some hf).1⟩)
      have hle := (sequence_bounds (ha m hm)).2
      rw [hs] at hle
      exact Nat.le_succ_of_le hle

theorem Tells.inSession (hp : f.Tells p) : InSession f.session p :=
  ⟨hp.session,fun m hm => below_max (hp.messages m hm)⟩

/-- A listener that has taken `arrived` from the feed. -/
structure Follows (f : Feed) (b : OrderBook) (arrived : List MoldMessage) (l : Listener) :
    Prop where
  told : ∀ m∈arrived, m∈f.messages
  opened : OpenFor f.session l.pipeline.recovery
  applied : ∃ released, InOrder 1 arrived l.pipeline.recovery released ∧
    l.pipeline.book=b.run (released.filterMap decoded)
  asked : ∀ out∈l.sent, f.Asks out

variable {b : OrderBook} {L : Ledger} {arrived : List MoldMessage} {l l' : Listener} {a : Arrival}
  {r : Result}

/-- Each datagram of the feed that is taken leaves the listener following. -/
theorem Follows.receive (h : Follows f b arrived l) (ha : f.Brings a)
    (hr : l.receive a=.ok (l',r)) : Follows f b (arrived++carried [a.datagram]) l' := by
  obtain ⟨p,hp,ht⟩ := ha.tells
  obtain ⟨ready,hi,hbook⟩ := h.applied
  obtain ⟨p',hp',hing,hsent⟩ := Listener.receive_parts hr
  cases hp.symm.trans hp'
  obtain ⟨p',hp',hing',hfold⟩ := Pipeline.processPacket_inv (Listener.receive_inv hr).1
  have hi' := RecoveryEngine.ingest_spec hi hing
  have hcarried : carried [a.datagram]=received [p] := by
    simp [carried,packetsOf,hp,Except.toOption]
  have htold : ∀ m∈arrived++received [p], m∈f.messages :=
    List.forall_mem_append.mpr ⟨h.told,ht.messages⟩
  have hopen : OpenFor f.session l'.pipeline.recovery := by
    obtain ⟨e',r',hing',hopen⟩ := RecoveryEngine.ingest_returns h.opened ht.inSession
    cases hing.symm.trans hing'
    exact hopen
  -- the request names published messages
  have hasked : ∀ out∈l'.sent, f.Asks out := by
    have hsession : l'.pipeline.recovery.session=some f.session :=
      (RecoveryEngine.ingest_session hing).trans (congrArg some ht.session)
    obtain ⟨-,hok⟩ | ⟨q,session,out,hq,hs,hout,he⟩ := Listener.rerequest_cases a.sendFails
      l'.pipeline.recovery l.sent (RecoveryEngine.ingest_result hing).1
    · rw [hsent] at hok
      rw [Except.ok.inj hok]
      exact h.asked
    · obtain rfl : f.session=session := Option.some.inj (hsession.symm.trans hs)
      rw [he] at hsent
      obtain ⟨hfirst,hpos,hlast⟩ := request_below hing hq
      rw [Listener.sendUnicast_ok hsent]
      refine List.forall_mem_append.mpr ⟨h.asked,List.forall_mem_singleton.mpr
        ⟨q.first,q.count,hout,?_,hpos,hlast.trans (horizon_le hi' htold ht)⟩⟩
      rw [hfirst]
      exact UInt64.le_iff_toNat_le.mp hi'.delivered.start_le
  rw [hcarried]
  refine ⟨htold,hopen,⟨_,hi',?_⟩,hasked⟩
  rw [(Pipeline.foldlM_handle_inv hfold).2,hbook,List.filterMap_append,OrderBook.run,
    OrderBook.run,OrderBook.run,List.foldl_append]

/-- Nothing but a send fails on a datagram of the feed. -/
theorem Follows.receive_ok (h : Follows f b arrived l) (hb : Rep b L) (ha : f.Brings a)
    (hsend : a.sendFails=none) : ∃ l' r, l.receive a=.ok (l',r) := by
  obtain ⟨p,hp,ht⟩ := ha.tells
  obtain ⟨ready,hi,hbook⟩ := h.applied
  obtain ⟨e',r,hing,-⟩ := RecoveryEngine.ingest_returns h.opened ht.inSession
  have hi' := RecoveryEngine.ingest_spec hi hing
  have hin : l.pipeline.ingest a.datagram=.ok (e',r) := by
    simp only [Pipeline.ingest,hp,hing]
  have hready : ∀ m∈r.ready, (ItchDecoder.decodeBookEvent m.payload).isOk := fun m hm =>
    decodes_messages (List.forall_mem_append.mpr ⟨h.told,ht.messages⟩ m
      (hi'.mem m (List.mem_append_right _ hm)))
  have hfold := Pipeline.foldlM_handle (hb.run (ready.filterMap decoded)) hready
  rw [← hbook] at hfold
  obtain ⟨l',hr,-⟩ := Listener.receive_of_process ha.size hsend
    (bind_eq_ok.mpr ⟨_,hin,bind_eq_ok.mpr ⟨_,hfold,rfl⟩⟩)
  exact ⟨l',r,hr⟩

/-- The loop over the feed's datagrams: it stops following at most because it is told to stop or
because the session ends. -/
theorem Follows.loop {arrivals : List Arrival} {out : ListenEnd} (h : Follows f b arrived l)
    (ha : ∀ a∈arrivals, f.Brings a) (hl : l.loop arrivals=.ok (l',out)) :
    ∃ taken rest, arrivals=taken++rest ∧ (out=.waiting → rest=[]) ∧
      Follows f b (arrived++carried (taken.map Arrival.datagram)) l' := by
  induction arrivals generalizing l arrived with
  | nil =>
    cases hl
    refine ⟨[],[],rfl,fun _ => rfl,?_⟩
    rw [List.map_nil,carried,packetsOf,List.filterMap_nil,received,List.flatMap_nil,List.append_nil]
    exact h
  | cons a rest ih =>
    by_cases hs : a.datagram=[] ∧ a.stopRequested
    · rw [Listener.loop,if_pos hs] at hl
      cases hl
      refine ⟨[],a::rest,rfl,(fun he => by cases he),?_⟩
      rw [List.map_nil,carried,packetsOf,List.filterMap_nil,received,List.flatMap_nil,
        List.append_nil]
      exact h
    obtain ⟨⟨l1,r⟩,hr,-⟩ := bind_eq_ok.mp (by rw [Listener.loop,if_neg hs] at hl; exact hl)
    have h1 := h.receive (ha a (by simp)) hr
    cases he : r.endOfSession with
    | true =>
      rw [Listener.loop_ends hs hr he] at hl
      cases hl
      exact ⟨[a],rest,rfl,(fun he => by cases he),h1⟩
    | false =>
      rw [Listener.loop_next hs hr he] at hl
      obtain ⟨taken,more,rfl,hw,h'⟩ := ih h1 (fun x hx => ha x (List.mem_cons_of_mem a hx)) hl
      refine ⟨a::taken,more,rfl,hw,?_⟩
      rw [List.append_assoc,← carried_append] at h'
      exact h'

/-- Unless a send fails, the loop does not. -/
theorem Follows.loop_ok {arrivals : List Arrival} (h : Follows f b arrived l) (hb : Rep b L)
    (ha : ∀ a∈arrivals, f.Brings a) (hsend : ∀ a∈arrivals, a.sendFails=none) :
    ∃ l' out, l.loop arrivals=.ok (l',out) := by
  induction arrivals generalizing l arrived with
  | nil => exact ⟨l,.waiting,rfl⟩
  | cons a rest ih =>
    by_cases hs : a.datagram=[] ∧ a.stopRequested
    · exact ⟨l,.stopped,by rw [Listener.loop,if_pos hs]⟩
    obtain ⟨l1,r,hr⟩ := h.receive_ok hb (ha a (by simp)) (hsend a (by simp))
    cases he : r.endOfSession with
    | true => exact ⟨l1,_,Listener.loop_ends hs hr he⟩
    | false =>
      rw [Listener.loop_next hs hr he]
      exact ih (h.receive (ha a (by simp)) hr) (fun x hx => ha x (List.mem_cons_of_mem a hx))
        fun x hx => hsend x (List.mem_cons_of_mem a hx)

end Step

/-- A listener of the feed before anything has arrived. -/
theorem Follows.start (f : Feed) (b : OrderBook) (capture : Bool) :
    Follows f b [] ⟨⟨{ expected := 1 },b⟩,if capture then some CaptureWriter.create else none,[]⟩ :=
  ⟨nofun,⟨.inl rfl,rfl⟩,⟨[],RecoveryEngine.inOrder_start 1,rfl⟩,nofun⟩

/-- The live command follows the feed. -/
theorem listenWith_follows (f : Feed) {n : Nat} {b : OrderBook} (hb : OrderBook.create n=.ok b)
    {capture : Bool} {arrivals : List Arrival} {l : Listener} {out : ListenEnd}
    (ha : ∀ a∈arrivals, f.Brings a) (hl : listenWith n capture arrivals=.ok (l,out)) :
    ∃ taken rest, arrivals=taken++rest ∧ (out=.waiting → rest=[]) ∧
      Follows f b (carried (taken.map Arrival.datagram)) l := by
  rw [listenWith,hb] at hl
  exact (Follows.start f b capture).loop ha hl

theorem listenWith_ok_of_sent (f : Feed) {n : Nat} {b : OrderBook} (hb : OrderBook.create n=.ok b)
    (capture : Bool) {arrivals : List Arrival} (ha : ∀ a∈arrivals, f.Brings a)
    (hsend : ∀ a∈arrivals, a.sendFails=none) :
    ∃ l out, listenWith n capture arrivals=.ok (l,out) := by
  rw [listenWith,hb]
  exact (Follows.start f b capture).loop_ok (OrderBook.create_rep hb) ha hsend

/-- The feed of the demo. -/
def demo : Feed where
  session := sessionFromString (text "DEMO")
  payloads := [addMsg 10 'B'.toUInt8 100 (text "AAPL") 2000000,
    addMsg 11 'B'.toUInt8 200 (text "AAPL") 1999000,cancelMsg 10 25]
  bounded := by decide
  decodes := by decide +kernel

def arrivalsOf (ds : List Bytes) : List Arrival := ds.map fun d => { ns := 0, datagram := d }

/-- The demo with its second message lost. -/
def demoLost : List Arrival :=
  arrivalsOf [moldPacket (text "DEMO") 1 [addMsg 10 'B'.toUInt8 100 (text "AAPL") 2000000],
    moldPacket (text "DEMO") 3 [cancelMsg 10 25]]

/-- Two listeners of one feed: the book of the one ahead is that of the other, with the messages
between them applied. -/
theorem listeners_agree (f : Feed) {n : Nat} {b : OrderBook} (hb : OrderBook.create n=.ok b)
    {capture capture' : Bool} {arrivals arrivals' : List Arrival} {l l' : Listener}
    {out out' : ListenEnd} (ha : ∀ a∈arrivals, f.Brings a) (ha' : ∀ a∈arrivals', f.Brings a)
    (hl : listenWith n capture arrivals=.ok (l,out))
    (hl' : listenWith n capture' arrivals'=.ok (l',out'))
    (hle : l.pipeline.recovery.expected≤l'.pipeline.recovery.expected) :
    l'.pipeline.book=l.pipeline.book.run
      (((f.messages.take (l'.pipeline.recovery.expected.toNat-1)).drop
        (l.pipeline.recovery.expected.toNat-1)).filterMap decoded) := by
  obtain ⟨_,_,-,-,h⟩ := listenWith_follows f hb ha hl
  obtain ⟨_,_,-,-,h'⟩ := listenWith_follows f hb ha' hl'
  obtain ⟨released,hi,hbook⟩ := h.applied
  obtain ⟨k,-,hexp,rfl⟩ := released_eq hi h.told
  obtain ⟨released',hi',hbook'⟩ := h'.applied
  obtain ⟨k',-,hexp',rfl⟩ := released_eq hi' h'.told
  rw [UInt64.le_iff_toNat_le,hexp,hexp'] at hle
  rw [hbook,hbook',hexp,hexp',Nat.add_sub_cancel,Nat.add_sub_cancel,OrderBook.run,OrderBook.run,
    OrderBook.run,← List.foldl_append,← List.filterMap_append]
  congr 2
  rw [show f.messages.take k=(f.messages.take k').take k by rw [List.take_take,min_eq_left (by omega)],
    List.take_append_drop]

/-- One listener has the whole demo, the other lost its second message. -/
theorem listeners_agree_lost : ∃ l l', listenWith 8 false demoLost=.ok (l,.waiting) ∧
    listenWith 8 true (demoLost++arrivalsOf [moldPacket (text "DEMO") 2
      [addMsg 11 'B'.toUInt8 200 (text "AAPL") 1999000]])=.ok (l',.waiting) ∧
    l'.pipeline.book=l.pipeline.book.run ((demo.messages.drop 1).filterMap decoded) := by
  have hlost : (listenWith 8 false demoLost).map (fun o => (o.2,o.1.pipeline.recovery.expected))=
      .ok (.waiting,2) := by decide +kernel
  have hall : (listenWith 8 true (demoLost++arrivalsOf [moldPacket (text "DEMO") 2
      [addMsg 11 'B'.toUInt8 200 (text "AAPL") 1999000]])).map
        (fun o => (o.2,o.1.pipeline.recovery.expected))=.ok (.waiting,4) := by decide +kernel
  obtain ⟨⟨l,out⟩,hl,he⟩ := map_eq_ok.mp hlost
  obtain ⟨⟨l',out'⟩,hl',he'⟩ := map_eq_ok.mp hall
  obtain ⟨rfl,hexp⟩ := Prod.mk.inj he
  obtain ⟨rfl,hexp'⟩ := Prod.mk.inj he'
  obtain ⟨b,hb⟩ := OrderBook.create_isOk (n := 8) (by decide) (by decide)
  have h := listeners_agree demo hb (by decide +kernel) (by decide +kernel) hl hl'
    (by rw [hexp,hexp']; decide)
  dsimp only at hexp hexp'
  rw [hexp,hexp'] at h
  exact ⟨l,l',hl,hl',h⟩

section Rounds
open RecoveryEngine
variable {f : Feed} {start : Listener}

/-- Everything that the listener has asked for has arrived. -/
def Answered (f : Feed) (sent : List Bytes) (arrived : List MoldMessage) : Prop :=
  ∀ first count out, out∈sent → encodeRequest ⟨f.session,first,count⟩=.ok out →
    ∀ m∈f.messages, first ≤ m.sequence → m.sequence.toNat<first.toNat+count.toNat → m∈arrived

/-- A listener's session in rounds: a heartbeat announces the end of the feed, and before the next
one does, what the listener has asked for so far arrives. Anything may arrive besides. -/
inductive Heard (f : Feed) (start : Listener) : Nat → List Arrival → Prop where
  | start (arrivals : List Arrival) : Heard f start 0 arrivals
  | round {k : Nat} {arrivals answers : List Arrival} {a : Arrival} {p : MoldDownstreamPacket}
      {l : Listener} : Heard f start k arrivals → parseDownstream a.datagram=.ok p →
      p.heartbeat=true → p.firstSequence.toNat=f.payloads.length+1 →
      start.loop (arrivals++[a])=.ok (l,.waiting) →
      Answered f l.sent (carried ((arrivals++a::answers).map Arrival.datagram)) →
      Heard f start (k+1) (arrivals++a::answers)

/-- The rounds of a listener are rounds of its engine. -/
theorem Heard.rounds {k : Nat} {arrivals : List Arrival} {l : Listener} {N : Sequence}
    (h : Heard f start k arrivals) (hN : N.toNat=f.payloads.length+1)
    (h0 : Listener.Called 1 f.session [] [] start) (ha : ∀ a∈arrivals, f.Brings a)
    (hl : start.loop arrivals=.ok (l,.waiting)) :
    ∃ calls, Listener.Called 1 f.session (arrivals.map Arrival.datagram) calls l ∧
      RecoveryEngine.Rounds 1 N k calls l.pipeline.recovery := by
  have hsession : ∀ arrivals : List Arrival, (∀ a∈arrivals, f.Brings a) → ∀ a∈arrivals, ∀ p,
      parseDownstream a.datagram=.ok p → p.session=f.session := by
    intro arrivals ha a hmem p hp
    obtain ⟨p',hp',ht⟩ := (ha a hmem).tells
    cases hp.symm.trans hp'
    exact ht.session
  induction h generalizing l with
  | start arrivals =>
    obtain ⟨calls,h⟩ := h0.loop hl (hsession arrivals ha)
    exact ⟨calls,by simpa using h,.start (by simpa using h.engine)⟩
  | @round k arrivals answers a p l1 _ hp hk hann hl1 hans ih =>
    obtain ⟨l2,hl2,hla⟩ := Listener.loop_split hl
    obtain ⟨calls,h2,hrounds⟩ := ih (fun x hx => ha x (List.mem_append_left _ hx)) hl2
    rw [← List.singleton_append] at hla
    obtain ⟨l1',hl1',hl3⟩ := Listener.loop_split hla
    cases hl1.symm.trans ((Listener.loop_append hl2).trans hl1')
    obtain hout | ⟨l4,r,-,hr,⟨-,-,hout⟩ | ⟨-,hrest⟩⟩ := Listener.loop_cases hl1'
    · cases hout
    · cases hout
    cases hrest
    obtain ⟨p',hp',h3⟩ := h2.receive hr (hsession _ ha a (by simp))
    cases hp.symm.trans hp'
    obtain ⟨more,h4⟩ := h3.loop hl3 fun x hx => hsession _ ha x (by simp [hx])
    have hds : arrivals.map Arrival.datagram++[a.datagram]++answers.map Arrival.datagram=
        (arrivals++a::answers).map Arrival.datagram := by simp
    rw [hds] at h4
    rw [List.append_assoc,List.singleton_append] at h4
    refine ⟨_,h4,.round hrounds h4.engine (by simp [hk]) (UInt64.toNat_inj.mp (hann.trans hN.symm))
      fun q hq s hs hlt => ?_⟩
    -- the request was sent, so what it asks for has arrived
    obtain ⟨out,hmem,hout⟩ := h3.sent q hq
    have h1 := UInt64.le_iff_toNat_le.mp
      (UInt64.le_trans (h3.engine.first_le (by decide) hq) hs.1)
    rw [UInt64.lt_iff_toNat_lt,hN] at hlt
    obtain ⟨m,hm,he⟩ := exists_message (f := f) (s := s) (by rwa [UInt64.toNat_one] at h1) (by omega)
    refine ⟨m,?_,he⟩
    have harrived := hans q.first q.count out hmem hout m hm (he ▸ hs.1) (he ▸ hs.2)
    rwa [carried,← h4.packets] at harrived

/-- A listener of a feed has caught up with it after enough rounds: each of them recovers what one
request covers. -/
theorem listen_recovers {n : Nat} {b : OrderBook} (hb : OrderBook.create n=.ok b) {capture : Bool}
    {arrivals : List Arrival} {l : Listener} {k : Nat} (ha : ∀ a∈arrivals, f.Brings a)
    (hl : listenWith n capture arrivals=.ok (l,.waiting))
    (hk : Heard f ⟨⟨{ expected := 1 },b⟩,if capture then some CaptureWriter.create else none,[]⟩
      k arrivals) :
    ∃ j, min f.payloads.length (k*requestCap)≤j ∧ j≤f.payloads.length ∧
      l.pipeline.book=b.run ((f.messages.take j).filterMap decoded) := by
  have hbound := f.bounded
  obtain ⟨_,_,-,-,h⟩ := listenWith_follows f hb ha hl
  obtain ⟨b',hb',hloop⟩ := listenWith_ok hl
  obtain rfl : b=b' := Except.ok.inj (hb.symm.trans hb')
  have hN : (UInt64.ofNat (f.payloads.length+1)).toNat=f.payloads.length+1 :=
    UInt64.toNat_ofNat_of_lt' (by simp only [UInt64.size]; omega)
  obtain ⟨calls,-,hrounds⟩ := hk.rounds hN ⟨.start,rfl,nofun⟩ ha hloop
  have hreach := hrounds.reach (by decide)
  obtain ⟨released,hi,hbook⟩ := h.applied
  obtain ⟨j,hj,hexp,rfl⟩ := released_eq hi h.told
  rw [hN,UInt64.toNat_one] at hreach
  exact ⟨j,by omega,hj,hbook⟩

/-- The demo with its first two messages lost, and a heartbeat. -/
def demoGap : List Arrival :=
  arrivalsOf [moldPacket (text "DEMO") 3 [cancelMsg 10 25],moldPacket (text "DEMO") 4 []]

def demoAnswer : List Arrival :=
  arrivalsOf [moldPacket (text "DEMO") 1 [addMsg 10 'B'.toUInt8 100 (text "AAPL") 2000000,
    addMsg 11 'B'.toUInt8 200 (text "AAPL") 1999000]]

theorem listen_recovers_demo : ∃ b l, OrderBook.create 8=.ok b ∧
    listenWith 8 false (demoGap++demoAnswer)=.ok (l,.waiting) ∧
    l.pipeline.book=b.run ((demo.messages.take 3).filterMap decoded) := by
  have hgap : (listenWith 8 false demoGap).map Prod.snd=.ok .waiting := by decide +kernel
  have hall : (listenWith 8 false (demoGap++demoAnswer)).map Prod.snd=.ok .waiting := by
    decide +kernel
  obtain ⟨⟨l1,_⟩,hl1,rfl⟩ := map_eq_ok.mp hgap
  obtain ⟨⟨l,_⟩,hl,rfl⟩ := map_eq_ok.mp hall
  obtain ⟨b,hb,h1⟩ := listenWith_ok hl1
  have hp : parseDownstream (moldPacket (text "DEMO") 4 [])=
      .ok ⟨sessionFromString (text "DEMO"),4,0,true,false,[]⟩ := by decide +kernel
  have harrived : ∀ m∈demo.messages,
      m∈carried ((demoGap++demoAnswer).map Arrival.datagram) := by decide +kernel
  have hround := Heard.round (f := demo) (.start (arrivalsOf [moldPacket (text "DEMO") 3
    [cancelMsg 10 25]])) (a := ⟨false,0,moldPacket (text "DEMO") 4 [],none⟩) hp rfl rfl h1
    fun _ _ _ _ _ m hm _ _ => harrived m hm
  obtain ⟨j,hj,hle,hbook⟩ := listen_recovers hb (by decide +kernel) hl hround
  obtain rfl : j=3 := le_antisymm hle hj
  exact ⟨b,l,hb,hl,hbook⟩

end Rounds
end Feed
end MarketWire
