import MarketWire.Feed

/-! From the encoders of the command line program to the book. Samples become messages, stretches of
consecutive messages become packets, and what a listener makes of the packets that reach it is what
the samples ask for. -/
namespace MarketWire
open Library MoldUdp64

/-- What the message builders can say. -/
inductive Sample where
  | add (id : OrderId) (side : Side) (qty : Quantity) (symbol : Bytes) (price : Price)
  | cancel (id : OrderId) (qty : Quantity)
  deriving DecidableEq, Repr

namespace Sample

def message : Sample → Bytes
  | add id .buy qty symbol price => addMsg id 'B'.toUInt8 qty symbol price
  | add id .sell qty symbol price => addMsg id 'S'.toUInt8 qty symbol price
  | cancel id qty => cancelMsg id qty

/-- What a sample asks the book for. -/
def event : Sample → MarketEvent
  | add id side qty symbol price =>
    .add ⟨⟨1,1,1000000⟩,⟨id,Symbol.fromPadded symbol,side,qty,price⟩⟩
  | cancel id qty => .cancel ⟨⟨1,2,1000100⟩,id,qty⟩

theorem decode_message (s : Sample) :
    ItchDecoder.decodeBookEvent s.message=.ok (some s.event) := by
  cases s with
  | add id side qty symbol price =>
    cases side with
    | buy => exact decode_addMsg id rfl qty symbol price
    | sell => exact decode_addMsg id rfl qty symbol price
  | cancel id qty => exact decode_cancelMsg id qty

theorem length_message (s : Sample) : 23 ≤ s.message.length ∧ s.message.length≤36 := by
  cases s with
  | add id side qty symbol price =>
    cases side with
    | buy => simp [message,length_addMsg]
    | sell => simp [message,length_addMsg]
  | cancel id qty => simp [message,length_cancelMsg]

/-- The samples as one feed. -/
def feed (session : Bytes) (samples : List Sample) (h : samples.length<2^64-1) : Feed where
  session := sessionFromString session
  payloads := samples.map message
  bounded := by rwa [List.length_map]
  decodes := List.forall_mem_map.mpr fun s _ => by rw [decode_message]; rfl

/-- The packet of `count` samples behind the first `first`. -/
def packetAt (session : Bytes) (samples : List Sample) (first count : Nat) : Bytes :=
  moldPacket session (UInt64.ofNat (first+1)) (((samples.drop first).take count).map message)

end Sample

/-- Consecutive samples that fit into one datagram. -/
structure Stretch (session : Bytes) (samples : List Sample) where
  first : Nat
  count : Nat
  within : first+count ≤ samples.length
  fits : (Sample.packetAt session samples first count).length≤kMaxCaptureDatagramSize

namespace Stretch
variable {session : Bytes} {samples : List Sample}

def packet (s : Stretch session samples) : Bytes :=
  Sample.packetAt session samples s.first s.count

def Covers (s : Stretch session samples) (i : Nat) : Prop := s.first ≤ i ∧ i<s.first+s.count

instance (s : Stretch session samples) (i : Nat) : Decidable (s.Covers i) :=
  inferInstanceAs (Decidable (_ ∧ _))

end Stretch

theorem numbered_take (first : Sequence) (i n : Nat) (payloads : List Bytes) :
    numbered first i (payloads.take n)=(numbered first i payloads).take n := by
  induction payloads generalizing i n with
  | nil => rw [List.take_nil,numbered,List.take_nil]
  | cons m rest ih =>
    cases n with
    | zero => rfl
    | succ n => rw [List.take_succ_cons,numbered,numbered,List.take_succ_cons,ih]

theorem numbered_drop (first : Sequence) (i n : Nat) (payloads : List Bytes) :
    numbered first (i+n) (payloads.drop n)=(numbered first i payloads).drop n := by
  induction payloads generalizing i n with
  | nil => rw [List.drop_nil,numbered,numbered,List.drop_nil]
  | cons m rest ih =>
    cases n with
    | zero => rfl
    | succ n => rw [List.drop_succ_cons,numbered,List.drop_succ_cons,← ih,Nat.add_right_comm]; rfl

theorem numbered_shift (first : Sequence) (k i : Nat) (payloads : List Bytes) :
    numbered (first+UInt64.ofNat k) i payloads=numbered first (k+i) payloads := by
  induction payloads generalizing i with
  | nil => rfl
  | cons m rest ih => rw [numbered,numbered,ih,UInt64.ofNat_add,UInt64.add_assoc,Nat.add_assoc]

/-- Datagrams that are not empty and do not end the session leave the loop waiting. -/
theorem Listener.loop_waits {l l' : Listener} {arrivals : List Arrival} {out : ListenEnd}
    (h : l.loop arrivals=.ok (l',out)) (hne : ∀ a∈arrivals, a.datagram≠[])
    (hkind : ∀ a∈arrivals, ∀ p, parseDownstream a.datagram=.ok p → p.endOfSession=false) :
    out=.waiting := by
  induction arrivals generalizing l with
  | nil =>
    cases h
    rfl
  | cons a rest ih =>
    rw [loop,if_neg fun hs => hne a (by simp) hs.1] at h
    obtain ⟨⟨l1,r⟩,h1,h⟩ := bind_eq_ok.mp h
    obtain ⟨p,hp,hi,-⟩ := Pipeline.processPacket_inv (receive_inv h1).1
    have hend : r.endOfSession=false :=
      (RecoveryEngine.ingest_result hi).2.trans (hkind a (by simp) p hp)
    dsimp only at h
    rw [if_neg (by simp [hend])] at h
    exact ih h (fun x hx => hne x (List.mem_cons_of_mem a hx))
      fun x hx => hkind x (List.mem_cons_of_mem a hx)

/-- Blocks of samples are not small. -/
theorem length_blocks (samples : List Sample) :
    25*samples.length≤((samples.map Sample.message).flatMap block).length := by
  induction samples with
  | nil => exact le_rfl
  | cons s rest ih =>
    have hs := s.length_message.1
    rw [List.map_cons,List.flatMap_cons,List.length_append,List.length_cons,block,
      List.length_append,length_beEncode]
    omega

namespace Stretch
variable {session : Bytes} {samples : List Sample}

theorem length_packet (s : Stretch session samples) : 20+25*s.count ≤ s.packet.length := by
  have hblocks := length_blocks ((samples.drop s.first).take s.count)
  have hw := s.within
  rw [List.length_take,List.length_drop,Nat.min_eq_left (by omega)] at hblocks
  rw [packet,Sample.packetAt,moldPacket_eq,frame]
  simp only [List.length_append,length_beEncode,Vector.length_toList]
  omega

variable (h : samples.length<2^64-1)

/-- What a packet carries. -/
theorem parse (s : Stretch session samples) : ∃ p, parseDownstream s.packet=.ok p ∧
    p.session=sessionFromString session ∧ p.firstSequence.toNat=s.first+1 ∧
    p.endOfSession=false ∧
    received [p]=((Sample.feed session samples h).messages.drop s.first).take s.count := by
  have hw := s.within
  have hlen := s.length_packet
  have hfits : s.packet.length≤65535 := s.fits
  have hto : (UInt64.ofNat (s.first+1)).toNat=s.first+1 :=
    UInt64.toNat_ofNat_of_lt' (by simp only [UInt64.size]; omega)
  set payloads := ((samples.drop s.first).take s.count).map Sample.message with hpayloads
  have hcount : payloads.length=s.count := by
    rw [hpayloads,List.length_map,List.length_take,List.length_drop,Nat.min_eq_left (by omega)]
  have hp : parseDownstream (moldPacket session (UInt64.ofNat (s.first+1)) payloads)=.ok _ :=
    parse_moldPacket (by omega) (fun m hm => by
      obtain ⟨x,-,rfl⟩ := List.mem_map.mp hm
      exact x.length_message.2.trans (by decide)) (by omega)
  refine ⟨_,hp,rfl,hto,rfl,?_⟩
  -- a packet without messages is a heartbeat
  have hmessages : received [⟨sessionFromString session,UInt64.ofNat (s.first+1),
      UInt16.ofNat payloads.length,payloads.isEmpty,false,
      numbered (UInt64.ofNat (s.first+1)) 0 payloads⟩]=
      numbered (UInt64.ofNat (s.first+1)) 0 payloads := by
    cases payloads with
    | nil => rfl
    | cons m rest => simp [received]
  rw [hmessages,hpayloads,List.map_take,List.map_drop,numbered_take,Nat.add_comm,UInt64.ofNat_add]
  exact congrArg _ ((numbered_shift 1 s.first 0 _).trans (by
    rw [Nat.add_comm]
    exact numbered_drop 1 0 s.first _))

/-- An arrival of a packet brings the feed. -/
theorem brings (s : Stretch session samples) {a : Arrival} (ha : a.datagram=s.packet) :
    (Sample.feed session samples h).Brings a := by
  obtain ⟨p,hp,hsession,hfirst,hend,hreceived⟩ := s.parse h
  refine ⟨ha ▸ s.fits,p,ha ▸ hp,hsession,fun m hm => ?_,fun _ => ?_⟩
  · rw [hreceived] at hm
    exact List.mem_of_mem_drop (List.mem_of_mem_take hm)
  · have hw := s.within
    rw [hfirst,Sample.feed,List.length_map]
    omega

theorem carried_packets (ss : List (Stretch session samples)) : carried (ss.map packet)=
    ss.flatMap fun s => ((Sample.feed session samples h).messages.drop s.first).take s.count := by
  induction ss with
  | nil => rfl
  | cons s rest ih =>
    obtain ⟨p,hp,-,-,-,hreceived⟩ := s.parse h
    have hs : carried [s.packet]=received [p] := by simp [carried,packetsOf,hp,Except.toOption]
    rw [List.map_cons,List.flatMap_cons,← ih,← hreceived,← hs,← carried_append,
      List.singleton_append]

theorem sequences (s : Stretch session samples) :
    ((((Sample.feed session samples h).messages.drop s.first).take s.count).map
      fun m => m.sequence.toNat)=List.range' (s.first+1) s.count := by
  have hw := s.within
  have hlen : (Sample.feed session samples h).payloads.length=samples.length := List.length_map _
  rw [List.map_take,List.map_drop,Feed.messages_sequences,hlen,List.drop_range',
    List.take_range'_of_length_ge (by omega),Nat.mul_one,Nat.add_comm]

/-- A number is carried exactly if its sample is covered. -/
theorem carried_iff (h : samples.length<2^64-1) (ss : List (Stretch session samples)) (i : Nat) :
    (∃ m∈carried (ss.map packet), m.sequence.toNat=i+1) ↔ ∃ s∈ss, s.Covers i := by
  have hs (s : Stretch session samples) : (∃ m∈
      ((Sample.feed session samples h).messages.drop s.first).take s.count,
      m.sequence.toNat=i+1) ↔ s.Covers i := by
    rw [← List.mem_map (f := fun m : MoldMessage => m.sequence.toNat),s.sequences h,
      List.mem_range'_1,Covers]
    omega
  rw [carried_packets h]
  constructor
  · rintro ⟨m,hm,hi⟩
    obtain ⟨s,hmem,hm⟩ := List.mem_flatMap.mp hm
    exact ⟨s,hmem,(hs s).mp ⟨m,hm,hi⟩⟩
  · rintro ⟨s,hmem,hc⟩
    obtain ⟨m,hm,hi⟩ := (hs s).mpr hc
    exact ⟨m,List.mem_flatMap.mpr ⟨s,hmem,hm⟩,hi⟩

end Stretch

section Samples
variable {session : Bytes} {samples : List Sample}

/-- The first messages of the feed decode to the events of the first samples. -/
theorem Sample.decoded_take (h : samples.length<2^64-1) (k : Nat) :
    ((feed session samples h).messages.take k).filterMap decoded=(samples.take k).map event := by
  have hpayloads : ((feed session samples h).messages.take k).map MoldMessage.payload=
      (samples.take k).map message := by
    rw [List.map_take,Feed.messages,numbered_payloads,feed,List.map_take]
  have hdecoded : decoded=(fun m : Bytes => decoded ⟨0,m⟩)∘MoldMessage.payload := rfl
  rw [hdecoded,← List.filterMap_map,hpayloads,List.filterMap_map]
  have hevent : (fun m : Bytes => decoded ⟨0,m⟩)∘message=some∘event := by
    funext s
    simp only [Function.comp_apply,decoded,s.decode_message]
  rw [hevent,← List.filterMap_map,List.filterMap_some]

/-- The live command over packets of samples, unless a send fails. -/
theorem Sample.listenWith_packets (hlen : samples.length<2^64-1) {n : Nat} {b : OrderBook}
    (hb : OrderBook.create n=.ok b) (capture : Bool) {ss : List (Stretch session samples)}
    {arrivals : List Arrival} (ha : arrivals.map Arrival.datagram=ss.map Stretch.packet)
    (hsend : ∀ a∈arrivals, a.sendFails=none) :
    ∃ l k, listenWith n capture arrivals=.ok (l,.waiting) ∧ k ≤ samples.length ∧
      (∀ i<k, ∃ s∈ss, s.Covers i) ∧ (∀ s∈ss, ¬s.Covers k) ∧
      l.pipeline.book=b.run ((samples.take k).map event) := by
  have hof : ∀ a∈arrivals, ∃ s : Stretch session samples, a.datagram=s.packet := fun a hmem => by
    obtain ⟨s,-,hs⟩ := List.mem_map.mp (ha ▸ List.mem_map_of_mem hmem)
    exact ⟨s,hs.symm⟩
  have hbrings : ∀ a∈arrivals, (feed session samples hlen).Brings a := fun a hmem => by
    obtain ⟨s,hs⟩ := hof a hmem
    exact s.brings hlen hs
  obtain ⟨l,out,hl⟩ := Feed.listenWith_ok_of_sent _ hb capture hbrings hsend
  obtain ⟨taken,rest,rfl,hw,h⟩ := Feed.listenWith_follows _ hb hbrings hl
  have hwaiting : out=.waiting := by
    have hloop := hl
    rw [listenWith,hb] at hloop
    refine Listener.loop_waits hloop (fun a hmem he => ?_) fun a hmem p hp => ?_
    · obtain ⟨s,hs⟩ := hof a hmem
      have hlength := s.length_packet
      rw [← hs,he,List.length_nil] at hlength
      omega
    · obtain ⟨s,hs⟩ := hof a hmem
      obtain ⟨q,hq,-,-,hend,-⟩ := s.parse hlen
      rw [hs,hq] at hp
      rw [← Except.ok.inj hp]
      exact hend
  obtain rfl := hwaiting
  obtain rfl := hw rfl
  rw [List.append_nil] at ha hl ⊢
  obtain ⟨released,hi,hbook⟩ := h.applied
  obtain ⟨k,hk,hexp,rfl⟩ := Feed.released_eq hi h.told
  have hpayloads : (feed session samples hlen).payloads.length=samples.length := List.length_map _
  rw [ha] at hi
  rw [hpayloads] at hk
  refine ⟨l,k,hl,hk,fun i hik => ?_,fun s hs hc => ?_,hbook.trans (by rw [decoded_take])⟩
  · have hto : (UInt64.ofNat (i+1)).toNat=i+1 :=
      UInt64.toNat_ofNat_of_lt' (by simp only [UInt64.size]; omega)
    obtain ⟨m,hm,he⟩ := hi.below (s := UInt64.ofNat (i+1))
      (UInt64.le_iff_toNat_le.mpr (by rw [hto,UInt64.toNat_one]; omega))
      (UInt64.lt_iff_toNat_lt.mpr (by rw [hto,hexp]; omega))
    exact (Stretch.carried_iff hlen ss i).mp ⟨m,hm,by rw [he,hto]⟩
  · obtain ⟨m,hm,he⟩ := (Stretch.carried_iff hlen ss k).mpr ⟨s,hs,hc⟩
    exact hi.missing m hm (UInt64.toNat_inj.mp (he.trans hexp.symm))

/-- The packets of samples that reach a listener, in whatever order and however often, give the
book that the longest beginning of the samples asks for, unless a send fails, and a capture of them
replays to it. -/
theorem Sample.packets_arrive (hlen : samples.length<2^64-1) {n n' : Nat} {b b' : OrderBook}
    (hb : OrderBook.create n=.ok b) (hb' : OrderBook.create n'=.ok b') (capture : Bool)
    {ss : List (Stretch session samples)} {arrivals : List Arrival}
    (ha : arrivals.map Arrival.datagram=ss.map Stretch.packet)
    (hsend : ∀ a∈arrivals, a.sendFails=none) (io : Console) :
    ∃ l k, listenWith n capture arrivals=.ok (l,.waiting) ∧ k ≤ samples.length ∧
      (∀ i<k, ∃ s∈ss, s.Covers i) ∧ (∀ s∈ss, ¬s.Covers k) ∧
      l.pipeline.book=b.run ((samples.take k).map event) ∧
      ((arrivals.map Arrival.ns).Pairwise (fun x y => x≤y) → ∃ report,
        replayWith n' .maxSpeed (captureFile (arrivals.map Arrival.record)) io=.ok report ∧
        report.liveOrders=(b'.run ((samples.take k).map event)).liveOrderCount ∧
        report.stateHash=(b'.run ((samples.take k).map event)).stateHash) := by
  obtain ⟨l,k,hl,hk,hbelow,hfirst,hbook⟩ := listenWith_packets hlen hb capture ha hsend
  obtain ⟨l',k',hl',-,hbelow',hfirst',hbook'⟩ := listenWith_packets hlen hb' capture ha hsend
  have hsame : k'=k := by
    rcases Nat.lt_trichotomy k' k with hlt | heq | hlt
    · obtain ⟨s,hs,hc⟩ := hbelow k' hlt
      exact absurd hc (hfirst' s hs)
    · exact heq
    · obtain ⟨s,hs,hc⟩ := hbelow' k hlt
      exact absurd hc (hfirst s hs)
  rw [hsame] at hbook'
  refine ⟨l,k,hl,hk,hbelow,hfirst,hbook,fun htime => ?_⟩
  rw [← hbook']
  rw [listenWith,hb'] at hl'
  have hrun := (Listener.loop_waiting hl').run
  have hmap : (arrivals.map Arrival.record).map CaptureRecord.datagram=
      arrivals.map Arrival.datagram := List.map_map
  refine replayWith_encoded hb' io (List.forall_mem_map.mpr fun a hmem => ?_)
    (by rw [List.map_map]; exact htime) (by rw [hmap]; exact hrun)
  obtain ⟨s,-,hs⟩ := List.mem_map.mp (ha ▸ List.mem_map_of_mem hmem)
  have hfits : s.packet.length≤65535 := s.fits
  rw [hs] at hfits
  exact hfits

end Samples

namespace Sample

def demo : List Sample := [.add 10 .buy 100 (text "AAPL") 2000000,
  .add 11 .buy 200 (text "AAPL") 1999000,.cancel 10 25]

/-- One sample a packet, the second of them last. -/
def demoStretches : List (Stretch (text "DEMO") demo) :=
  [⟨0,1,by decide,by decide +kernel⟩,⟨2,1,by decide,by decide +kernel⟩,
    ⟨1,1,by decide,by decide +kernel⟩]

def demoArrivals : List Arrival :=
  [⟨false,0,packetAt (text "DEMO") demo 0 1,none⟩,⟨false,1000000,packetAt (text "DEMO") demo 2 1,none⟩,
    ⟨false,2000000,packetAt (text "DEMO") demo 1 1,none⟩]

/-- The sample capture replays to the book of its three samples. -/
theorem packets_arrive_demo : ∃ b report, OrderBook.create 8=.ok b ∧
    replayWith 8 .maxSpeed (captureFile (demoArrivals.map Arrival.record)) {}=.ok report ∧
    report.stateHash=(b.run (demo.map event)).stateHash := by
  obtain ⟨b,hb⟩ := OrderBook.create_isOk (n := 8) (by decide) (by decide)
  have harrivals : demoArrivals.map Arrival.datagram=demoStretches.map Stretch.packet := by
    rw [demoArrivals,demoStretches]
    rfl
  obtain ⟨l,k,-,hk,-,hfirst,-,hreplay⟩ :=
    packets_arrive (show demo.length<2^64-1 by decide) hb hb false harrivals
      (by simp [demoArrivals]) {}
  obtain ⟨report,hreport,-,hhash⟩ := hreplay (by simp [demoArrivals])
  have hcovered : ∀ i<3, ∃ s∈demoStretches, s.Covers i := by decide
  have hall : k=3 := by
    by_contra hne
    obtain ⟨s,hs,hc⟩ := hcovered k (by have hk : k≤3 := hk; omega)
    exact hfirst s hs hc
  rw [hall] at hhash
  exact ⟨b,report,hb,hreport,hhash⟩

end Sample

end MarketWire
