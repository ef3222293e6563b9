import MarketWire.SessionEnd
import MarketWire.BookCapacity

/-! Live processing against replay. The two commands run one pipeline over the same datagrams,
but into books of different size: the replayed book can be full where the live one is not. -/
namespace MarketWire
open Library MoldUdp64

/-- The book events that a fresh engine releases from the datagrams, in order. -/
def eventsOf (ds : List Bytes) : List MarketEvent :=
  match RecoveryEngine.ingestAll { expected := 1 } (packetsOf ds) with
  | some (_,ready) => ready.filterMap decoded
  | none => []

theorem eventsOf_eq {ds : List Bytes} {e : RecoveryEngine} {ready : List MoldMessage}
    (h : RecoveryEngine.ingestAll { expected := 1 } (packetsOf ds)=some (e,ready)) :
    eventsOf ds=ready.filterMap decoded := by
  rw [eventsOf,h]

section Replayed
variable {n n' : Nat} {b b' : OrderBook} {earlier : List Arrival} {last : Arrival}
  {l0 l : Listener} {hash : Option UInt64}

/-- A pipeline that runs through takes any other fresh book through the same events. -/
theorem run_other {ds : List Bytes} {s : Pipeline} (hb' : OrderBook.create n'=.ok b')
    (h : Pipeline.run ⟨{ expected := 1 },b⟩ ds=.ok s) :
    s.book=b.run (eventsOf ds) ∧
      Pipeline.run ⟨{ expected := 1 },b'⟩ ds=.ok ⟨s.recovery,b'.run (eventsOf ds)⟩ := by
  obtain ⟨ready,hp,hi,hf⟩ := Pipeline.run_inv h
  obtain ⟨hd,hbook⟩ := Pipeline.foldlM_handle_inv hf
  rw [eventsOf_eq hi]
  exact ⟨hbook,Pipeline.run_eq hp hi (Pipeline.foldlM_handle (OrderBook.create_rep hb') hd)⟩

/-- The capture of an ended session is replayed into a book that takes the same events. -/
theorem replay_capture (hb : OrderBook.create n=.ok b) (hb' : OrderBook.create n'=.ok b')
    (hw : listenWith n true earlier=.ok (l0,.waiting))
    (hl : listenWith n true (earlier++[last])=.ok (l,.endOfSession hash))
    (htime : ((earlier++[last]).map Arrival.ns).Pairwise fun a b => a≤b) (io : Console) :
    ∃ file report, l.capture=some file ∧ replayWith n' .maxSpeed file.out io=.ok report ∧
      l.pipeline.book=b.run (eventsOf ((earlier++[last]).map Arrival.datagram)) ∧
      hash=l.pipeline.book.stateHash ∧
      report.liveOrders=
        (b'.run (eventsOf ((earlier++[last]).map Arrival.datagram))).liveOrderCount ∧
      report.stateHash=(b'.run (eventsOf ((earlier++[last]).map Arrival.datagram))).stateHash := by
  obtain ⟨b1,p,hb1,-,-,hh,ht⟩ := listenWith_ended hw hl
  obtain rfl : b=b1 := Except.ok.inj (hb.symm.trans hb1)
  obtain ⟨hbook,hrun⟩ := run_other hb' ht.run
  obtain ⟨hsize,hfile⟩ := ht.capture CaptureWriter.create rfl
  have hds : ((earlier++[last]).map Arrival.record).map CaptureRecord.datagram=
      (earlier++[last]).map Arrival.datagram := by rw [List.map_map]; rfl
  have hns : ((earlier++[last]).map Arrival.record).map CaptureRecord.monotonicNs=
      (earlier++[last]).map Arrival.ns := by rw [List.map_map]; rfl
  rw [← hds] at hrun
  rw [← hns] at htime
  obtain ⟨report,hreport,hlive,hhash⟩ := replayWith_encoded hb' io
    (List.forall_mem_map.mpr hsize) htime hrun
  rw [hds] at hlive hhash
  exact ⟨_,report,hfile,hreport,hbook,hh,hlive,hhash⟩

end Replayed

/-- Datagrams that can follow a session's start can be cut short. -/
theorem Admissible.left {session : Session} {ds ds' : List Bytes}
    (h : Admissible session (ds++ds')) : Admissible session ds := by
  have hc : ∀ m∈carried ds, m∈carried (ds++ds') := fun m hm => by
    rw [carried_append]
    exact List.mem_append_left _ hm
  exact ⟨fun d hd => h.parses d (List.mem_append_left _ hd),fun m hm => h.bounded m (hc m hm),
    fun m hm m' hm' => h.consistent m (hc m hm) m' (hc m' hm'),fun m hm => h.decodes m (hc m hm)⟩

/-- The live command takes every admissible session to its end. -/
theorem listenWith_ends {n : Nat} {b : OrderBook} (hb : OrderBook.create n=.ok b) (capture : Bool)
    {session : Session} {earlier : List Arrival} {last : Arrival}
    (h : Admissible session ((earlier++[last]).map Arrival.datagram))
    (hreg : ∀ a∈earlier++[last], Listener.Regular a)
    (hkind : ∀ a∈earlier, ∀ p, parseDownstream a.datagram=.ok p → p.endOfSession=false)
    {p : MoldDownstreamPacket} (hp : parseDownstream last.datagram=.ok p)
    (he : p.endOfSession=true) :
    ∃ l0 l hash, listenWith n capture earlier=.ok (l0,.waiting) ∧
      listenWith n capture (earlier++[last])=.ok (l,.endOfSession hash) := by
  have hrep := OrderBook.create_rep hb
  have hrun := h.run_ok hrep
  rw [List.map_append] at h hrun
  obtain ⟨e0,ready0,hrun0,-⟩ := h.left.run_ok hrep
  obtain ⟨e,ready,hrun,-⟩ := hrun
  rw [Listener.run_append hrun0] at hrun
  set start : Listener :=
    ⟨⟨{ expected := 1 },b⟩,if capture then some CaptureWriter.create else none,[]⟩
  have hlisten (arrivals : List Arrival) : listenWith n capture arrivals=start.loop arrivals := by
    rw [listenWith,hb]
  obtain ⟨l0,hl0,hs0⟩ := Listener.loop_of_run (l := start) hrun0
    (fun a ha => hreg a (List.mem_append_left _ ha)) hkind
  rw [← hs0] at hrun
  obtain ⟨l,hl,-⟩ := Listener.loop_end_of_run (hreg last (by simp)) hrun hp he
  refine ⟨l0,l,l.pipeline.book.stateHash,by rw [hlisten,hl0],?_⟩
  rw [hlisten,Listener.loop_append hl0,hl]

/-- The `i`-th order of a crowded level. -/
def crowdOrder (i : Nat) : Order :=
  ⟨UInt64.ofNat (i+1),Symbol.fromPadded (text "AAPL"),.buy,1,100⟩

def crowdMessage (i : Nat) : MoldMessage :=
  ⟨UInt64.ofNat (i+1),addMsg (UInt64.ofNat (i+1)) 'B'.toUInt8 1 (text "AAPL") 100⟩

def crowdPacket (i : Nat) : Bytes :=
  moldPacket (text "DEMO") (crowdMessage i).sequence [(crowdMessage i).payload]

/-- A session of `k` orders at one price, a packet each. -/
def crowd (k : Nat) : List Arrival :=
  (List.range k).map fun i => { ns := 0, datagram := crowdPacket i }

def crowdEnd (k : Nat) : Arrival :=
  { ns := 0, datagram := frame (sessionFromString (text "DEMO")) (UInt64.ofNat (k+1)) 0xFFFF [] }

def crowdEvents (k : Nat) : List MarketEvent :=
  (List.range k).map fun i => .add ⟨⟨1,1,1000000⟩,crowdOrder i⟩

namespace Ledger

/-- While the slots last, each order of the crowd is taken. -/
theorem crowd_addable {L : Ledger} {k : Nat} (hk : k<2^32-1)
    (h : L.live.map Prod.snd=(List.range k).map crowdOrder) : L.Addable (crowdOrder k) := by
  have hmem (p : Placed) (hp : p∈L.live) : ∃ i<k, crowdOrder i=p.2 := by
    have hm : p.2∈L.live.map Prod.snd := List.mem_map_of_mem hp
    rw [h,List.mem_map] at hm
    obtain ⟨i,hi,he⟩ := hm
    exact ⟨i,List.mem_range.mp hi,he⟩
  have hid (i : Nat) (hi : i≤k) : (crowdOrder i).id.toNat=i+1 :=
    UInt64.toNat_ofNat_of_lt' (by simp only [UInt64.size]; omega)
  refine ⟨fun h0 => ?_,(by decide : (1 : Quantity)≠0),lookup_eq_none.mpr fun p hp he => ?_,?_⟩
  · have := hid k le_rfl
    rw [h0] at this
    cases this
  · obtain ⟨i,hi,ho⟩ := hmem p hp
    have h1 := hid i hi.le
    rw [ho,he,hid k le_rfl] at h1
    omega
  · have hle : L.total (crowdOrder k).key ≤ sumQuantity L.live :=
      (List.filter_sublist.map _).sum_le_sum fun _ _ => Nat.zero_le _
    have hsum : sumQuantity L.live=k := by
      have hq : (L.live.map Prod.snd).map (fun o => o.quantity.toNat)=
          (List.range k).map fun _ => 1 := by
        rw [h,List.map_map]
        rfl
      rw [List.map_map] at hq
      rw [sumQuantity]
      exact (congrArg List.sum hq).trans (by simp)
    have hmax := toNat_quantityMax
    have hone : (crowdOrder k).quantity.toNat=1 := rfl
    omega

/-- An arena of `n` slots takes the first `n` orders of the crowd. -/
theorem run_crowd {n : Nat} (hn : n≤2^32) {k : Nat} (hk : k≤2^32-1) :
    ((fresh n).run (crowdEvents k)).live.map Prod.snd=(List.range (min k n)).map crowdOrder := by
  induction k with
  | zero => simp [crowdEvents,run,fresh]
  | succ k ih =>
    have hlive := ih (by omega)
    have hlen := ((fresh_wf hn).run (crowdEvents k)).toPlacement.length hn
    have hcount : ((fresh n).run (crowdEvents k)).live.length=min k n := by
      simpa using congrArg List.length hlive
    have hstep : (fresh n).run (crowdEvents (k+1))=
        (((fresh n).run (crowdEvents k)).add (crowdOrder k)).1 := by
      rw [run,crowdEvents,List.range_succ,List.map_append,List.foldl_append]
      rfl
    rw [hstep]
    generalize (fresh n).run (crowdEvents k)=L at hlive hlen hcount
    by_cases hfull : k<n
    · rw [Nat.min_eq_left hfull.le] at hlive hcount
      cases hfree : L.free with
      | nil =>
        rw [hfree,List.length_nil] at hlen
        omega
      | cons slot free =>
        rw [(crowd_addable (by omega) hlive).add hfree,Nat.min_eq_left hfull,List.range_succ,
          List.map_append,List.map_append,hlive]
        rfl
    · rw [Nat.min_eq_right (by omega)] at hlive hcount
      have hfree : L.free=[] := List.eq_nil_of_length_eq_zero (by omega)
      rw [Nat.min_eq_right (by omega),← hlive,add,hfree]
      split_ifs <;> rfl

end Ledger

section Crowd
variable {i k : Nat}

theorem sideFromChar_buy : sideFromChar 'B'.toUInt8=.ok .buy := rfl

theorem crowd_sequence (hi : i<2^64-2) : (crowdMessage i).sequence.toNat=i+1 :=
  UInt64.toNat_ofNat_of_lt' (by simp only [UInt64.size]; omega)

theorem parse_crowdPacket (hi : i<2^64-2) : parseDownstream (crowdPacket i)=
    .ok ⟨sessionFromString (text "DEMO"),(crowdMessage i).sequence,1,false,false,
      [crowdMessage i]⟩ := by
  have hlast : (crowdMessage i).sequence.toNat+[(crowdMessage i).payload].length-1≤2^64-1 := by
    rw [crowd_sequence hi]
    simp only [List.length]
    omega
  rw [crowdPacket,parse_moldPacket (by simp) (by simp [crowdMessage,length_addMsg]) hlast]
  simp [numbered]

theorem parse_crowdEnd (k : Nat) : parseDownstream (crowdEnd k).datagram=
    .ok ⟨sessionFromString (text "DEMO"),UInt64.ofNat (k+1),0xFFFF,false,true,[]⟩ :=
  parseDownstream_ok.mpr ⟨[],rfl,by simp,rfl,.inr (.inl ⟨rfl,rfl,rfl,rfl⟩)⟩

theorem carried_crowd (hk : k≤2^64-2) :
    carried ((crowd k).map Arrival.datagram)=(List.range k).map crowdMessage := by
  induction k with
  | zero => rfl
  | succ k ih =>
    have hlast : carried [crowdPacket k]=[crowdMessage k] := by
      simp [carried,packetsOf,received,parse_crowdPacket (by omega : k<2^64-2),Except.toOption]
    have hds : (crowd (k+1)).map Arrival.datagram=(crowd k).map Arrival.datagram++[crowdPacket k] := by
      simp [crowd,List.range_succ]
    rw [hds,carried_append,ih (by omega),hlast,List.range_succ,List.map_append,List.map_singleton]

theorem carried_crowdSession (hk : k≤2^64-2) :
    carried ((crowd k++[crowdEnd k]).map Arrival.datagram)=(List.range k).map crowdMessage := by
  rw [List.map_append,carried_append,List.map_singleton,carried_end (parse_crowdEnd k) rfl,
    List.append_nil,carried_crowd hk]

theorem crowd_admissible (hk : k<2^64-2) : Admissible (sessionFromString (text "DEMO"))
    ((crowd k++[crowdEnd k]).map Arrival.datagram) := by
  have hmem {m : MoldMessage} (hm : m∈carried ((crowd k++[crowdEnd k]).map Arrival.datagram)) :
      ∃ i<k, crowdMessage i=m := by
    rw [carried_crowdSession hk.le,List.mem_map] at hm
    obtain ⟨i,hi,he⟩ := hm
    exact ⟨i,List.mem_range.mp hi,he⟩
  refine ⟨fun d hd => ?_,fun m hm => ?_,fun m hm m' hm' hs => ?_,fun m hm => ?_⟩
  · obtain ⟨a,ha,rfl⟩ := List.mem_map.mp hd
    cases List.mem_append.mp ha with
    | inl ha =>
      obtain ⟨i,hi,rfl⟩ := List.mem_map.mp ha
      rw [parse_crowdPacket ((List.mem_range.mp hi).trans hk)]
      rfl
    | inr ha =>
      cases List.mem_singleton.mp ha
      rw [parse_crowdEnd]
      rfl
  · obtain ⟨i,hi,rfl⟩ := hmem hm
    intro he
    have hs := crowd_sequence (hi.trans hk)
    rw [he,toNat_sequenceMax] at hs
    omega
  · obtain ⟨i,hi,rfl⟩ := hmem hm
    obtain ⟨j,hj,rfl⟩ := hmem hm'
    have h1 := crowd_sequence (hi.trans hk)
    rw [hs,crowd_sequence (hj.trans hk)] at h1
    rw [show j=i by omega]
  · obtain ⟨i,-,rfl⟩ := hmem hm
    rw [crowdMessage,decode_addMsg _ sideFromChar_buy]
    rfl

/-- The whole crowd is released in order. -/
theorem eventsOf_crowd (hk : k<2^64-2) :
    eventsOf ((crowd k++[crowdEnd k]).map Arrival.datagram)=crowdEvents k := by
  have hadm := crowd_admissible hk
  obtain ⟨e,ready,hi,hspec⟩ := hadm.ingestAll_ok
  have hcons := hadm.consistent
  rw [carried_crowdSession hk.le] at hspec hcons
  have hnext : (UInt64.ofNat (k+1)).toNat=k+1 :=
    UInt64.toNat_ofNat_of_lt' (by simp only [UInt64.size]; omega)
  have hexp : e.expected=UInt64.ofNat (k+1) := by
    refine Pipeline.expected_unique (fun t => hspec.below) hspec.missing (fun t h1 h2 => ?_)
      (fun m hm he => ?_) hspec.delivered.start_le ?_
    · rw [UInt64.le_iff_toNat_le,UInt64.toNat_one] at h1
      rw [UInt64.lt_iff_toNat_lt,hnext] at h2
      have hlt : t.toNat-1<k := by omega
      refine ⟨crowdMessage (t.toNat-1),List.mem_map_of_mem (List.mem_range.mpr hlt),?_⟩
      rw [← UInt64.toNat_inj,crowd_sequence (hlt.trans hk)]
      omega
    · obtain ⟨i,hi,rfl⟩ := List.mem_map.mp hm
      have hs := crowd_sequence ((List.mem_range.mp hi).trans hk)
      rw [he,hnext] at hs
      exact absurd (List.mem_range.mp hi) (by omega)
    · rw [UInt64.le_iff_toNat_le,hnext,UInt64.toNat_one]
      omega
  have hready : ready=(List.range k).map crowdMessage := by
    refine Pipeline.released_unique hcons hspec.mem (fun m hm => hm) ?_
    rw [hspec.delivered.order,hexp,hnext,List.map_map,UInt64.toNat_one,
      Nat.add_sub_cancel,List.range'_eq_map_range]
    refine List.map_congr_left fun i hi => ?_
    rw [Function.comp_apply,crowd_sequence ((List.mem_range.mp hi).trans hk)]
    omega
  rw [eventsOf_eq hi,hready,crowdEvents,List.filterMap_map,← List.filterMap_eq_map]
  refine List.filterMap_congr fun i _ => ?_
  rw [Function.comp_apply,decoded,crowdMessage,decode_addMsg _ sideFromChar_buy]
  rfl

theorem crowd_regular {a : Arrival} (h : a∈crowd k++[crowdEnd k]) : Listener.Regular a := by
  cases List.mem_append.mp h with
  | inl h =>
    obtain ⟨i,-,rfl⟩ := List.mem_map.mp h
    refine ⟨?_,rfl,rfl⟩
    rw [crowdPacket,moldPacket_eq]
    simp [frame,block,crowdMessage,length_addMsg,kMaxCaptureDatagramSize]
  | inr h =>
    cases List.mem_singleton.mp h
    exact ⟨by simp [crowdEnd,frame,kMaxCaptureDatagramSize],rfl,rfl⟩

theorem crowd_times (k : Nat) :
    ((crowd k++[crowdEnd k]).map Arrival.ns).Pairwise fun a b => a≤b := by
  have hzero : (crowd k++[crowdEnd k]).map Arrival.ns=List.replicate (k+1) 0 := by
    rw [List.map_append,crowd,List.map_map,List.replicate_succ']
    exact congrArg (·++[0]) (by simp [Function.comp_def])
  rw [hzero]
  exact List.pairwise_replicate_of_refl

theorem crowdEvents_take {es : List MarketEvent} (h : es<+:crowdEvents k) :
    es=crowdEvents (min es.length k) := by
  have he := List.prefix_iff_eq_take.mp h
  rwa [crowdEvents,← List.map_take,List.take_range,← crowdEvents] at he

/-- A book keeps as many orders of the crowd as it has slots. -/
theorem count_crowd {n : Nat} {b : OrderBook} (hb : OrderBook.create n=.ok b) (hk : k≤2^32-1) :
    (b.run (crowdEvents k)).liveOrderCount=min k n := by
  have hn : n≤2^32 := (OrderBook.create_ok hb).2.1.le.trans (by decide)
  rw [((OrderBook.create_rep hb).run _).liveOrderCount_eq]
  simpa using congrArg List.length (Ledger.run_crowd hn hk)

theorem listenWith_crowd {n : Nat} {b : OrderBook} (hb : OrderBook.create n=.ok b)
    (hk : k<2^64-2) : ∃ l0 l hash, listenWith n true (crowd k)=.ok (l0,.waiting) ∧
      listenWith n true (crowd k++[crowdEnd k])=.ok (l,.endOfSession hash) := by
  refine listenWith_ends hb true (crowd_admissible hk) (fun a ha => crowd_regular ha)
    (fun a ha p hp => ?_) (parse_crowdEnd k) rfl
  obtain ⟨i,hi,rfl⟩ := List.mem_map.mp ha
  dsimp only at hp
  rw [parse_crowdPacket ((List.mem_range.mp hi).trans hk)] at hp
  rw [← Except.ok.inj hp]

/-- Each command keeps as many orders of the crowd as its book has slots. -/
theorem crowd_counts {n n' : Nat} {b b' : OrderBook} (hb : OrderBook.create n=.ok b)
    (hb' : OrderBook.create n'=.ok b') (hk : k≤2^32-1) (io : Console) :
    ∃ l hash file report,
      listenWith n true (crowd k++[crowdEnd k])=.ok (l,.endOfSession hash) ∧
      l.capture=some file ∧ replayWith n' .maxSpeed file.out io=.ok report ∧
      l.pipeline.book.liveOrderCount=min k n ∧ report.liveOrders=min k n' := by
  have hk' : k<2^64-2 := by omega
  obtain ⟨l0,l,hash,hw,hl⟩ := listenWith_crowd hb hk'
  obtain ⟨file,report,hfile,hreport,hbook,-,hlive,-⟩ :=
    replay_capture hb hb' hw hl (crowd_times k) io
  rw [eventsOf_crowd hk'] at hbook hlive
  exact ⟨l,hash,file,report,hl,hfile,hreport,by rw [hbook,count_crowd hb hk],
    by rw [hlive,count_crowd hb' hk]⟩

end Crowd

/-- Replaying the capture of a live session goes through, and its book keeps the count of the
live one after every event exactly when no addition that could be taken meets a million live
orders. Under that condition it ends with the printed count and hash. -/
theorem replay_agrees {earlier : List Arrival} {last : Arrival} {l0 l : Listener}
    {hash : Option UInt64} (hw : listen true earlier=.ok (l0,.waiting))
    (hl : listen true (earlier++[last])=.ok (l,.endOfSession hash))
    (htime : ((earlier++[last]).map Arrival.ns).Pairwise fun a b => a≤b) (io : Console) :
    ∃ b b' events file report, OrderBook.create 2000000=.ok b ∧ OrderBook.create 1000000=.ok b' ∧
      events=eventsOf ((earlier++[last]).map Arrival.datagram) ∧
      l.pipeline.book=b.run events ∧ l.capture=some file ∧
      replay .maxSpeed file.out io=.ok report ∧
      (b.WithinCapacity 1000000 events →
        report.liveOrders=l.pipeline.book.liveOrderCount ∧ report.stateHash=hash) ∧
      (b.WithinCapacity 1000000 events ↔ ∀ es, es<+:events →
        (b'.run es).liveOrderCount=(b.run es).liveOrderCount) := by
  obtain ⟨b,hb⟩ := OrderBook.create_isOk (n := 2000000) (by decide) (by decide)
  obtain ⟨b',hb'⟩ := OrderBook.create_isOk (n := 1000000) (by decide) (by decide)
  have hlt : 1000000<2000000 := by decide
  obtain ⟨file,report,hfile,hreport,hbook,hh,hlive,hhash⟩ := replay_capture hb hb' hw hl htime io
  refine ⟨b,b',_,file,report,hb,hb',rfl,hbook,hfile,hreport,fun hc => ?_,
    OrderBook.withinCapacity_iff hb hb' hlt⟩
  obtain ⟨hcount,hsame⟩ := OrderBook.WithinCapacity.same_hash hb hb' hlt hc
  rw [hlive,hhash,hcount,hsame,hh,hbook]
  exact ⟨rfl,rfl⟩

/-- Three orders fit into either book. -/
theorem replay_agrees_three : ∃ l hash file report,
    listen true (crowd 3++[crowdEnd 3])=.ok (l,.endOfSession hash) ∧ l.capture=some file ∧
      replay .maxSpeed file.out {}=.ok report ∧
      report.liveOrders=l.pipeline.book.liveOrderCount ∧ report.stateHash=hash := by
  obtain ⟨b0,hb0⟩ := OrderBook.create_isOk (n := 2000000) (by decide) (by decide)
  obtain ⟨l0,l,hash,hw,hl⟩ := listenWith_crowd (k := 3) hb0 (by decide)
  obtain ⟨b,b',events,file,report,hb,hb',rfl,-,hfile,hreport,hagree,hiff⟩ :=
    replay_agrees hw hl (crowd_times 3) {}
  refine ⟨l,hash,file,report,hl,hfile,hreport,hagree (hiff.mpr fun es hes => ?_)⟩
  rw [eventsOf_crowd (by decide)] at hes
  rw [crowdEvents_take hes,count_crowd hb (by omega),count_crowd hb' (by omega)]
  omega

/-- A session of a million and one orders: the replay refuses the last of them. -/
theorem replay_drops_order : ∃ l hash file report,
    listen true (crowd 1000001++[crowdEnd 1000001])=.ok (l,.endOfSession hash) ∧
      (∀ a∈crowd 1000001++[crowdEnd 1000001], a.datagram.length≤65535) ∧
      ((crowd 1000001++[crowdEnd 1000001]).map Arrival.ns).Pairwise (fun a b => a≤b) ∧
      l.capture=some file ∧ replay .maxSpeed file.out {}=.ok report ∧
      l.pipeline.book.liveOrderCount=1000001 ∧ report.liveOrders=1000000 := by
  obtain ⟨b,hb⟩ := OrderBook.create_isOk (n := 2000000) (by decide) (by decide)
  obtain ⟨b',hb'⟩ := OrderBook.create_isOk (n := 1000000) (by decide) (by decide)
  obtain ⟨l,hash,file,report,hl,hfile,hreport,hlive,hreplayed⟩ :=
    crowd_counts (k := 1000001) hb hb' (by decide) {}
  exact ⟨l,hash,file,report,hl,fun a ha => (crowd_regular ha).size,crowd_times _,hfile,hreport,
    hlive,hreplayed⟩

end MarketWire
