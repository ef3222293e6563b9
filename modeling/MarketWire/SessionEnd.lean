import MarketWire.Listen

/-! The end of a live session. The loop stops on the end-of-session packet whatever is still
missing; the book is complete exactly when every number before the packet's has arrived. -/
namespace MarketWire
open Library MoldUdp64

theorem listenWith_ok {n : Nat} {capture : Bool} {arrivals : List Arrival}
    {out : Listener×ListenEnd} (h : listenWith n capture arrivals=.ok out) :
    ∃ b, OrderBook.create n=.ok b ∧
      Listener.loop ⟨⟨{ expected := 1 },b⟩,if capture then some CaptureWriter.create else none,[]⟩
        arrivals=.ok out := by
  rw [listenWith] at h
  cases hb : OrderBook.create n with
  | error e =>
    rw [hb] at h
    cases h
  | ok b =>
    rw [hb] at h
    exact ⟨b,rfl,h⟩

/-- A session that ended with `last`: everything has been taken, and `last` says so. -/
theorem listenWith_ended {n : Nat} {capture : Bool} {earlier : List Arrival} {last : Arrival}
    {l0 l : Listener} {hash : Option UInt64} (hw : listenWith n capture earlier=.ok (l0,.waiting))
    (hl : listenWith n capture (earlier++[last])=.ok (l,.endOfSession hash)) :
    ∃ b p, OrderBook.create n=.ok b ∧ parseDownstream last.datagram=.ok p ∧
      p.endOfSession=true ∧ hash=l.pipeline.book.stateHash ∧
      Listener.Took
        ⟨⟨{ expected := 1 },b⟩,if capture then some CaptureWriter.create else none,[]⟩
        (earlier++[last]) l := by
  obtain ⟨b,hb,h0⟩ := listenWith_ok hw
  obtain ⟨b',hb',h1⟩ := listenWith_ok hl
  obtain rfl : b=b' := Except.ok.inj (hb.symm.trans hb')
  rw [Listener.loop_append h0] at h1
  obtain ⟨p,hp,he,hh,ht⟩ := Listener.loop_last h1
  exact ⟨b,p,hb,hp,he,hh,(Listener.loop_waiting h0).trans ht⟩

theorem carried_append (ds ds' : List Bytes) : carried (ds++ds')=carried ds++carried ds' := by
  simp [carried,packetsOf,received]

/-- An end-of-session packet carries no message. -/
theorem carried_end {d : Bytes} {p : MoldDownstreamPacket} (hp : parseDownstream d=.ok p)
    (he : p.endOfSession=true) : carried [d]=[] := by
  simp [carried,packetsOf,received,hp,he,Except.toOption]

/-- The next number is beyond `N` exactly when all before `N` have arrived. -/
theorem InOrder.le_expected_iff {l ready : List MoldMessage} {e : RecoveryEngine} {N : Sequence}
    (h : InOrder 1 l e ready) :
    N≤e.expected ↔ ∀ s, 1 ≤ s → s<N → ∃ m∈l, m.sequence=s := by
  constructor
  · intro hN s h1 h2
    exact h.below h1 (UInt64.lt_of_lt_of_le h2 hN)
  · intro hall
    by_contra hN
    have hlt : e.expected<N := UInt64.not_le.mp hN
    obtain ⟨m,hm,he⟩ := hall e.expected h.delivered.start_le hlt
    exact h.missing m hm he

/-- Everything below the next number has been released. -/
theorem InOrder.released {l ready : List MoldMessage} {e : RecoveryEngine} {s : Sequence}
    (h : InOrder 1 l e ready) (h1 : 1 ≤ s) (h2 : s<e.expected) : ∃ m∈ready, m.sequence=s := by
  rw [UInt64.le_iff_toNat_le,UInt64.toNat_one] at h1
  rw [UInt64.lt_iff_toNat_lt] at h2
  have hm : s.toNat∈ready.map fun m => m.sequence.toNat := by
    rw [h.delivered.order,List.mem_range'_1,UInt64.toNat_one]
    omega
  obtain ⟨m,hmem,he⟩ := List.mem_map.mp hm
  exact ⟨m,hmem,UInt64.toNat_inj.mp he⟩

/-- The session ended by a packet with first sequence `N` is complete. -/
def SessionComplete (N : Sequence) (e : RecoveryEngine) (released : List MoldMessage) : Prop :=
  N≤e.expected ∧ ∀ s, 1 ≤ s → s<N → ∃ m∈released, m.sequence=s

theorem listen_complete_iff {capture : Bool} {earlier : List Arrival} {last : Arrival}
    {l0 l : Listener} {hash : Option UInt64} (hw : listen capture earlier=.ok (l0,.waiting))
    (hl : listen capture (earlier++[last])=.ok (l,.endOfSession hash)) :
    ∃ b p released, OrderBook.create 2000000=.ok b ∧ parseDownstream last.datagram=.ok p ∧
      p.endOfSession=true ∧
      RecoveryEngine.ingestAll { expected := 1 }
        (packetsOf ((earlier++[last]).map Arrival.datagram))=
          some (l.pipeline.recovery,released) ∧
      l.pipeline.book=b.run (released.filterMap decoded) ∧ hash=l.pipeline.book.stateHash ∧
      (SessionComplete p.firstSequence l.pipeline.recovery released ↔
        ∀ s, 1 ≤ s → s<p.firstSequence →
          ∃ m∈carried (earlier.map Arrival.datagram), m.sequence=s) := by
  obtain ⟨b,p,hb,hp,he,hh,ht⟩ := listenWith_ended hw hl
  obtain ⟨released,-,hi,hf⟩ := Pipeline.run_inv ht.run
  have hspec := RecoveryEngine.ingestAll_fresh hi
  have hcarried : carried ((earlier++[last]).map Arrival.datagram)=
      carried (earlier.map Arrival.datagram) := by
    rw [List.map_append,carried_append,List.map_singleton,carried_end hp he,List.append_nil]
  rw [← carried,hcarried] at hspec
  refine ⟨b,p,released,hb,hp,he,hi,(Pipeline.foldlM_handle_inv hf).2,hh,?_,?_⟩
  · rintro ⟨hN,-⟩
    exact hspec.le_expected_iff.mp hN
  · intro hall
    have hN := hspec.le_expected_iff.mpr hall
    exact ⟨hN,fun s h1 h2 => hspec.released h1 (UInt64.lt_of_lt_of_le h2 hN)⟩

/-- A session of one message that was lost: only its end arrives. -/
def lostSession : List Arrival :=
  [⟨false,0,frame (sessionFromString (text "DEMO")) 2 0xFFFF [],none⟩]

theorem listen_lostSession : ∃ l hash, listen false lostSession=.ok (l,.endOfSession hash) ∧
    l.pipeline.recovery.expected=1 := by
  obtain ⟨b,hb⟩ := OrderBook.create_isOk (n := 2000000) (by decide) (by decide)
  have hp : parseDownstream (frame (sessionFromString (text "DEMO")) 2 0xFFFF [])=
      .ok ⟨sessionFromString (text "DEMO"),2,0xFFFF,false,true,[]⟩ := by decide +kernel
  have hi : RecoveryEngine.ingest { expected := 1 }
      ⟨sessionFromString (text "DEMO"),2,0xFFFF,false,true,[]⟩=
        (⟨1,SortedMap.empty,some (sessionFromString (text "DEMO")),1,1⟩,
          .ok ⟨[],some ⟨1,1⟩,false,true⟩) := by decide +kernel
  have hq : (encodeRequest ⟨sessionFromString (text "DEMO"),1,1⟩).isOk := by decide +kernel
  obtain ⟨out,hout⟩ := exists_of_isOk hq
  refine ⟨⟨⟨⟨1,SortedMap.empty,some (sessionFromString (text "DEMO")),1,1⟩,b⟩,none,[out]⟩,
    b.stateHash,?_,rfl⟩
  have hrecv : Listener.receive ⟨⟨{ expected := 1 },b⟩,none,[]⟩
      ⟨false,0,frame (sessionFromString (text "DEMO")) 2 0xFFFF [],none⟩=
        .ok (⟨⟨⟨1,SortedMap.empty,some (sessionFromString (text "DEMO")),1,1⟩,b⟩,none,[out]⟩,
          ⟨[],some ⟨1,1⟩,false,true⟩) := by
    refine Listener.receive_ok rfl ?_ ?_ rfl
    · simp only [Pipeline.ingest,hp,hi]
    · simp only [Listener.rerequest,hout]
      rfl
  rw [listen,listenWith,hb,lostSession]
  simp only [Bool.false_eq_true,if_false,Listener.loop,hrecv]
  rfl

/-- The theorem on the lost session. -/
theorem listen_complete_iff_lost : ∃ p, parseDownstream (frame (sessionFromString (text "DEMO")) 2
      0xFFFF [])=.ok p ∧ ∃ l released,
    (SessionComplete p.firstSequence l.pipeline.recovery released ↔
      ∀ s, 1 ≤ s → s<p.firstSequence → ∃ m∈carried [], m.sequence=s) ∧
    ∃ hash, listen false lostSession=.ok (l,.endOfSession hash) := by
  obtain ⟨l,hash,hl,-⟩ := listen_lostSession
  obtain ⟨b,hb⟩ := OrderBook.create_isOk (n := 2000000) (by decide) (by decide)
  have hw : listen false []=.ok (⟨⟨{ expected := 1 },b⟩,none,[]⟩,.waiting) := by
    rw [listen,listenWith,hb]
    rfl
  obtain ⟨-,p,released,-,hp,-,-,-,-,hiff⟩ := listen_complete_iff hw hl
  exact ⟨p,hp,l,released,hiff,hash,hl⟩

/-- The loop stops and prints a hash although message 1 never arrived. -/
theorem listen_ends_over_gap : ∃ l hash p,
    listen false lostSession=.ok (l,.endOfSession hash) ∧
      (lostSession.map fun a => parseDownstream a.datagram)=[.ok p] ∧ p.endOfSession=true ∧
      p.firstSequence=2 ∧ ¬p.firstSequence≤l.pipeline.recovery.expected := by
  obtain ⟨l,hash,hl,he⟩ := listen_lostSession
  refine ⟨l,hash,⟨sessionFromString (text "DEMO"),2,0xFFFF,false,true,[]⟩,hl,by decide +kernel,
    rfl,rfl,?_⟩
  rw [he]
  decide

end MarketWire
