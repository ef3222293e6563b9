import MarketWire.RecoveryRequests

/-! Repeated requests. A request is longer than any earlier one with the same first number,
unless the hole is longer than a request can be: then every look at it repeats the request. -/
namespace MarketWire
open Library
open MoldUdp64

/-- Behind the packets `earlier` and `p` the first missing number is `s`, and the packet shows the
number `next` beyond it: a control packet the one it announces, a data packet the lowest that
has arrived. -/
structure Observes (s0 : Sequence) (earlier : List MoldDownstreamPacket) (p : MoldDownstreamPacket)
    (s next : Sequence) : Prop where
  start_le : s0 ≤ s
  below : ∀ t, s0≤t → t<s → ∃ m∈received (earlier++[p]), m.sequence=t
  missing : ∀ m∈received (earlier++[p]), m.sequence≠s
  control : (p.heartbeat || p.endOfSession)=true → next=p.firstSequence
  data : (p.heartbeat || p.endOfSession)=false → s<next ∧
    (∃ m∈received (earlier++[p]), m.sequence=next) ∧
    ∀ m∈received (earlier++[p]), s < m.sequence → next ≤ m.sequence

/-- Two packets look at one hole that is longer than a request: the first sees at least 0xFFFE
missing numbers, the second more. -/
def LongHoleSeenTwice (s0 : Sequence) (packets : List MoldDownstreamPacket) : Prop :=
  ∃ earlier p between q later s next next', packets=earlier++p::(between++q::later) ∧
    Observes s0 earlier p s next ∧ Observes s0 (earlier++p::between) q s next' ∧
    s.toNat+0xFFFE≤next.toNat ∧ s.toNat+0xFFFE<next'.toNat

namespace RecoveryEngine
variable {s0 : Sequence} {e : RecoveryEngine} {earlier : List Call} {c : Call} {s next : Sequence}

/-- Later requests for one number are longer. -/
def RequestsGrow (calls : List Call) : Prop :=
  ∀ earlier c between d later q q', calls=earlier++c::(between++d::later) →
    c.result.request=some q → d.result.request=some q' → q.first=q'.first → q.count<q'.count

theorem packetsOf_snoc (calls : List Call) (c : Call) :
    packetsOf (calls++[c])=packetsOf calls++[c.packet] := by
  rw [packetsOf,List.map_append]
  rfl

/-- The lowest buffered number is the lowest that has arrived beyond the hole. -/
theorem Calls.lowest_eq {calls : List Call} (h : Calls s0 calls e) (hlt : e.expected<next) :
    e.lowest=next ↔ (∃ m∈received (packetsOf calls), m.sequence=next) ∧
      ∀ m∈received (packetsOf calls), e.expected < m.sequence → next ≤ m.sequence := by
  have hin := h.inOrder
  unfold lowest
  cases hf : e.pending.first? with
  | none =>
    have hempty : e.pending.find? next=none :=
      (SortedMap.isEmpty_iff _).mp (by simpa [SortedMap.first?,SortedMap.isEmpty] using hf) next
    have habsent : ¬∃ m∈received (packetsOf calls), m.sequence=next := fun ha => by
      have hsome := hin.isSome_pending.mpr ⟨hlt,ha⟩
      rw [hempty] at hsome
      cases hsome
    refine ⟨fun h0 => ?_,fun h => absurd h.1 habsent⟩
    rw [← h0] at hlt
    exact absurd (UInt64.lt_iff_toNat_lt.mp hlt) (Nat.not_lt_zero _)
  | some entry =>
    obtain ⟨hfound,hleast⟩ := SortedMap.first?_eq_some hf
    have hentry := hin.isSome_pending.mp (Option.isSome_iff_exists.mpr ⟨_,hfound⟩)
    constructor
    · rintro rfl
      refine ⟨hentry.2,fun m hm hgt => ?_⟩
      rcases hleast m.sequence (hin.isSome_pending.mpr ⟨hgt,m,hm,rfl⟩) with he | hlt
      · exact UInt64.le_of_eq he.symm
      · exact UInt64.le_of_lt hlt
    · rintro ⟨ha,hall⟩
      obtain ⟨m,hm,he⟩ := hentry.2
      have hle : next≤entry.1 := he ▸ hall m hm (he.symm ▸ hentry.1)
      rcases hleast next (hin.isSome_pending.mpr ⟨hlt,ha⟩) with he | hlt
      · exact he.symm
      · exact absurd hle (UInt64.not_le.mpr hlt)

/-- What a packet shows is what the engine sees. -/
theorem Calls.of_observes (h : Calls s0 (earlier++[c]) c.after)
    (ho : Observes s0 (packetsOf earlier) c.packet s next) :
    c.after.expected=s ∧ c.after.horizon c.packet=next := by
  have hexp : c.after.expected=s := by
    refine h.inOrder.expected_unique ho.start_le ?_ ?_
    · rw [packetsOf_snoc]
      exact ho.below
    · rw [packetsOf_snoc]
      exact ho.missing
  subst hexp
  refine ⟨rfl,?_⟩
  unfold horizon
  split_ifs with hk
  · exact (ho.control hk).symm
  · obtain ⟨hlt,hdata⟩ := ho.data (Bool.eq_false_iff.mpr hk)
    rw [h.lowest_eq hlt,packetsOf_snoc]
    exact hdata

theorem Calls.observes (h : Calls s0 (earlier++[c]) c.after) (hhole : 0<c.hole) :
    Observes s0 (packetsOf earlier) c.packet c.after.expected (c.after.horizon c.packet) := by
  have hin := h.inOrder
  rw [packetsOf_snoc] at hin
  refine ⟨hin.delivered.start_le,fun t => hin.below,hin.missing,fun hk => ?_,fun hk => ?_⟩
  · rw [horizon,if_pos hk]
  · have hlow : c.after.horizon c.packet=c.after.lowest := by
      rw [horizon,hk,if_neg Bool.false_ne_true]
    have hlt : c.after.expected<c.after.lowest := by
      rw [Call.hole,hlow] at hhole
      exact UInt64.lt_iff_toNat_lt.mpr (by omega)
    rw [hlow,← packetsOf_snoc]
    exact ⟨hlt,(h.lowest_eq hlt).mp rfl⟩

/-- In terms of the calls: two of them see one hole that is longer than a request. -/
theorem Calls.seenTwice_iff {calls : List Call} (h : Calls s0 calls e) :
    LongHoleSeenTwice s0 (packetsOf calls) ↔ ∃ earlier c between d later,
      calls=earlier++c::(between++d::later) ∧ c.after.expected=d.after.expected ∧
        requestCap≤c.hole ∧ requestCap<d.hole := by
  have hcap : requestCap=0xFFFE := rfl
  constructor
  · rintro ⟨earlier,p,between,q,later,s,next,next',hsplit,hp,hq,hlong,hlonger⟩
    obtain ⟨ce,cr,rfl,rfl,hcr⟩ := List.map_eq_append_iff.mp hsplit
    obtain ⟨c,cr',rfl,rfl,hcr'⟩ := List.map_eq_cons_iff.mp hcr
    obtain ⟨cb,cl,rfl,rfl,hcl⟩ := List.map_eq_append_iff.mp hcr'
    obtain ⟨d,cl',rfl,rfl,rfl⟩ := List.map_eq_cons_iff.mp hcl
    obtain ⟨hc,hc'⟩ := (h.upTo rfl).of_observes hp
    have hd := h.upTo (show _=(ce++c::cb)++d::cl' by simp)
    obtain ⟨hd,hd'⟩ := hd.of_observes (by rw [packetsOf,List.map_append,List.map_cons]; exact hq)
    refine ⟨ce,c,cb,d,cl',rfl,hc.trans hd.symm,?_,?_⟩
    · rw [Call.hole,hc,hc']
      omega
    · rw [Call.hole,hd,hd']
      omega
  · rintro ⟨ce,c,cb,d,cl,rfl,hsame,hlong,hlonger⟩
    have hc := (h.upTo rfl).observes (by omega)
    have hd := (h.upTo (show _=(ce++c::cb)++d::cl by simp)).observes (by omega)
    rw [Call.hole] at hlong hlonger
    refine ⟨packetsOf ce,c.packet,packetsOf cb,d.packet,packetsOf cl,c.after.expected,
      c.after.horizon c.packet,d.after.horizon d.packet,by simp [packetsOf],hc,?_,by omega,?_⟩
    · rw [hsame]
      simpa [packetsOf] using hd
    · rw [hsame]
      omega

/-- Two requests for one number, unless the hole is too long for a request. -/
theorem Calls.grows {calls between later : List Call} {d : Call} {q q' : GapRequest}
    (h : Calls s0 calls e) (hs : s0≠0) (hsplit : calls=earlier++c::(between++d::later))
    (hq : c.result.request=some q) (hq' : d.result.request=some q') (hfirst : q.first=q'.first) :
    q.count<q'.count ∨
      c.after.expected=d.after.expected ∧ requestCap≤c.hole ∧ requestCap<d.hole := by
  have hsplit' : calls=(earlier++c::between)++d::later := by simp [hsplit]
  rw [h.request_eq hs hsplit] at hq
  rw [h.request_eq hs hsplit'] at hq'
  obtain ⟨-,hf,hn⟩ := requestFor_eq_some hq
  obtain ⟨hlonger,hf',hn'⟩ := requestFor_eq_some hq'
  have hsame : c.after.expected=d.after.expected := hf.symm.trans (hfirst.trans hf')
  have hle := le_wanted (by simp : c∈earlier++c::between)
  rw [hsame] at hle
  by_cases hlong : requestCap≤c.hole
  · exact .inr ⟨hsame,hlong,by omega⟩
  · refine .inl (UInt16.lt_iff_toNat_lt.mpr ?_)
    omega

/-- A hole that is longer than a request is asked for again. -/
theorem Calls.repeats {calls between later : List Call} {d : Call} (h : Calls s0 calls e)
    (hs : s0≠0) (hsplit : calls=earlier++c::(between++d::later))
    (hsame : c.after.expected=d.after.expected) (hlong : requestCap≤c.hole)
    (hlonger : requestCap<d.hole) : ¬RequestsGrow calls := by
  have hcap : requestCap=0xFFFE := rfl
  have hsplit' : calls=(earlier++c::between)++d::later := by simp [hsplit]
  -- a request of full length has been made by the time of `c`
  have hfull : wanted (earlier++[c]) c.after.expected=requestCap := by
    have hle := le_wanted (by simp : c∈earlier++[c])
    have hge := wanted_le (earlier++[c]) c.after.expected
    omega
  obtain ⟨q,hq,hfirst,hcount⟩ := ((h.upTo hsplit).remembers hs).made (by omega)
  obtain ⟨c',hc',hq⟩ := List.mem_filterMap.mp hq
  obtain ⟨before,behind,hcut⟩ := List.append_of_mem hc'
  -- and `d` makes it once more
  have hasks : wanted (earlier++c::between) d.after.expected<d.hole :=
    (wanted_le _ _).trans_lt hlonger
  have hd := h.request_eq hs hsplit'
  rw [requestFor,if_pos hasks] at hd
  intro hgrow
  have hlt := hgrow before c' (behind++between) d later q _
    (by rw [hsplit',show earlier++c::between=(earlier++[c])++between by simp,hcut]; simp)
    hq hd (hfirst.trans hsame)
  rw [UInt16.lt_iff_toNat_lt,hcount,hfull,
    UInt16.toNat_ofNat_of_lt' (by simp only [UInt16.size]; omega)] at hlt
  omega

/-- Over a run the requests for one number grow exactly when no hole that is longer than a request
is looked at twice. -/
theorem requestsGrow_iff (hs : 1 ≤ s0) {calls : List Call} (h : Calls s0 calls e) :
    RequestsGrow calls ↔ ¬LongHoleSeenTwice s0 (packetsOf calls) := by
  have h0 : s0≠0 := fun he => by
    rw [he] at hs
    exact absurd hs (by decide)
  rw [h.seenTwice_iff]
  constructor
  · rintro hgrow ⟨earlier,c,between,d,later,hsplit,hsame,hlong,hlonger⟩
    exact h.repeats h0 hsplit hsame hlong hlonger hgrow
  · intro hnone earlier c between d later q q' hsplit hq hq' hfirst
    refine (h.grows h0 hsplit hq hq' hfirst).resolve_right fun hlong => ?_
    exact hnone ⟨earlier,c,between,d,later,hsplit,hlong⟩

/-- Two packets far ahead: the same request twice. -/
theorem requests_repeat : ∃ first second, Calls 1 [first,second] second.after ∧
    first.result.request=some ⟨1,0xFFFE⟩ ∧ second.result.request=some ⟨1,0xFFFE⟩ ∧
    ¬RequestsGrow [first,second] := by
  obtain ⟨e1,r1,h1,hq1,e2,r2,h2,hq2⟩ : ∃ e1 r1, ingest { expected := 1 }
      ⟨Vector.replicate 10 32,100000,1,false,false,[⟨100000,[]⟩]⟩=(e1,.ok r1) ∧
        r1.request=some ⟨1,0xFFFE⟩ ∧ ∃ e2 r2,
        e1.ingest ⟨Vector.replicate 10 32,100001,1,false,false,[⟨100001,[]⟩]⟩=(e2,.ok r2) ∧
        r2.request=some ⟨1,0xFFFE⟩ :=
    ⟨_,_,rfl,by decide,_,_,rfl,by decide⟩
  refine ⟨⟨_,e1,r1⟩,⟨_,e2,r2⟩,.call _ (.call _ .start h1) h2,hq1,hq2,fun hgrow => ?_⟩
  exact absurd (hgrow [] ⟨_,e1,r1⟩ [] ⟨_,e2,r2⟩ [] _ _ rfl hq1 hq2 rfl) (by decide)

/-- Two heartbeats into one short hole: the second request is longer. -/
theorem requestsGrow_iff_heartbeats : ∃ first second, Calls 1 [first,second] second.after ∧
    first.result.request=some ⟨1,4⟩ ∧ second.result.request=some ⟨1,6⟩ ∧
    RequestsGrow [first,second] := by
  obtain ⟨e1,r1,h1,hq1,e2,r2,h2,hq2⟩ : ∃ e1 r1, ingest { expected := 1 }
      ⟨Vector.replicate 10 32,5,0,true,false,[]⟩=(e1,.ok r1) ∧ r1.request=some ⟨1,4⟩ ∧ ∃ e2 r2,
        e1.ingest ⟨Vector.replicate 10 32,7,0,true,false,[]⟩=(e2,.ok r2) ∧
        r2.request=some ⟨1,6⟩ :=
    ⟨_,_,rfl,by decide,_,_,rfl,by decide⟩
  have hcalls := Calls.call _ (Calls.call _ Calls.start h1) h2
  refine ⟨⟨_,e1,r1⟩,⟨_,e2,r2⟩,hcalls,hq1,hq2,(requestsGrow_iff (by decide) hcalls).mpr ?_⟩
  rintro ⟨earlier,p,between,q,later,s,next,next',hsplit,hp,-,hlong,-⟩
  have hmem : p∈[(⟨Vector.replicate 10 32,5,0,true,false,[]⟩ : MoldDownstreamPacket),
      ⟨Vector.replicate 10 32,7,0,true,false,[]⟩] := by
    rw [show [(⟨Vector.replicate 10 32,5,0,true,false,[]⟩ : MoldDownstreamPacket),
      ⟨Vector.replicate 10 32,7,0,true,false,[]⟩]=_ from hsplit]
    simp
  have hsmall : next.toNat<0xFFFE := by
    simp only [List.mem_cons,List.not_mem_nil,or_false] at hmem
    rcases hmem with rfl | rfl
    · rw [hp.control rfl]
      decide
    · rw [hp.control rfl]
      decide
  omega

end RecoveryEngine
end MarketWire
