import MarketWire.RecoveryRepeats

/-! Requests as a conversation: when exactly the engine asks, that buffered messages alone never
make it ask again, and that answered requests carry it to the end of any gap. -/
namespace MarketWire
open Library
open MoldUdp64

namespace RecoveryEngine
variable {s0 : Sequence} {e : RecoveryEngine} {calls earlier later : List Call} {c : Call}
  {s : Sequence}

/-- Less than `n` has been wanted for a number exactly when each hole seen at it calls for less. -/
theorem wanted_lt_iff {n : Nat} : wanted calls s<n ↔
    0<n ∧ ∀ c∈calls, c.after.expected=s → min c.hole requestCap<n := by
  induction calls using List.reverseRecOn with
  | nil => simp [wanted]
  | append_singleton calls c ih =>
    rw [wanted_snoc]
    by_cases hc : c.after.expected=s
    · rw [if_pos hc,max_lt_iff,ih]
      simp only [List.mem_append,List.mem_singleton]
      constructor
      · rintro ⟨⟨hn,hall⟩,hlt⟩
        refine ⟨hn,fun d hd hs => ?_⟩
        rcases hd with hd | rfl
        · exact hall d hd hs
        · exact hlt
      · rintro ⟨hn,hall⟩
        exact ⟨⟨hn,fun d hd => hall d (.inl hd)⟩,hall c (.inr rfl) hc⟩
    · rw [if_neg hc,ih]
      simp only [List.mem_append,List.mem_singleton]
      constructor
      · rintro ⟨hn,hall⟩
        refine ⟨hn,fun d hd hs => ?_⟩
        rcases hd with hd | rfl
        · exact hall d hd hs
        · exact absurd hs hc
      · rintro ⟨hn,hall⟩
        exact ⟨hn,fun d hd => hall d (.inl hd)⟩

/-- The hole that a packet shows at `s` had been seen, and called for as much, before. -/
def SeenBefore (s0 : Sequence) (earlier : List MoldDownstreamPacket) (s next : Sequence) : Prop :=
  ∃ before p after next', earlier=before++p::after ∧ Observes s0 before p s next' ∧
    next.toNat-s.toNat ≤ min (next'.toNat-s.toNat) requestCap

/-- The packet shows a hole that calls for more than every packet before it did at the same missing
number. -/
def ShowsMore (s0 : Sequence) (earlier : List MoldDownstreamPacket) (p : MoldDownstreamPacket) :
    Prop :=
  ∃ s next, Observes s0 earlier p s next ∧ s<next ∧ ¬SeenBefore s0 earlier s next

theorem Calls.asks (hs : 1 ≤ s0) (h : Calls s0 (earlier++c::later) e) :
    (∃ q, c.result.request=some q) ↔ ShowsMore s0 (packetsOf earlier) c.packet := by
  have h0 : s0≠0 := fun he => by
    rw [he] at hs
    exact absurd hs (by decide)
  have hc := h.upTo rfl
  have hask : (∃ q, c.result.request=some q) ↔ wanted earlier c.after.expected<c.hole := by
    rw [h.request_eq h0 rfl,requestFor]
    split_ifs with hw
    · exact iff_of_true ⟨_,rfl⟩ hw
    · exact iff_of_false (by simp) hw
  have hcut : c.hole=(c.after.horizon c.packet).toNat-c.after.expected.toNat := rfl
  rw [hask,wanted_lt_iff]
  constructor
  · rintro ⟨hpos,hall⟩
    refine ⟨_,_,hc.observes hpos,UInt64.lt_iff_toNat_lt.mpr (by omega),?_⟩
    rintro ⟨before,p,after,next',hsplit,ho,hle⟩
    obtain ⟨cb,cr,rfl,rfl,hcr⟩ := List.map_eq_append_iff.mp hsplit
    obtain ⟨d,ca,rfl,rfl,rfl⟩ := List.map_eq_cons_iff.mp hcr
    obtain ⟨hexp,hnext⟩ := (h.upTo (show _=cb++d::(ca++c::later) by simp)).of_observes ho
    have hlt := hall d (by simp) hexp
    have hhole : d.hole=next'.toNat-c.after.expected.toNat := by rw [Call.hole,hexp,hnext]
    rw [hhole] at hlt
    omega
  · rintro ⟨s,next,ho,hlt,hnew⟩
    obtain ⟨rfl,rfl⟩ := hc.of_observes ho
    have hlt := UInt64.lt_iff_toNat_lt.mp hlt
    refine ⟨by omega,fun d hd hexp => ?_⟩
    by_contra hge
    obtain ⟨cb,ca,rfl⟩ := List.append_of_mem hd
    have hpos : 0<d.hole := by omega
    have hod := (h.upTo (show _=cb++d::(ca++c::later) by simp)).observes hpos
    rw [hexp] at hod
    refine hnew ⟨packetsOf cb,d.packet,packetsOf ca,_,by simp [packetsOf],hod,?_⟩
    have hhole : d.hole=(d.after.horizon d.packet).toNat-c.after.expected.toNat := by
      rw [Call.hole,hexp]
    rw [← hhole]
    omega

/-- The engine asks behind a packet exactly when the packet shows a hole that calls for more than
every packet before it did at the same missing number. -/
theorem asks_iff (hs : 1 ≤ s0) (h : Calls s0 (earlier++c::later) e) :
    (∃ q, c.result.request=some q) ↔ ∃ s next, Observes s0 (packetsOf earlier) c.packet s next ∧
      s<next ∧ ¬SeenBefore s0 (packetsOf earlier) s next :=
  h.asks hs

/-- The same heartbeat twice: the second shows nothing that the first did not. -/
theorem asks_iff_heartbeats : ∃ first second, Calls 1 ([first]++second::[]) second.after ∧
    first.result.request=some ⟨1,4⟩ ∧ second.result.request=none ∧
    ¬∃ s next, Observes 1 (packetsOf [first]) second.packet s next ∧
      s<next ∧ ¬SeenBefore 1 (packetsOf [first]) s next := by
  obtain ⟨e1,r1,h1,hq1,e2,r2,h2,hq2⟩ : ∃ e1 r1, ingest { expected := 1 }
      ⟨Vector.replicate 10 32,5,0,true,false,[]⟩=(e1,.ok r1) ∧ r1.request=some ⟨1,4⟩ ∧ ∃ e2 r2,
        e1.ingest ⟨Vector.replicate 10 32,5,0,true,false,[]⟩=(e2,.ok r2) ∧ r2.request=none :=
    ⟨_,_,rfl,by decide,_,_,rfl,by decide⟩
  have hcalls : Calls 1 ([⟨_,e1,r1⟩]++⟨_,e2,r2⟩::[]) e2 :=
    .call _ (.call _ .start h1) h2
  refine ⟨⟨_,e1,r1⟩,⟨_,e2,r2⟩,hcalls,hq1,hq2,fun hasks => ?_⟩
  obtain ⟨q,hq⟩ := (asks_iff (by decide) hcalls).mpr hasks
  exact absurd (hq2.symm.trans hq) (by simp)

/-- The lowest buffered number falls while the engine stays where it is. -/
theorem Calls.lowest_le {calls more : List Call} {e' : RecoveryEngine} {entry : Sequence×Bytes}
    (h : Calls s0 calls e) (h' : Calls s0 (calls++more) e') (hexp : e'.expected=e.expected)
    (hf : e.pending.first?=some entry) : e'.lowest≤entry.1 := by
  have hfound := (SortedMap.first?_eq_some hf).1
  obtain ⟨hlt,m,hm,hs⟩ := h.inOrder.isSome_pending.mp (Option.isSome_iff_exists.mpr ⟨_,hfound⟩)
  have hkept : (e'.pending.find? entry.1).isSome := by
    refine h'.inOrder.isSome_pending.mpr ⟨hexp ▸ hlt,m,?_,hs⟩
    rw [packetsOf,List.map_append,received,List.flatMap_append]
    exact List.mem_append_left _ hm
  unfold lowest
  cases hf' : e'.pending.first? with
  | none => exact UInt64.le_iff_toNat_le.mpr (Nat.zero_le _)
  | some entry' =>
    rcases (SortedMap.first?_eq_some hf').2 entry.1 hkept with he | hlt
    · exact UInt64.le_of_eq he.symm
    · exact UInt64.le_of_lt hlt

theorem wanted_le_append (calls more : List Call) (s : Sequence) :
    wanted calls s≤wanted (calls++more) s := by
  induction more using List.reverseRecOn with
  | nil => rw [List.append_nil]
  | append_singleton more d ih =>
    rw [← List.append_assoc,wanted_snoc]
    split_ifs
    · exact ih.trans (le_max_left _ _)
    · exact ih

/-- While the engine waits for one number, with something buffered that a request reaches, data
packets do not make it ask. -/
theorem data_asks_once (hs : 1 ≤ s0) {between : List Call} {d : Call} {entry : Sequence×Bytes}
    (h : Calls s0 (earlier++c::(between++d::later)) e)
    (hsame : c.after.expected=d.after.expected) (hf : c.after.pending.first?=some entry)
    (hnear : entry.1.toNat≤c.after.expected.toNat+0xFFFE)
    (hk : (d.packet.heartbeat || d.packet.endOfSession)=false) : d.result.request=none := by
  have h0 : s0≠0 := fun he => by
    rw [he] at hs
    exact absurd hs (by decide)
  have hcap : requestCap=0xFFFE := rfl
  have hsplit : earlier++c::(between++d::later)=(earlier++[c]++between)++d::later := by simp
  have hc := h.upTo rfl
  have hd := h.upTo hsplit
  rw [h.request_eq h0 hsplit,requestFor,if_neg]
  -- what was wanted at `c` covers the hole that `d` sees
  have hcovered := hc.covered
  rw [show c.after.lowest=entry.1 by rw [lowest,hf]] at hcovered
  have hle := wanted_le_append (earlier++[c]) between c.after.expected
  have hlow := UInt64.le_iff_toNat_le.mp
    (hc.lowest_le (show Calls s0 ((earlier++[c])++(between++[d])) _ by simpa using hd) hsame.symm hf)
  have hhole : d.hole=d.after.lowest.toNat-d.after.expected.toNat := by
    rw [Call.hole,horizon,hk,if_neg Bool.false_ne_true]
  rw [hhole,← hsame]
  omega

/-- Message 5 makes the engine ask for 1 to 4; message 3 then does not. -/
theorem data_asks_once_two : ∃ first second, Calls 1 [first,second] second.after ∧
    first.result.request=some ⟨1,4⟩ ∧ second.result.request=none := by
  obtain ⟨e1,r1,h1,hq1,hf,e2,r2,h2,hexp⟩ : ∃ e1 r1, ingest { expected := 1 }
      ⟨Vector.replicate 10 32,5,1,false,false,[⟨5,[7]⟩]⟩=(e1,.ok r1) ∧
        r1.request=some ⟨1,4⟩ ∧ e1.pending.first?=some (5,[7]) ∧ ∃ e2 r2,
        e1.ingest ⟨Vector.replicate 10 32,3,1,false,false,[⟨3,[8]⟩]⟩=(e2,.ok r2) ∧
        e1.expected=1 ∧ e1.expected=e2.expected :=
    ⟨_,_,rfl,by decide,by decide,_,_,rfl,by decide,by decide⟩
  have hcalls : Calls 1 ([]++⟨_,e1,r1⟩::([]++⟨_,e2,r2⟩::[])) e2 :=
    .call _ (.call _ .start h1) h2
  refine ⟨_,_,hcalls,hq1,data_asks_once (by decide) hcalls hexp.2 hf ?_ rfl⟩
  rw [hexp.1]
  decide

/-- Every number below `n` that one of the requests asks for has arrived. -/
def Answered (n : Sequence) (calls all : List Call) : Prop :=
  ∀ q∈requestsOf calls, ∀ s, q.AsksFor s → s<n → ∃ m∈received (packetsOf all), m.sequence=s

/-- Rounds: a control packet announces `n`, and before the next one does, what has been asked for
so far arrives. Anything may arrive besides. -/
inductive Rounds (s0 n : Sequence) : Nat → List Call → RecoveryEngine → Prop where
  | start {calls : List Call} {e : RecoveryEngine} : Calls s0 calls e → Rounds s0 n 0 calls e
  | round {k : Nat} {calls answers : List Call} {e e' : RecoveryEngine} {c : Call} :
      Rounds s0 n k calls e → Calls s0 (calls++c::answers) e' →
      (c.packet.heartbeat || c.packet.endOfSession)=true → c.packet.firstSequence=n →
      Answered n (calls++[c]) (calls++c::answers) → Rounds s0 n (k+1) (calls++c::answers) e'

theorem Rounds.toCalls {n : Sequence} {k : Nat} {calls : List Call} (h : Rounds s0 n k calls e) :
    Calls s0 calls e := by
  cases h with
  | start h => exact h
  | round _ h => exact h

/-- A call does not move the engine back. -/
theorem Calls.expected_mono {calls more : List Call} {e' : RecoveryEngine}
    (h : Calls s0 calls e) (h' : Calls s0 (calls++more) e') : e.expected≤e'.expected := by
  refine UInt64.not_lt.mp fun hlt => ?_
  obtain ⟨m,hm,hs⟩ := h.inOrder.below h'.inOrder.delivered.start_le hlt
  refine h'.inOrder.missing m ?_ hs
  rw [packetsOf,List.map_append,received,List.flatMap_append]
  exact List.mem_append_left _ hm

theorem Calls.first_le {calls : List Call} {q : GapRequest} (h : Calls s0 calls e) (hs : s0≠0)
    (hq : q∈requestsOf calls) : s0≤q.first := by
  obtain ⟨c,hc,hasked⟩ := List.mem_filterMap.mp hq
  obtain ⟨before,after,rfl⟩ := List.append_of_mem hc
  rw [(h.request_bounds hs hasked).1]
  exact (h.upTo rfl).inOrder.delivered.start_le

/-- One round moves the engine on by what one request covers, or to the announced number. -/
theorem Calls.round {n : Sequence} {calls answers : List Call} {e' : RecoveryEngine}
    (h : Calls s0 (calls++c::answers) e') (hs : s0≠0)
    (hk : (c.packet.heartbeat || c.packet.endOfSession)=true) (hn : c.packet.firstSequence=n)
    (ha : Answered n (calls++[c]) (calls++c::answers)) :
    min n.toNat (c.after.expected.toNat+requestCap)≤e'.expected.toNat := by
  have hcap : requestCap=0xFFFE := rfl
  have hc := h.upTo rfl
  have hmono := UInt64.le_iff_toNat_le.mp
    (hc.expected_mono (show Calls s0 ((calls++[c])++answers) _ by simpa using h))
  by_cases hlt : c.after.expected<n
  · obtain ⟨q,hq,hfirst,hreach⟩ := hc.asked_control hs hk (hn ▸ hlt)
    rw [hn] at hreach
    rw [UInt64.lt_iff_toNat_lt] at hlt
    have hpos : 0<c.after.expected.toNat :=
      (Nat.pos_of_ne_zero fun h0 => hs (UInt64.toNat_inj.mp h0)).trans_le
        (UInt64.le_iff_toNat_le.mp hc.inOrder.delivered.start_le)
    rw [GapRequest.last,hfirst] at hreach
    by_contra hshort
    -- the number that the engine waits for had been asked for
    obtain ⟨m,hm,he⟩ := ha q hq e'.expected
      ⟨hfirst ▸ UInt64.le_iff_toNat_le.mpr hmono,by rw [hfirst]; omega⟩
      (UInt64.lt_iff_toNat_lt.mpr (by omega))
    exact h.inOrder.missing m hm he
  · have hle := UInt64.le_iff_toNat_le.mp (UInt64.not_lt.mp hlt)
    omega

/-- Each answered round closes the gap by what one request covers. -/
theorem Rounds.reach (hs : s0≠0) {n : Sequence} {k : Nat} {calls : List Call}
    (h : Rounds s0 n k calls e) : min n.toNat (s0.toNat+k*requestCap)≤e.expected.toNat := by
  induction h with
  | start h =>
    have hle := UInt64.le_iff_toNat_le.mp h.inOrder.delivered.start_le
    omega
  | @round k calls answers e e' c hprev hcalls hk hn ha ih =>
    have hround := hcalls.round hs hk hn ha
    have hmono := UInt64.le_iff_toNat_le.mp
      (hprev.toCalls.expected_mono (show Calls s0 (calls++[c]) _ from hcalls.upTo rfl))
    rw [Nat.succ_mul]
    omega

end RecoveryEngine
end MarketWire
