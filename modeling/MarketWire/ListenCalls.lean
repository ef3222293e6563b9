import MarketWire.Listen
import MarketWire.RecoveryRepeats

/-! The live loop as a conversation with its engine: one call for each datagram, and every request
that a call makes is sent. -/
namespace MarketWire
open Library MoldUdp64

namespace Listener
open RecoveryEngine
variable {l l' : Listener} {a : Arrival} {r : Result} {s0 : Sequence}

/-- The calls behind a listener: what arrived, and what was asked for is sent. -/
structure Called (s0 : Sequence) (session : Session) (ds : List Bytes) (calls : List Call)
    (l : Listener) : Prop where
  engine : Calls s0 calls l.pipeline.recovery
  packets : RecoveryEngine.packetsOf calls=MarketWire.packetsOf ds
  sent : ∀ q∈requestsOf calls, ∃ out∈l.sent, encodeRequest ⟨session,q.first,q.count⟩=.ok out

theorem receive_parts (h : l.receive a=.ok (l',r)) : ∃ p, parseDownstream a.datagram=.ok p ∧
    l.pipeline.recovery.ingest p=(l'.pipeline.recovery,.ok r) ∧
    rerequest a.sendFails l'.pipeline.recovery r l.sent=.ok l'.sent := by
  obtain ⟨hp,-⟩ := receive_inv h
  obtain ⟨p,hparse,hing,-⟩ := Pipeline.processPacket_inv hp
  refine ⟨p,hparse,hing,?_⟩
  obtain ⟨capture,-,h⟩ := bind_eq_ok.mp h
  obtain ⟨⟨recovery,r1⟩,-,h⟩ := bind_eq_ok.mp h
  obtain ⟨sent,h3,h⟩ := bind_eq_ok.mp h
  obtain ⟨book,-,h⟩ := bind_eq_ok.mp h
  cases h
  exact h3

/-- A datagram of the session adds its call. -/
theorem Called.receive {session : Session} {ds : List Bytes} {calls : List Call}
    (h : Called s0 session ds calls l) (hr : l.receive a=.ok (l',r))
    (hs : ∀ p, parseDownstream a.datagram=.ok p → p.session=session) :
    ∃ p, parseDownstream a.datagram=.ok p ∧
      Called s0 session (ds++[a.datagram]) (calls++[⟨p,l'.pipeline.recovery,r⟩]) l' := by
  obtain ⟨p,hp,hing,hsent⟩ := receive_parts hr
  refine ⟨p,hp,.call p h.engine hing,?_,?_⟩
  · rw [packetsOf_snoc,h.packets]
    simp [MarketWire.packetsOf,hp,Except.toOption]
  have hsession : l'.pipeline.recovery.session=some session :=
    (ingest_session hing).trans (congrArg some (hs p hp))
  rw [requestsOf_snoc]
  obtain ⟨hnone,hok⟩ | ⟨q,session',out,hq,hs',hout,he⟩ := rerequest_cases a.sendFails
    l'.pipeline.recovery l.sent (ingest_result hing).1
  · rw [hok] at hsent
    rw [hnone.resolve_right (by simp [hsession]),Option.toList_none,List.append_nil,
      ← Except.ok.inj hsent]
    exact h.sent
  · obtain rfl : session=session' := Option.some.inj (hsession.symm.trans hs')
    rw [he] at hsent
    rw [hq,sendUnicast_ok hsent]
    intro q' hq'
    cases List.mem_append.mp hq' with
    | inl hq' =>
      obtain ⟨out',hmem,he⟩ := h.sent q' hq'
      exact ⟨out',List.mem_append_left _ hmem,he⟩
    | inr hq' =>
      obtain rfl : q'=q := by simpa using hq'
      exact ⟨out,by simp,hout⟩

/-- The calls of a loop that is still waiting. -/
theorem Called.loop {session : Session} {ds : List Bytes} {calls : List Call}
    {arrivals : List Arrival} (h : Called s0 session ds calls l)
    (hl : l.loop arrivals=.ok (l',.waiting))
    (hs : ∀ a∈arrivals, ∀ p, parseDownstream a.datagram=.ok p → p.session=session) :
    ∃ more, Called s0 session (ds++arrivals.map Arrival.datagram) (calls++more) l' := by
  induction arrivals generalizing l ds calls with
  | nil =>
    cases hl
    exact ⟨[],by simpa using h⟩
  | cons a rest ih =>
    obtain hout | ⟨l1,r,-,hr,⟨-,-,hout⟩ | ⟨-,hl⟩⟩ := loop_cases hl
    · cases hout
    · cases hout
    · obtain ⟨p,-,h1⟩ := h.receive hr (hs a (by simp))
      obtain ⟨more,h2⟩ := ih h1 hl fun x hx => hs x (List.mem_cons_of_mem a hx)
      exact ⟨_::more,by simpa using h2⟩

/-- A loop that is still waiting was waiting before. -/
theorem loop_split {arrivals rest : List Arrival}
    (h : l.loop (arrivals++rest)=.ok (l',.waiting)) :
    ∃ l1, l.loop arrivals=.ok (l1,.waiting) ∧ l1.loop rest=.ok (l',.waiting) := by
  induction arrivals generalizing l with
  | nil => exact ⟨l,rfl,h⟩
  | cons a more ih =>
    obtain hout | ⟨l2,r,hs,hr,⟨-,-,hout⟩ | ⟨he,h⟩⟩ := loop_cases h
    · cases hout
    · cases hout
    · obtain ⟨l1,h1,h2⟩ := ih h
      exact ⟨l1,(loop_next hs hr he).trans h1,h2⟩

end Listener

end MarketWire
