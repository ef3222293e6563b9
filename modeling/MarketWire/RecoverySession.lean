import MarketWire.RecoveryOrder

/-! When a call returns: packets of one session whose messages stay below the last sequence
number never make the engine throw. -/
namespace MarketWire
open Library
open MoldUdp64

/-- The engine has seen no other session, and the last sequence number is not buffered. -/
structure OpenFor (session : Session) (e : RecoveryEngine) : Prop where
  session : e.session=none ∨ e.session=some session
  pending : e.pending.find? sequenceMax=none

/-- A packet of the session with room for a successor of each message. -/
structure InSession (session : Session) (p : MoldDownstreamPacket) : Prop where
  session : p.session=session
  bounded : ∀ m∈received [p], m.sequence≠sequenceMax

namespace RecoveryEngine
variable {session : Session} {e : RecoveryEngine} {r : Result}

theorem drainLoop_returns (n : Nat) (h : OpenFor session e) :
    ∃ e' r', drainLoop n e r=(e',r',none) ∧ OpenFor session e' := by
  induction n generalizing e r with
  | zero => exact ⟨e,r,rfl,h⟩
  | succ n ih =>
    rcases drainLoop_cases n e r with ⟨-,heq⟩ | ⟨payload,hf,hmax,-⟩ | ⟨payload,-,-,heq⟩
    · exact ⟨e,r,heq,h⟩
    · rw [hmax,h.pending] at hf
      cases hf
    · rw [heq]
      refine ih ⟨h.session,?_⟩
      rw [SortedMap.find?_erase]
      split_ifs
      · rfl
      · exact h.pending

theorem drain_returns (h : OpenFor session e) :
    ∃ e' r', e.drain r=(e',r',none) ∧ OpenFor session e' := by
  obtain ⟨e1,r1,hd,h1⟩ := drainLoop_returns (r := r) e.pending.size h
  rw [drain,hd]
  dsimp only
  split_ifs
  · exact ⟨_,_,rfl,h1.session,h1.pending⟩
  · exact ⟨_,_,rfl,h1⟩

theorem ingestMessage_returns (h : OpenFor session e) {m : MoldMessage}
    (hm : m.sequence≠sequenceMax) :
    ∃ e' r', e.ingestMessage r m=(e',r',none) ∧ OpenFor session e' := by
  rcases ingestMessage_cases e r m with ⟨-,heq⟩ | ⟨hs,hmax,-⟩ | ⟨-,-,heq⟩ | ⟨-,heq⟩
  · exact ⟨_,_,heq,h⟩
  · exact absurd (hs.trans hmax) hm
  · rw [heq]
    exact drain_returns ⟨h.session,h.pending⟩
  · refine ⟨_,_,heq,h.session,?_⟩
    rw [SortedMap.find?_tryEmplace,if_neg fun hk => hm hk.symm]
    exact h.pending

theorem ingestMessages_returns {ms : List MoldMessage} (h : OpenFor session e)
    (hm : ∀ m∈ms, m.sequence≠sequenceMax) :
    ∃ e' r', e.ingestMessages r ms=(e',r',none) ∧ OpenFor session e' := by
  induction ms generalizing e r with
  | nil => exact ⟨e,r,rfl,h⟩
  | cons m rest ih =>
    obtain ⟨e1,r1,h1,ho⟩ := ingestMessage_returns (r := r) h (hm m (by simp))
    rw [ingestMessages,h1]
    exact ih ho fun x hx => hm x (List.mem_cons_of_mem m hx)

theorem maybeRequest_session (e : RecoveryEngine) (r : Result) (next : Sequence) :
    (e.maybeRequest r next).1.session=e.session := by
  unfold maybeRequest
  dsimp only
  split_ifs <;> rfl

theorem maybeRequest_openFor (h : OpenFor session e) (r : Result) (next : Sequence) :
    OpenFor session (e.maybeRequest r next).1 :=
  ⟨by rw [maybeRequest_session]; exact h.session,
    by rw [(maybeRequest_frame e r next).2.1]; exact h.pending⟩

theorem ingest_returns (h : OpenFor session e) {p : MoldDownstreamPacket}
    (hp : InSession session p) : ∃ e' r', e.ingest p=(e',.ok r') ∧ OpenFor session e' := by
  have ho : OpenFor session { e with session := some p.session } :=
    ⟨.inr (congrArg some hp.session),h.pending⟩
  obtain ⟨e2,r2,h2,ho2⟩ := ingestMessages_returns (r := {}) ho hp.bounded
  rw [ingest_open (hp.session ▸ h.session),h2]
  exact ⟨_,_,rfl,maybeRequest_openFor ho2 r2 _⟩

/-- A whole run of such packets returns. -/
theorem ingestAll_returns {packets : List MoldDownstreamPacket} (h : OpenFor session e)
    (hp : ∀ p∈packets, InSession session p) : ∃ e' ready, e.ingestAll packets=some (e',ready) := by
  induction packets generalizing e with
  | nil => exact ⟨e,[],rfl⟩
  | cons p rest ih =>
    obtain ⟨e1,r1,h1,ho⟩ := ingest_returns h (hp p (by simp))
    obtain ⟨e2,ready,h2⟩ := ih ho fun q hq => hp q (List.mem_cons_of_mem p hq)
    exact ⟨e2,r1.ready++ready,by rw [ingestAll,h1]; simp [h2]⟩

/-- A count that a request may carry. -/
def ValidCount (request : Option GapRequest) : Prop :=
  ∀ q∈request, q.count≠0 ∧ q.count≠0xFFFF

/-- The length of a gap, computed without overflow. -/
theorem gap_toNat {expected next : Sequence} (h : ¬next≤expected) :
    (next-1-expected+1).toNat=next.toNat-expected.toNat := by
  rw [UInt64.le_iff_toNat_le,Nat.not_le] at h
  have hlt := next.toNat_lt
  have h1 : (1 : Sequence)≤next := UInt64.le_iff_toNat_le.mpr (by
    rw [UInt64.toNat_one]
    omega)
  have hp : (next-1).toNat=next.toNat-1 := UInt64.toNat_sub_of_le _ _ h1
  have h2 : expected≤next-1 := UInt64.le_iff_toNat_le.mpr (by rw [hp]; omega)
  rw [UInt64.toNat_add,UInt64.toNat_sub_of_le _ _ h2,hp,UInt64.toNat_one,
    Nat.mod_eq_of_lt (by omega)]
  omega

/-- A gap is at least one message, and a request asks for at most 0xFFFE. -/
theorem maybeRequest_valid (e : RecoveryEngine) {r : Result} (hr : ValidCount r.request)
    (next : Sequence) : ValidCount (e.maybeRequest r next).2.request := by
  unfold maybeRequest
  dsimp only
  split_ifs with hle hlast hgap
  · exact hr
  · exact hr
  · rintro q ⟨⟩
    have hg := gap_toNat hle
    rw [UInt64.le_iff_toNat_le,Nat.not_le] at hle
    have hlt : (next-1-e.expected+1).toNat<0xFFFE := UInt64.lt_iff_toNat_lt.mp hgap
    have hn : (next-1-e.expected+1).toUInt16.toNat=next.toNat-e.expected.toNat := by
      rw [UInt64.toNat_toUInt16,hg,Nat.mod_eq_of_lt (by omega)]
    refine ⟨fun h0 => ?_,fun h0 => ?_⟩
    · have he := congrArg UInt16.toNat h0
      rw [hn] at he
      simp only [UInt16.toNat_zero] at he
      omega
    · have he := congrArg UInt16.toNat h0
      rw [hn,show (0xFFFF : UInt16).toNat=0xFFFF from rfl] at he
      omega
  · rintro q ⟨⟩
    exact ⟨(by decide : UInt64.toUInt16 0xFFFE≠0),(by decide : UInt64.toUInt16 0xFFFE≠0xFFFF)⟩

/-- What a returning call says besides the released messages. -/
theorem ingest_result {e e' : RecoveryEngine} {r : Result} {p : MoldDownstreamPacket}
    (h : e.ingest p=(e',.ok r)) :
    ValidCount r.request ∧ r.endOfSession=p.endOfSession := by
  obtain ⟨-,e2,r2,hm,-,rfl⟩ := ingest_ok h
  have hv : ValidCount r2.request := by
    have hf := ingestMessages_frame { e with session := some p.session } {} (received [p])
    rw [hm] at hf
    rw [show r2.request=none from hf.request]
    simp [ValidCount]
  exact ⟨maybeRequest_valid e2 hv _,rfl⟩

end RecoveryEngine
end MarketWire
