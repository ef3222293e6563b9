import MarketWire.RecoveryOrder

/-! Failing calls of the recovery engine. A packet of another session changes nothing; running
out of sequence numbers is noticed only after the engine has moved on. -/
namespace MarketWire
open Library
open MoldUdp64

namespace RecoveryEngine
variable {s0 : Sequence} {l : List MoldMessage} {e e' : RecoveryEngine} {r r' : Result}
  {before : List MoldMessage} {fault : Fault}

/-- Every engine that calls lead to, whether they return or throw. -/
inductive Reachable (s0 : Sequence) : RecoveryEngine → Prop where
  | start : Reachable s0 { expected := s0 }
  | step {e e' : RecoveryEngine} {out : Except Fault Result} (p : MoldDownstreamPacket) :
      Reachable s0 e → e.ingest p=(e',out) → out≠.error .erasedTwice → Reachable s0 e'

theorem le_sequenceMax (s : Sequence) : s ≤ sequenceMax := by
  have hlt := s.toNat_lt
  rw [UInt64.le_iff_toNat_le,toNat_sequenceMax]
  omega

/-- At the last number everything has arrived, once that number has. -/
theorem all_carried {ready : List MoldMessage} (hd : Delivered s0 l sequenceMax ready)
    (hmax : firstPayload l sequenceMax≠none) {s : Sequence} (hs : s0 ≤ s) :
    firstPayload l s≠none := by
  by_cases he : s=sequenceMax
  · rwa [he]
  · refine hd.carried hs (UInt64.lt_of_le_of_ne (le_sequenceMax s) he)

theorem drainLoop_fault {n : Nat} (hd : Delivered s0 l e.expected (before++r.ready))
    (hb : Buffered l e) (h : drainLoop n e r=(e',r',some fault)) :
    fault=.erasedTwice ∧ e'.expected=sequenceMax ∧ ∀ s, s0 ≤ s → firstPayload l s≠none := by
  induction n generalizing e r with
  | zero => cases h
  | succ n ih =>
    rcases drainLoop_cases n e r with ⟨-,heq⟩ | ⟨payload,hf,hmax,heq⟩ | ⟨payload,hf,hmax,heq⟩ <;>
      rw [heq] at h
    · cases h
    · cases h
      have hp := buffered_expected hb hf
      rw [hmax] at hd hp
      exact ⟨rfl,hmax,fun s hs => all_carried hd (by simp [hp]) hs⟩
    · refine ih ?_ (buffered_take hb hmax) h
      rw [← List.append_assoc]
      exact hd.release (buffered_expected hb hf) hmax

theorem drain_fault (hd : Delivered s0 l e.expected (before++r.ready)) (hb : Buffered l e)
    (h : e.drain r=(e',r',some fault)) :
    fault=.erasedTwice ∧ e'.expected=sequenceMax ∧ ∀ s, s0 ≤ s → firstPayload l s≠none := by
  obtain ⟨e1,hl,rfl | ⟨hf,-⟩⟩ := drain_cases h
  · exact drainLoop_fault hd hb hl
  · cases hf

/-- A message fails only at the last sequence number, when all others have arrived. -/
theorem ingestMessage_fault (hi : InOrder s0 l e (before++r.ready)) {m : MoldMessage}
    (h : e.ingestMessage r m=(e',r',some fault)) :
    e'.expected=sequenceMax ∧ (∀ s, s0 ≤ s → firstPayload (l++[m]) s≠none) ∧
      (fault=.erasedTwice ∨ e'=e) := by
  rcases ingestMessage_cases e r m with
    ⟨-,hm⟩ | ⟨heq,hmax,hm⟩ | ⟨heq,hmax,hm⟩ | ⟨-,hm⟩ <;> rw [hm] at h
  · cases h
  · cases h
    have hd := hi.delivered.later m
    rw [hmax] at hd
    refine ⟨hmax,fun s hs => all_carried hd ?_ hs,.inr rfl⟩
    rw [firstPayload_snoc,if_pos (heq.trans hmax)]
    cases firstPayload l sequenceMax <;> simp
  · obtain ⟨hd,hb⟩ := inOrder_take hi heq hmax
    rw [List.append_assoc] at hd
    obtain ⟨hf,he,hall⟩ := drain_fault hd hb h
    exact ⟨he,hall,.inl hf⟩
  · cases h

theorem firstPayload_append_ne {l ms : List MoldMessage} {s : Sequence}
    (h : firstPayload l s≠none) : firstPayload (l++ms) s≠none := by
  rw [ne_eq,firstPayload_eq_none] at h ⊢
  exact fun hall => h fun m hm => hall m (List.mem_append_left ms hm)

theorem ingestMessages_fault {ms : List MoldMessage} (hi : InOrder s0 l e (before++r.ready))
    (h : e.ingestMessages r ms=(e',r',some fault)) :
    e'.expected=sequenceMax ∧ (∀ s, s0 ≤ s → firstPayload (l++ms) s≠none) ∧
      (fault=.erasedTwice ∨ ∃ l' ready, InOrder s0 l' e' ready) := by
  induction ms generalizing l e r with
  | nil => cases h
  | cons m rest ih =>
    rw [show l++m::rest=(l++[m])++rest by simp]
    obtain ⟨e1,r1,hm,h⟩ | ⟨-,hm⟩ := ingestMessages_cons h
    · exact ih (ingestMessage_spec hi hm) h
    · obtain ⟨he,hall,hsame⟩ := ingestMessage_fault hi hm
      exact ⟨he,fun s hs => firstPayload_append_ne (hall s hs),
        hsame.imp_right fun he => ⟨l,_,he ▸ hi⟩⟩

/-- At the last number no message moves the engine, and nothing is erased any more. -/
theorem ingestMessages_exhausted (h : e.expected=sequenceMax) (ms : List MoldMessage) :
    (e.ingestMessages r ms).1=e ∧ (e.ingestMessages r ms).2.2≠some .erasedTwice := by
  induction ms generalizing r with
  | nil => exact ⟨rfl,by simp [ingestMessages]⟩
  | cons m rest ih =>
    rw [ingestMessages]
    rcases ingestMessage_cases e r m with ⟨-,hm⟩ | ⟨-,-,hm⟩ | ⟨-,hmax,-⟩ | ⟨hgt,-⟩
    · rw [hm]
      exact ih
    · rw [hm]
      exact ⟨rfl,by simp⟩
    · exact absurd h hmax
    · exact absurd (h ▸ le_sequenceMax m.sequence) (UInt64.not_le.mpr hgt)

/-- A reachable engine is the engine of some messages taken in order. -/
theorem Reachable.inOrder (h : Reachable s0 e) : ∃ l ready, InOrder s0 l e ready := by
  induction h with
  | start => exact ⟨[],[],inOrder_start s0⟩
  | @step e e' out p _ hi hout ih =>
    obtain ⟨l,ready,ho⟩ := ih
    cases out with
    | ok r => exact ⟨_,_,ingest_spec ho hi⟩
    | error fault =>
      rcases ingest_error hi with ⟨-,-,rfl,-⟩ | ⟨-,r2,hm⟩
      · exact ⟨l,ready,ho⟩
      · have ho1 : InOrder s0 l { e with session := some p.session } (ready++Result.ready {}) := by
          rw [List.append_nil]
          exact inOrder_congr ho rfl rfl
        obtain ⟨-,-,hsame⟩ := ingestMessages_fault ho1 hm
        exact hsame.resolve_left fun he => hout (by rw [he])

/-- A number from the next one on has arrived when it is buffered or carried. -/
theorem arrived_iff (hi : InOrder s0 l e before) {ms : List MoldMessage} {s : Sequence}
    (hs : e.expected ≤ s) :
    firstPayload (l++ms) s=none ↔ e.pending.find? s=none ∧ ∀ m∈ms, m.sequence≠s := by
  rw [hi.buffered,if_pos hs,firstPayload_eq_none,firstPayload_eq_none]
  simp only [List.mem_append]
  exact ⟨fun h => ⟨fun m hm => h m (.inl hm),fun m hm => h m (.inr hm)⟩,
    fun h m hm => hm.elim (h.1 m) (h.2 m)⟩

/-- Messages that leave no number missing cannot all be taken. -/
theorem ingestMessages_full (hi : InOrder s0 l e (before++r.ready)) (ms : List MoldMessage)
    (hall : ∀ s, e.expected ≤ s → firstPayload (l++ms) s≠none) :
    ∃ e' r' fault, e.ingestMessages r ms=(e',r',some fault) := by
  rcases hm : e.ingestMessages r ms with ⟨e',r',_ | fault⟩
  · have hi' := ingestMessages_spec hi hm
    by_cases hle : e.expected≤e'.expected
    · exact absurd hi'.next (hall _ hle)
    · have hc := hi.delivered.carried hi'.delivered.start_le (UInt64.not_le.mp hle)
      exact absurd hi'.next (firstPayload_append_ne hc)
  · exact ⟨e',r',fault,rfl⟩

/-- The same position, buffer and remembered request. -/
def SamePlace (e e' : RecoveryEngine) : Prop :=
  e'.expected=e.expected ∧ e'.pending=e.pending ∧
    e'.lastRequestedFirst=e.lastRequestedFirst ∧ e'.lastRequestedLast=e.lastRequestedLast

instance SamePlace.decidable (e e' : RecoveryEngine) : Decidable (SamePlace e e') :=
  inferInstanceAs (Decidable (_ ∧ _))

/-- A failing call loses nothing exactly when it cannot run out of numbers on the way: the packet
is of another session, the engine is already at the last number, the packet carries no
messages, or some number remains missing. -/
theorem ingest_error_samePlace_iff (h : Reachable s0 e) (p : MoldDownstreamPacket) :
    (∀ e' fault, e.ingest p=(e',.error fault) → SamePlace e e') ↔
      (e.session≠none ∧ e.session≠some p.session) ∨ e.expected=sequenceMax ∨
        (p.heartbeat || p.endOfSession)=true ∨
        ∃ s, e.expected ≤ s ∧ e.pending.find? s=none ∧ ∀ m∈p.messages, m.sequence≠s := by
  obtain ⟨l,ready,hi⟩ := h.inOrder
  have hi1 : InOrder s0 l { e with session := some p.session } (ready++Result.ready {}) := by
    rw [List.append_nil]
    exact inOrder_congr hi rfl rfl
  constructor
  · intro hsame
    by_contra hn
    simp only [not_or] at hn
    obtain ⟨hs,hmax,hk,hall⟩ := hn
    have hopen : e.session=none ∨ e.session=some p.session := by tauto
    obtain ⟨e',r',fault,hm⟩ := ingestMessages_full hi1 (received [p]) fun s hs h0 =>
      hall ⟨s,hs,by rwa [arrived_iff hi hs,received_data hk] at h0⟩
    have hfail : e.ingest p=(e',.error fault) := by
      rw [ingest_open hopen,hm]
    have hplace := (hsame e' fault hfail).1
    exact hmax (hplace.symm.trans (ingestMessages_fault hi1 hm).1)
  · intro hcond e' fault herr
    rcases ingest_error herr with ⟨-,-,rfl,-⟩ | ⟨hopen,r2,hm⟩
    · exact ⟨rfl,rfl,rfl,rfl⟩
    rcases hcond with ⟨h1,h2⟩ | hmax | hk | ⟨s,hs,hpend,hms⟩
    · exact absurd hopen (not_or.mpr ⟨h1,h2⟩)
    · have hstay := (ingestMessages_exhausted (r := {})
        (e := { e with session := some p.session }) hmax (received [p])).1
      rw [hm] at hstay
      obtain rfl : e'={ e with session := some p.session } := hstay
      exact ⟨rfl,rfl,rfl,rfl⟩
    · rw [received_control hk] at hm
      cases hm
    · by_cases hk : (p.heartbeat || p.endOfSession)=true
      · rw [received_control hk] at hm
        cases hm
      · have hall := (ingestMessages_fault hi1 hm).2.1 s (UInt64.le_trans hi.delivered.start_le hs)
        rw [ne_eq,arrived_iff hi hs,received_data hk] at hall
        exact absurd ⟨hpend,hms⟩ hall

/-- The last two numbers in one packet: the call throws, and the engine has moved past a message
that nobody has been given. -/
theorem ingest_error_moves : ∃ p e',
    parseDownstream (List.replicate 10 32++[255,255,255,255,255,255,255,254,0,2,0,0,0,0])=.ok p ∧
    Reachable (sequenceMax-1) { expected := sequenceMax-1 } ∧
    ingest { expected := sequenceMax-1 } p=(e',.error (.threw exhausted)) ∧
    e'.expected=sequenceMax ∧ ¬SamePlace { expected := sequenceMax-1 } e' := by
  set p : MoldDownstreamPacket := ⟨Vector.replicate 10 32,sequenceMax-1,2,false,false,
    [⟨sequenceMax-1,[]⟩,⟨sequenceMax,[]⟩]⟩
  have hout : (ingest { expected := sequenceMax-1 } p).2=.error (.threw exhausted) := by
    decide +kernel
  exact ⟨p,(ingest { expected := sequenceMax-1 } p).1,by decide +kernel,.start,Prod.ext rfl hout,
    by decide +kernel,by decide +kernel⟩

/-- At the last number a call throws and loses nothing. -/
theorem ingest_error_samePlace_iff_last : ∃ e',
    ingest { expected := sequenceMax }
      ⟨Vector.replicate 10 32,sequenceMax,1,false,false,[⟨sequenceMax,[7]⟩]⟩=
        (e',.error (.threw exhausted)) ∧ SamePlace { expected := sequenceMax } e' := by
  have hout : (ingest { expected := sequenceMax }
      ⟨Vector.replicate 10 32,sequenceMax,1,false,false,[⟨sequenceMax,[7]⟩]⟩).2=
        .error (.threw exhausted) := by
    decide +kernel
  exact ⟨_,Prod.ext rfl hout,(ingest_error_samePlace_iff .start _).mpr (.inr (.inl rfl)) _ _
    (Prod.ext rfl hout)⟩

end RecoveryEngine
end MarketWire
