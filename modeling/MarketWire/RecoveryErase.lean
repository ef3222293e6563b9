import MarketWire.RecoveryFailure
import MarketWire.RecoverySession

/-! Erasing from the buffer. Draining erases the last sequence number through an iterator that it
has used already; a run comes to that exactly when another number than the last one is the last
to arrive. -/
namespace MarketWire
open Library
open MoldUdp64

/-- The calls of a run, each with what it returns or throws. The caller may catch an exception and
go on; after a second erase nothing is defined. -/
def RecoveryEngine.calls (e : RecoveryEngine) :
    List MoldDownstreamPacket → List (Except Fault Result)
  | [] => []
  | p::rest =>
    match e.ingest p with
    | (_,.error .erasedTwice) => [.error .erasedTwice]
    | (e,out) => out::e.calls rest

def ofSession (session : Option Session) (packets : List MoldDownstreamPacket) :
    List MoldDownstreamPacket := packets.filter fun p => session=some p.session

/-- The messages of the session that the first packet opens. -/
def sessionMessages (packets : List MoldDownstreamPacket) : List MoldMessage :=
  received (ofSession (packets.head?.map MoldDownstreamPacket.session) packets)

/-- Every number from `s0` on has arrived. -/
def Full (s0 : Sequence) (l : List MoldMessage) : Prop := ∀ s, s0 ≤ s → ∃ m∈l, m.sequence=s

/-- A message that is the last to arrive of all numbers from `s0` on, and is not the last number. -/
structure Completes (s0 : Sequence) (l : List MoldMessage) (m : MoldMessage) : Prop where
  start_le : s0 ≤ m.sequence
  new : ∀ x∈l, x.sequence≠m.sequence
  others : ∀ s, s0 ≤ s → s≠m.sequence → ∃ x∈l, x.sequence=s
  ne_max : m.sequence≠sequenceMax

/-- One of the messages that follow `l` completes the numbers. -/
def CompletesWithin (s0 : Sequence) (l : List MoldMessage) : List MoldMessage → Prop
  | [] => False
  | m::rest => Completes s0 l m ∨ CompletesWithin s0 (l++[m]) rest

section Completes
variable {s0 : Sequence} {l ms : List MoldMessage}

theorem completesWithin_iff : CompletesWithin s0 l ms ↔
    ∃ before m after, ms=before++m::after ∧ Completes s0 (l++before) m := by
  induction ms generalizing l with
  | nil => simp [CompletesWithin]
  | cons m rest ih =>
    rw [CompletesWithin,ih]
    constructor
    · rintro (h | ⟨before,m',after,rfl,h⟩)
      · exact ⟨[],m,rest,rfl,by rwa [List.append_nil]⟩
      · exact ⟨m::before,m',after,rfl,by rwa [List.append_assoc] at h⟩
    · rintro ⟨before,m',after,he,h⟩
      cases before with
      | nil =>
        cases he
        exact .inl (by rwa [List.append_nil] at h)
      | cons x before =>
        cases he
        exact .inr ⟨before,m',after,rfl,by rwa [List.append_assoc]⟩

theorem completesWithin_append (ms' : List MoldMessage) : CompletesWithin s0 l (ms++ms') ↔
    CompletesWithin s0 l ms ∨ CompletesWithin s0 (l++ms) ms' := by
  induction ms generalizing l with
  | nil => simp [CompletesWithin]
  | cons m rest ih =>
    rw [List.cons_append,CompletesWithin,CompletesWithin,ih,List.append_assoc,or_assoc,
      List.singleton_append]

theorem Full.append (h : Full s0 l) (ms : List MoldMessage) : Full s0 (l++ms) := by
  intro s hs
  obtain ⟨m,hm,he⟩ := h s hs
  exact ⟨m,List.mem_append_left ms hm,he⟩

/-- Nothing completes what is full. -/
theorem Full.not_completesWithin (h : Full s0 l) : ¬CompletesWithin s0 l ms := by
  induction ms generalizing l with
  | nil => exact id
  | cons m rest ih =>
    rintro (hc | hc)
    · obtain ⟨x,hx,he⟩ := h m.sequence hc.start_le
      exact hc.new x hx he
    · exact ih (h.append [m]) hc

theorem full_iff : Full s0 l ↔ ∀ s, s0 ≤ s → firstPayload l s≠none := by
  refine forall₂_congr fun s hs => ?_
  rw [ne_eq,firstPayload_eq_none]
  push Not
  rfl

end Completes

namespace RecoveryEngine
variable {s0 : Sequence} {l : List MoldMessage} {e : RecoveryEngine} {r : Result}
  {before : List MoldMessage}

/-- A message fails only as the expected one: the last number directly, any other in the loop. -/
theorem ingestMessage_fault_expected {e' : RecoveryEngine} {r' : Result} {fault : Fault}
    (hi : InOrder s0 l e (before++r.ready)) {m : MoldMessage}
    (h : e.ingestMessage r m=(e',r',some fault)) :
    m.sequence=e.expected ∧ (fault=.erasedTwice ↔ m.sequence≠sequenceMax) := by
  rcases ingestMessage_cases e r m with
    ⟨-,hm⟩ | ⟨heq,hmax,hm⟩ | ⟨heq,hmax,hm⟩ | ⟨-,hm⟩ <;> rw [hm] at h
  · cases h
  · cases h
    exact ⟨heq,iff_of_false (by simp) (not_not.mpr (heq.trans hmax))⟩
  · obtain ⟨hd,hb⟩ := inOrder_take hi heq hmax
    rw [List.append_assoc] at hd
    exact ⟨heq,iff_of_true (drain_fault hd hb h).1 (heq ▸ hmax)⟩
  · cases h

/-- A message makes the loop erase twice exactly when it completes the numbers. -/
theorem ingestMessage_erases (hi : InOrder s0 l e (before++r.ready)) (m : MoldMessage) :
    (e.ingestMessage r m).2.2=some .erasedTwice ↔ Completes s0 l m := by
  rcases hm : e.ingestMessage r m with ⟨e',r',_ | fault⟩
  · have hi' := ingestMessage_spec hi hm
    refine iff_of_false (by simp) fun hc => ?_
    have hmiss := hi'.missing
    by_cases he : e'.expected=m.sequence
    · exact hmiss m (by simp) he.symm
    · obtain ⟨x,hx,hs⟩ := hc.others _ hi'.delivered.start_le he
      exact hmiss x (List.mem_append_left _ hx) hs
  · obtain ⟨heq,hf⟩ := ingestMessage_fault_expected hi hm
    have hfull : Full s0 (l++[m]) := full_iff.mpr (ingestMessage_fault hi hm).2.1
    dsimp only
    rw [Option.some.injEq,hf]
    refine ⟨fun hne => ⟨heq ▸ hi.delivered.start_le,heq ▸ hi.missing,fun s hs hsm => ?_,hne⟩,
      fun hc => hc.ne_max⟩
    obtain ⟨x,hx,rfl⟩ := hfull s hs
    refine ⟨x,(List.mem_append.mp hx).resolve_right fun hx => ?_,rfl⟩
    exact hsm (congrArg _ (List.mem_singleton.mp hx))

theorem ingestMessages_erases (hi : InOrder s0 l e (before++r.ready)) (ms : List MoldMessage) :
    (e.ingestMessages r ms).2.2=some .erasedTwice ↔ CompletesWithin s0 l ms := by
  induction ms generalizing l e r with
  | nil => exact iff_of_false (by simp [ingestMessages]) id
  | cons m rest ih =>
    have hfirst := ingestMessage_erases hi m
    rw [CompletesWithin,← hfirst,ingestMessages]
    rcases hm : e.ingestMessage r m with ⟨e1,r1,_ | fault⟩
    · rw [ih (ingestMessage_spec hi hm)]
      simp
    · have hfull : Full s0 (l++[m]) := full_iff.mpr (ingestMessage_fault hi hm).2.1
      simp [hfull.not_completesWithin]

/-- The engine after the messages `l`: still taking them in order, or stuck at the last number. -/
def After (s0 : Sequence) (l : List MoldMessage) (e : RecoveryEngine) : Prop :=
  (∃ ready, InOrder s0 l e ready) ∨ Full s0 l ∧ e.expected=sequenceMax

theorem After.congr {e' : RecoveryEngine} (h : After s0 l e) (h1 : e'.expected=e.expected)
    (h2 : e'.pending=e.pending) : After s0 l e' := by
  rcases h with ⟨ready,hi⟩ | ⟨hfull,hmax⟩
  · exact .inl ⟨ready,inOrder_congr hi h1 h2⟩
  · exact .inr ⟨hfull,h1.trans hmax⟩

theorem After.ingestMessages (h : After s0 l e) (ms : List MoldMessage) :
    ((e.ingestMessages {} ms).2.2=some .erasedTwice ↔ CompletesWithin s0 l ms) ∧
      ((e.ingestMessages {} ms).2.2≠some .erasedTwice →
        After s0 (l++ms) (e.ingestMessages {} ms).1) := by
  rcases h with ⟨ready,hi⟩ | ⟨hfull,hmax⟩
  · have hi' : InOrder s0 l e (ready++Result.ready {}) := by rwa [List.append_nil]
    refine ⟨ingestMessages_erases hi' ms,fun hne => ?_⟩
    rcases hm : e.ingestMessages {} ms with ⟨e1,r1,_ | fault⟩
    · exact .inl ⟨_,ingestMessages_spec hi' hm⟩
    · obtain ⟨he,hall,-⟩ := ingestMessages_fault hi' hm
      exact .inr ⟨full_iff.mpr hall,he⟩
  · obtain ⟨hsame,hnone⟩ := ingestMessages_exhausted (r := {}) hmax ms
    rw [hsame]
    exact ⟨iff_of_false hnone hfull.not_completesWithin,fun _ => .inr ⟨hfull.append ms,hmax⟩⟩

/-- One packet of the session. -/
theorem After.ingest (h : After s0 l e) {p : MoldDownstreamPacket}
    (hopen : e.session=none ∨ e.session=some p.session) :
    ((e.ingest p).2=.error .erasedTwice ↔ CompletesWithin s0 l (received [p])) ∧
      ((e.ingest p).2≠.error .erasedTwice →
        After s0 (l++received [p]) (e.ingest p).1 ∧ (e.ingest p).1.session=some p.session) := by
  have h1 : After s0 l { e with session := some p.session } := h.congr rfl rfl
  obtain ⟨herase,hafter⟩ := h1.ingestMessages (received [p])
  have hframe := ingestMessages_frame { e with session := some p.session } {} (received [p])
  rw [ingest_open hopen,← herase]
  revert herase hafter hframe
  generalize RecoveryEngine.ingestMessages _ {} (received [p])=out
  intro herase hafter hframe
  obtain ⟨e2,r2,_ | fault⟩ := out
  · obtain ⟨hexp,hpend,-⟩ := maybeRequest_frame e2 r2 (e2.horizon p)
    refine ⟨by simp,fun _ => ⟨(hafter (by simp)).congr hexp hpend,?_⟩⟩
    exact (maybeRequest_session e2 r2 _).trans hframe.session
  · refine ⟨by simp,fun hne => ⟨hafter fun he => hne ?_,hframe.session⟩⟩
    exact congrArg Except.error (Option.some.inj he)

section Calls
variable {p : MoldDownstreamPacket} {rest : List MoldDownstreamPacket}

theorem calls_erased (h : (e.ingest p).2=.error .erasedTwice) :
    e.calls (p::rest)=[.error .erasedTwice] := by
  rw [calls]
  generalize e.ingest p=out at h ⊢
  obtain ⟨e',out⟩ := out
  obtain rfl : out=_ := h
  rfl

theorem calls_cons (h : (e.ingest p).2≠.error .erasedTwice) :
    e.calls (p::rest)=(e.ingest p).2::(e.ingest p).1.calls rest := by
  rw [calls]
  generalize e.ingest p=out at h ⊢
  obtain ⟨e',(_ | _) | r⟩ := out
  · rfl
  · exact absurd rfl h
  · rfl

/-- A call either erases twice, and the run ends there, or leaves it to the calls after it. -/
theorem mem_calls_cons : .error .erasedTwice∈e.calls (p::rest) ↔
    (e.ingest p).2=.error .erasedTwice ∨
      (e.ingest p).2≠.error .erasedTwice ∧ .error .erasedTwice∈(e.ingest p).1.calls rest := by
  by_cases h : (e.ingest p).2=.error .erasedTwice
  · simp [calls_erased h,h]
  · rw [calls_cons h,List.mem_cons]
    simp [h,Ne.symm h]

/-- The first call of a run, when the rest is known. -/
theorem After.mem_calls (h : After s0 l e) (hopen : e.session=none ∨ e.session=some p.session)
    {ms : List MoldMessage} (hrest : ∀ e', After s0 (l++received [p]) e' →
      e'.session=some p.session →
        (.error .erasedTwice∈e'.calls rest ↔ CompletesWithin s0 (l++received [p]) ms)) :
    .error .erasedTwice∈e.calls (p::rest) ↔ CompletesWithin s0 l (received [p]++ms) := by
  obtain ⟨herase,hafter⟩ := h.ingest hopen
  rw [mem_calls_cons,completesWithin_append,herase]
  by_cases hc : CompletesWithin s0 l (received [p])
  · simp [hc]
  · obtain ⟨ha,hs⟩ := hafter (mt herase.mp hc)
    simp [hc,herase,hrest _ ha hs]

end Calls

/-- The calls of a run erase twice exactly when a message of the session completes the numbers. -/
theorem calls_erases (h : After s0 l e) (hs : e.session≠none)
    (packets : List MoldDownstreamPacket) : .error .erasedTwice∈e.calls packets ↔
      CompletesWithin s0 l (received (ofSession e.session packets)) := by
  induction packets generalizing l e with
  | nil => simp [calls,ofSession,received,CompletesWithin]
  | cons p rest ih =>
    by_cases hp : e.session=some p.session
    · have hsplit : received (ofSession e.session (p::rest))=
          received [p]++received (ofSession e.session rest) := by
        simp [ofSession,received,hp]
      rw [hsplit]
      refine h.mem_calls (.inr hp) fun e' ha hs' => ?_
      rw [hp,← hs']
      exact ih ha (by simp [hs'])
    · have hskip : ofSession e.session (p::rest)=ofSession e.session rest := by
        simp [ofSession,hp]
      rw [mem_calls_cons,ingest_other hs hp,hskip,← ih h hs]
      simp

/-- Every erase of a run is valid exactly when the last sequence number, if all numbers from the
first expected one on arrive, is the last of them to arrive. -/
theorem calls_erase_valid (s0 : Sequence) (packets : List MoldDownstreamPacket) :
    (∀ out∈calls { expected := s0 } packets, out≠.error .erasedTwice) ↔
      ¬∃ before m after, sessionMessages packets=before++m::after ∧ Completes s0 before m := by
  have hstart : After s0 [] { expected := s0 } := .inl ⟨[],inOrder_start s0⟩
  have hall : .error .erasedTwice∈calls { expected := s0 } packets ↔
      CompletesWithin s0 [] (sessionMessages packets) := by
    cases packets with
    | nil => simp [calls,sessionMessages,ofSession,received,CompletesWithin]
    | cons p rest =>
      have hsplit : sessionMessages (p::rest)=
          received [p]++received (ofSession (some p.session) rest) := by
        simp [sessionMessages,ofSession,received]
      rw [hsplit]
      refine hstart.mem_calls (.inl rfl) fun e' ha hs => ?_
      rw [← hs]
      exact calls_erases ha (by simp [hs]) rest
  rw [completesWithin_iff] at hall
  simp only [List.nil_append] at hall
  rw [← hall]
  exact ⟨fun h hm => h _ hm rfl,fun h out hm he => h (he ▸ hm)⟩

/-- The last number arrives before the one below it: the second call erases twice. -/
theorem calls_erase_twice : ∃ p q,
    parseDownstream (List.replicate 10 32++[255,255,255,255,255,255,255,255,0,1,0,0])=.ok p ∧
    parseDownstream (List.replicate 10 32++[255,255,255,255,255,255,255,254,0,1,0,0])=.ok q ∧
    .error .erasedTwice∈calls { expected := sequenceMax-1 } [p,q] := by
  refine ⟨⟨Vector.replicate 10 32,sequenceMax,1,false,false,[⟨sequenceMax,[]⟩]⟩,
    ⟨Vector.replicate 10 32,sequenceMax-1,1,false,false,[⟨sequenceMax-1,[]⟩]⟩,
    by decide +kernel,by decide +kernel,by decide +kernel⟩

end RecoveryEngine
end MarketWire
