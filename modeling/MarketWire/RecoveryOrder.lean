import MarketWire.Recovery

/-! In-order delivery: whatever arrives, the released messages are consecutive, each with
the payload that came first, and the buffer holds exactly what is ahead. -/
namespace MarketWire
open Library
open MoldUdp64

/-- The messages that data packets carry, in arrival order. -/
def received (packets : List MoldDownstreamPacket) : List MoldMessage :=
  packets.flatMap fun p => if p.heartbeat || p.endOfSession then [] else p.messages

/-- The payload of the first message received with a sequence number. -/
def firstPayload (l : List MoldMessage) (s : Sequence) : Option Bytes :=
  (l.find? fun m => m.sequence=s).map MoldMessage.payload

theorem firstPayload_eq_none {l : List MoldMessage} {s : Sequence} :
    firstPayload l s=none ↔ ∀ m∈l, m.sequence≠s := by
  simp [firstPayload]

theorem firstPayload_snoc (l : List MoldMessage) (m : MoldMessage) (s : Sequence) :
    firstPayload (l++[m]) s=
      (firstPayload l s).or (if m.sequence=s then some m.payload else none) := by
  unfold firstPayload
  rw [List.find?_append]
  cases l.find? fun m => decide (m.sequence=s) with
  | some x => rfl
  | none =>
    by_cases h : m.sequence=s
    · simp [h]
    · simp [h]

theorem firstPayload_snoc_some {l : List MoldMessage} {s : Sequence} {payload : Bytes}
    (h : firstPayload l s=some payload) (m : MoldMessage) :
    firstPayload (l++[m]) s=some payload := by
  rw [firstPayload_snoc,h]
  rfl

theorem firstPayload_snoc_ne {l : List MoldMessage} {s : Sequence} {m : MoldMessage}
    (h : m.sequence≠s) : firstPayload (l++[m]) s=firstPayload l s := by
  rw [firstPayload_snoc,if_neg h,Option.or_none]

/-- What has been released up to `expected`: consecutive numbers, first payloads. -/
structure Delivered (s0 : Sequence) (l : List MoldMessage) (expected : Sequence)
    (ready : List MoldMessage) : Prop where
  start_le : s0≤expected
  order : (ready.map fun m => m.sequence.toNat)=
    List.range' s0.toNat (expected.toNat-s0.toNat)
  payload : ∀ m∈ready, firstPayload l m.sequence=some m.payload

namespace Delivered
variable {s0 expected : Sequence} {l ready : List MoldMessage}

theorem later (h : Delivered s0 l expected ready) (m : MoldMessage) :
    Delivered s0 (l++[m]) expected ready :=
  ⟨h.start_le,h.order,fun x hx => firstPayload_snoc_some (h.payload x hx) m⟩

/-- Releasing the expected message. -/
theorem release (h : Delivered s0 l expected ready) {payload : Bytes}
    (hp : firstPayload l expected=some payload) (hmax : expected≠sequenceMax) :
    Delivered s0 l (expected+1) (ready++[⟨expected,payload⟩]) := by
  have hmaxn := toNat_sequenceMax
  have hne : expected.toNat≠sequenceMax.toNat := fun he => hmax (UInt64.toNat_inj.mp he)
  have hlt := expected.toNat_lt
  have hs := UInt64.le_iff_toNat_le.mp h.start_le
  have hsucc : (expected+1).toNat=expected.toNat+1 := by
    rw [UInt64.toNat_add]
    exact Nat.mod_eq_of_lt (by simp; omega)
  refine ⟨UInt64.le_iff_toNat_le.mpr (by omega),?_,?_⟩
  · rw [List.map_append,h.order,hsucc,Nat.succ_sub hs,List.range'_concat]
    simp only [List.map_cons,List.map_nil]
    congr 2
    omega
  · intro m hm
    cases List.mem_append.mp hm with
    | inl hm => exact h.payload m hm
    | inr hm =>
      rw [List.mem_singleton.mp hm]
      exact hp

/-- Only numbers below `expected` have been released. -/
theorem lt (h : Delivered s0 l expected ready) {m : MoldMessage} (hm : m∈ready) :
    m.sequence<expected := by
  have hmem : m.sequence.toNat∈ready.map fun m => m.sequence.toNat := List.mem_map_of_mem hm
  rw [h.order,List.mem_range'_1] at hmem
  rw [UInt64.lt_iff_toNat_lt]
  omega

/-- Everything below `expected` has been received. -/
theorem carried (h : Delivered s0 l expected ready) {s : Sequence} (h1 : s0 ≤ s) (h2 : s<expected) :
    firstPayload l s≠none := by
  rw [UInt64.le_iff_toNat_le] at h1
  rw [UInt64.lt_iff_toNat_lt] at h2
  have hm : s.toNat∈ready.map fun m => m.sequence.toNat := by
    rw [h.order,List.mem_range'_1]
    omega
  obtain ⟨m,hmem,he⟩ := List.mem_map.mp hm
  rw [← UInt64.toNat_inj.mp he,h.payload m hmem]
  simp

end Delivered

/-- The buffer holds the first payloads from `expected` on. -/
def Buffered (l : List MoldMessage) (e : RecoveryEngine) : Prop :=
  ∀ s, e.pending.find? s=if e.expected ≤ s then firstPayload l s else none

/-- The engine after the messages `l`, with everything released so far. -/
structure InOrder (s0 : Sequence) (l : List MoldMessage) (e : RecoveryEngine)
    (ready : List MoldMessage) : Prop where
  delivered : Delivered s0 l e.expected ready
  buffered : Buffered l e
  next : firstPayload l e.expected=none

namespace InOrder
variable {s0 : Sequence} {l ready : List MoldMessage} {e : RecoveryEngine}

/-- Every number below the next one has arrived. -/
theorem below (h : InOrder s0 l e ready) {s : Sequence} (h1 : s0 ≤ s) (h2 : s<e.expected) :
    ∃ m∈l, m.sequence=s := by
  have hc := h.delivered.carried h1 h2
  rw [ne_eq,firstPayload_eq_none] at hc
  push Not at hc
  exact hc

/-- The next number has not arrived. -/
theorem missing (h : InOrder s0 l e ready) : ∀ m∈l, m.sequence≠e.expected :=
  firstPayload_eq_none.mp h.next

/-- The next number is the first that has not arrived. -/
theorem expected_unique (h : InOrder s0 l e ready) {s : Sequence} (hs : s0 ≤ s)
    (hbelow : ∀ t, s0≤t → t<s → ∃ m∈l, m.sequence=t) (hmissing : ∀ m∈l, m.sequence≠s) :
    e.expected=s := by
  refine UInt64.le_antisymm (UInt64.not_lt.mp fun hlt => ?_) (UInt64.not_lt.mp fun hlt => ?_)
  · obtain ⟨m,hm,he⟩ := h.below hs hlt
    exact hmissing m hm he
  · obtain ⟨m,hm,he⟩ := hbelow e.expected h.delivered.start_le hlt
    exact h.missing m hm he

/-- What has arrived beyond the next number is buffered. -/
theorem isSome_pending (h : InOrder s0 l e ready) {s : Sequence} :
    (e.pending.find? s).isSome ↔ e.expected<s ∧ ∃ m∈l, m.sequence=s := by
  rw [Option.isSome_iff_ne_none,h.buffered]
  have harrived : firstPayload l s≠none ↔ ∃ m∈l, m.sequence=s := by
    rw [ne_eq,firstPayload_eq_none]
    push Not
    rfl
  split_ifs with hle
  · rw [harrived]
    refine ⟨fun ha => ⟨UInt64.lt_of_le_of_ne hle fun he => ?_,ha⟩,And.right⟩
    obtain ⟨m,hm,hs⟩ := ha
    exact h.missing m hm (hs.trans he.symm)
  · exact ⟨fun hn => absurd rfl hn,fun ha => absurd (UInt64.le_of_lt ha.1) hle⟩

/-- A released message is one that arrived. -/
theorem mem (h : InOrder s0 l e ready) : ∀ m∈ready, m∈l := by
  intro m hm
  obtain ⟨x,hx,hp⟩ := Option.map_eq_some_iff.mp (h.delivered.payload m hm)
  have hs : x.sequence=m.sequence := by simpa using List.find?_some hx
  have he : x=m := by
    cases x
    cases m
    simp_all
  exact he ▸ List.mem_of_find?_eq_some hx

end InOrder

namespace RecoveryEngine
variable {s0 : Sequence} {l : List MoldMessage} {e e' : RecoveryEngine} {r r' : Result}
  {before : List MoldMessage}

theorem size_erase_lt {p : Pending} {s : Sequence} {payload : Bytes} (h : p.find? s=some payload) :
    SortedMap.size (p.erase s)<p.size := by
  have hm := (SortedMap.mem_entries p s payload).mpr h
  refine lt_of_le_of_ne (List.length_filter_le _ _) fun he => ?_
  have hall := List.length_filter_eq_length_iff.mp he (s,payload) hm
  simp at hall

theorem toNat_succ {s : Sequence} (h : s≠sequenceMax) : (s+1).toNat=s.toNat+1 := by
  have hmax := toNat_sequenceMax
  have hne : s.toNat≠sequenceMax.toNat := fun he => h (UInt64.toNat_inj.mp he)
  have hlt := s.toNat_lt
  rw [UInt64.toNat_add]
  exact Nat.mod_eq_of_lt (by simp; omega)

theorem succ_le_iff {s t : Sequence} (h : s≠sequenceMax) : s+1≤t ↔ s≤t ∧ t≠s := by
  rw [UInt64.le_iff_toNat_le,UInt64.le_iff_toNat_le,toNat_succ h,ne_eq,← UInt64.toNat_inj]
  omega

/-- What is buffered under the expected number arrived under it. -/
theorem buffered_expected {payload : Bytes} (hb : Buffered l e)
    (hf : e.pending.find? e.expected=some payload) : firstPayload l e.expected=some payload := by
  rw [← hf,hb,if_pos (UInt64.le_refl _)]

/-- Taking the expected message out of the buffer. -/
theorem buffered_take (hb : Buffered l e) (h : e.expected≠sequenceMax) :
    Buffered l { e with pending := e.pending.erase e.expected, expected := e.expected+1 } := by
  intro s
  rw [SortedMap.find?_erase,hb s]
  by_cases hs : s=e.expected
  · simp [hs,succ_le_iff h]
  · simp [hs,succ_le_iff h]

/-- Draining delivers the buffered run and stops at a number that has not arrived. -/
theorem drainLoop_spec {n : Nat} (hn : e.pending.size≤n)
    (hd : Delivered s0 l e.expected (before++r.ready)) (hb : Buffered l e)
    (h : drainLoop n e r=(e',r',none)) :
    Delivered s0 l e'.expected (before++r'.ready) ∧ Buffered l e' ∧
      firstPayload l e'.expected=none := by
  have hstop (hf : e.pending.find? e.expected=none) : firstPayload l e.expected=none := by
    rw [hb,if_pos (UInt64.le_refl _)] at hf
    exact hf
  induction n generalizing e r with
  | zero =>
    obtain ⟨rfl,rfl,_⟩ := Prod.ext_iff.mp h |>.imp id Prod.ext_iff.mp
    have hempty : e.pending.isEmpty=true := by
      simpa [SortedMap.isEmpty,SortedMap.size] using hn
    exact ⟨hd,hb,hstop ((SortedMap.isEmpty_iff _).mp hempty _)⟩
  | succ n ih =>
    rcases drainLoop_cases n e r with ⟨hf,heq⟩ | ⟨payload,-,-,heq⟩ | ⟨payload,hf,hmax,heq⟩
    · cases heq.symm.trans h
      exact ⟨hd,hb,hstop hf⟩
    · cases heq.symm.trans h
    · have hb' := buffered_take hb hmax
      refine ih ?_ ?_ hb' (heq.symm.trans h) fun hf' => ?_
      · have hlt := size_erase_lt hf
        dsimp only
        omega
      · rw [← List.append_assoc]
        exact hd.release (buffered_expected hb hf) hmax
      · rw [hb',if_pos (UInt64.le_refl _)] at hf'
        exact hf'

theorem drain_spec (hd : Delivered s0 l e.expected (before++r.ready)) (hb : Buffered l e)
    (h : drain e r=(e',r',none)) : InOrder s0 l e' (before++r'.ready) := by
  obtain ⟨e1,hl,rfl | ⟨-,rfl⟩⟩ := drain_cases h
  · obtain ⟨h1,h2,h3⟩ := drainLoop_spec le_rfl hd hb hl
    exact ⟨h1,h2,h3⟩
  · obtain ⟨h1,h2,h3⟩ := drainLoop_spec le_rfl hd hb hl
    exact ⟨h1,h2,h3⟩

/-- The expected message arrives. -/
theorem inOrder_take {ready : List MoldMessage} (hi : InOrder s0 l e ready) {m : MoldMessage}
    (heq : m.sequence=e.expected) (hmax : e.expected≠sequenceMax) :
    Delivered s0 (l++[m]) (e.expected+1) (ready++[m]) ∧
      Buffered (l++[m]) { e with expected := e.expected+1 } := by
  have hp : firstPayload (l++[m]) e.expected=some m.payload := by
    rw [firstPayload_snoc,hi.next,if_pos heq]
    rfl
  have hm : m=⟨e.expected,m.payload⟩ := by rw [← heq]
  constructor
  · rw [hm]
    exact (hi.delivered.later _).release (hm ▸ hp) hmax
  · intro s
    dsimp only
    rw [hi.buffered s]
    by_cases hs : s=e.expected
    · subst hs
      simp [succ_le_iff hmax,hi.next]
    · rw [firstPayload_snoc_ne (by rw [heq]; exact Ne.symm hs)]
      simp [succ_le_iff hmax,hs]

/-- One data message. -/
theorem ingestMessage_spec (hi : InOrder s0 l e (before++r.ready)) {m : MoldMessage}
    (h : e.ingestMessage r m=(e',r',none)) : InOrder s0 (l++[m]) e' (before++r'.ready) := by
  rcases ingestMessage_cases e r m with
    ⟨hlt,hm⟩ | ⟨-,-,hm⟩ | ⟨heq,hmax,hm⟩ | ⟨hgt,hm⟩ <;> rw [hm] at h
  · cases h
    have hne {s : Sequence} (hs : e.expected ≤ s) : m.sequence≠s := by
      rintro rfl
      exact UInt64.not_le.mpr hlt hs
    refine ⟨hi.delivered.later m,fun s => ?_,?_⟩
    · rw [hi.buffered s]
      split_ifs with hs
      · rw [firstPayload_snoc_ne (hne hs)]
      · rfl
    · rw [firstPayload_snoc_ne (hne (UInt64.le_refl _))]
      exact hi.next
  · cases h
  · obtain ⟨hd,hb⟩ := inOrder_take hi heq hmax
    refine drain_spec ?_ hb h
    rw [← List.append_assoc]
    exact hd
  · cases h
    have hle : e.expected ≤ m.sequence := UInt64.le_of_lt hgt
    refine ⟨hi.delivered.later m,fun s => ?_,?_⟩
    · dsimp only
      rw [SortedMap.find?_tryEmplace,hi.buffered,hi.buffered,if_pos hle,firstPayload_snoc]
      by_cases hs : s=m.sequence
      · subst hs
        rw [if_pos rfl,if_pos hle,if_pos rfl]
        cases firstPayload l m.sequence <;> rfl
      · rw [if_neg hs,if_neg (Ne.symm hs),Option.or_none]
    · rw [firstPayload_snoc_ne (UInt64.ne_of_lt hgt).symm]
      exact hi.next

theorem ingestMessages_spec {ms : List MoldMessage} (hi : InOrder s0 l e (before++r.ready))
    (h : e.ingestMessages r ms=(e',r',none)) : InOrder s0 (l++ms) e' (before++r'.ready) := by
  induction ms generalizing l e r with
  | nil =>
    cases h
    rwa [List.append_nil]
  | cons m rest ih =>
    obtain ⟨e1,r1,hm,h⟩ | ⟨hf,-⟩ := ingestMessages_cons h
    · have hnext := ih (ingestMessage_spec hi hm) h
      rwa [List.append_assoc,List.singleton_append] at hnext
    · exact absurd rfl hf

/-- A gap request changes neither the position nor what was released. -/
theorem maybeRequest_frame (e : RecoveryEngine) (r : Result) (next : Sequence) :
    (e.maybeRequest r next).1.expected=e.expected ∧
      (e.maybeRequest r next).1.pending=e.pending ∧
      (e.maybeRequest r next).2.ready=r.ready := by
  unfold maybeRequest
  dsimp only
  split_ifs <;> exact ⟨rfl,rfl,rfl⟩

theorem inOrder_congr {ready : List MoldMessage} (hi : InOrder s0 l e ready)
    (h1 : e'.expected=e.expected) (h2 : e'.pending=e.pending) : InOrder s0 l e' ready :=
  ⟨by rw [h1]; exact hi.delivered,fun s => by rw [h1,h2]; exact hi.buffered s,
    by rw [h1]; exact hi.next⟩

/-- Releasing messages touches neither the session nor the request and the end flag of the
result. -/
structure Framed (e : RecoveryEngine) (r : Result) (out : RecoveryEngine×Result×Option Fault) :
    Prop where
  session : out.1.session=e.session
  request : out.2.1.request=r.request
  endOfSession : out.2.1.endOfSession=r.endOfSession

theorem drainLoop_frame (n : Nat) (e : RecoveryEngine) (r : Result) :
    Framed e r (drainLoop n e r) := by
  induction n generalizing e r with
  | zero => exact ⟨rfl,rfl,rfl⟩
  | succ n ih =>
    rcases drainLoop_cases n e r with ⟨-,heq⟩ | ⟨payload,-,-,heq⟩ | ⟨payload,-,-,heq⟩ <;>
      rw [heq]
    · exact ⟨rfl,rfl,rfl⟩
    · exact ⟨rfl,rfl,rfl⟩
    · obtain ⟨h1,h2,h3⟩ := ih
        { e with pending := e.pending.erase e.expected, expected := e.expected+1 }
        { r with ready := r.ready++[⟨e.expected,payload⟩] }
      exact ⟨h1,h2,h3⟩

theorem drain_frame (e : RecoveryEngine) (r : Result) : Framed e r (e.drain r) := by
  have h := drainLoop_frame e.pending.size e r
  rcases hd : e.drain r with ⟨e',r',fault⟩
  obtain ⟨e1,hl,rfl | ⟨-,rfl⟩⟩ := drain_cases hd <;> rw [hl] at h
  · exact h
  · exact ⟨h.session,h.request,h.endOfSession⟩

theorem ingestMessage_frame (e : RecoveryEngine) (r : Result) (m : MoldMessage) :
    Framed e r (e.ingestMessage r m) := by
  rcases ingestMessage_cases e r m with ⟨-,hm⟩ | ⟨-,-,hm⟩ | ⟨-,-,hm⟩ | ⟨-,hm⟩ <;> rw [hm]
  · exact ⟨rfl,rfl,rfl⟩
  · exact ⟨rfl,rfl,rfl⟩
  · obtain ⟨h1,h2,h3⟩ := drain_frame { e with expected := e.expected+1 }
      { r with ready := r.ready++[m] }
    exact ⟨h1,h2,h3⟩
  · exact ⟨rfl,rfl,rfl⟩

theorem ingestMessages_frame (e : RecoveryEngine) (r : Result) (ms : List MoldMessage) :
    Framed e r (e.ingestMessages r ms) := by
  induction ms generalizing e r with
  | nil => exact ⟨rfl,rfl,rfl⟩
  | cons m rest ih =>
    have h := ingestMessage_frame e r m
    rcases hall : e.ingestMessages r (m::rest) with ⟨e',r',fault⟩
    obtain ⟨e1,r1,hm,hrest⟩ | ⟨-,hm⟩ := ingestMessages_cons hall <;> rw [hm] at h
    · have hf := ih e1 r1
      rw [hrest] at hf
      exact ⟨hf.session.trans h.session,hf.request.trans h.request,
        hf.endOfSession.trans h.endOfSession⟩
    · exact h

theorem maybeRequest_endOfSession (e : RecoveryEngine) (r : Result) (next : Sequence) :
    (e.maybeRequest r next).2.endOfSession=r.endOfSession := by
  unfold maybeRequest
  dsimp only
  split_ifs <;> rfl

/-- The lowest buffered number, or zero. -/
def lowest (e : RecoveryEngine) : Sequence :=
  match e.pending.first? with
  | none => 0
  | some entry => entry.1

/-- The number that a packet shows to be missing everything before it. -/
def horizon (e : RecoveryEngine) (p : MoldDownstreamPacket) : Sequence :=
  if p.heartbeat || p.endOfSession then p.firstSequence else e.lowest

theorem received_control {p : MoldDownstreamPacket} (h : (p.heartbeat || p.endOfSession)=true) :
    received [p]=[] := by
  rw [received,List.flatMap_singleton,if_pos h]

theorem received_data {p : MoldDownstreamPacket} (h : ¬(p.heartbeat || p.endOfSession)=true) :
    received [p]=p.messages := by
  rw [received,List.flatMap_singleton,if_neg h]

theorem maybeRequest_zero (e : RecoveryEngine) (r : Result) : e.maybeRequest r 0=(e,r) :=
  if_pos (UInt64.le_iff_toNat_le.mpr (Nat.zero_le _))

/-- A packet of another session is refused. -/
theorem ingest_other {p : MoldDownstreamPacket} (h : e.session≠none)
    (hp : e.session≠some p.session) :
    e.ingest p=(e,.error (.threw (.decodeError "MoldUDP64 session changed unexpectedly"))) := by
  have hn : e.session.isNone=false :=
    Option.isNone_eq_false_iff.mpr (Option.isSome_iff_ne_none.mpr h)
  unfold ingest
  rw [hn]
  dsimp only
  rw [if_neg Bool.false_ne_true,if_pos hp]

/-- A packet of the session: take the messages, then perhaps ask for a gap. -/
theorem ingest_open {p : MoldDownstreamPacket} (h : e.session=none ∨ e.session=some p.session) :
    e.ingest p=
      match { e with session := some p.session }.ingestMessages {} (received [p]) with
      | (e2,_,some fault) => (e2,.error fault)
      | (e2,r2,none) => ((e2.maybeRequest r2 (e2.horizon p)).1,
          .ok { (e2.maybeRequest r2 (e2.horizon p)).2 with endOfSession := p.endOfSession }) := by
  have he1 : (if e.session.isNone then { e with session := some p.session } else e)=
      { e with session := some p.session } := by
    cases h with
    | inl hs =>
      rw [hs]
      rfl
    | inr hs =>
      rw [← hs]
      exact ite_self e
  unfold ingest
  rw [he1]
  dsimp only
  rw [if_neg (not_not.mpr rfl)]
  by_cases hk : (p.heartbeat || p.endOfSession)=true
  · rw [if_pos hk,received_control hk,ingestMessages]
    simp only [horizon,if_pos hk]
  · have hend : p.endOfSession=false := by
      simp only [Bool.or_eq_true,not_or,Bool.not_eq_true] at hk
      exact hk.2
    have hf := ingestMessages_frame { e with session := some p.session } {} p.messages
    rw [if_neg hk,received_data hk]
    revert hf
    generalize ingestMessages _ {} p.messages=out
    intro hf
    obtain ⟨e2,r2,fault⟩ := out
    cases fault with
    | some fault => rfl
    | none =>
      dsimp only
      rw [horizon,if_neg hk,lowest,hend]
      have hr2 : r2.endOfSession=false := hf.endOfSession
      cases e2.pending.first? with
      | none =>
        dsimp only
        rw [maybeRequest_zero,← hr2]
      | some entry =>
        dsimp only
        rw [← hr2,← maybeRequest_endOfSession e2 r2 entry.1]

/-- What a call that returns has done. -/
theorem ingest_ok {p : MoldDownstreamPacket} (h : e.ingest p=(e',.ok r)) :
    (e.session=none ∨ e.session=some p.session) ∧ ∃ e2 r2,
      { e with session := some p.session }.ingestMessages {} (received [p])=(e2,r2,none) ∧
      e'=(e2.maybeRequest r2 (e2.horizon p)).1 ∧
      r={ (e2.maybeRequest r2 (e2.horizon p)).2 with endOfSession := p.endOfSession } := by
  by_cases hs : e.session=none ∨ e.session=some p.session
  · refine ⟨hs,?_⟩
    rw [ingest_open hs] at h
    rcases hm : ingestMessages _ {} (received [p]) with ⟨e2,r2,_ | fault⟩
    · rw [hm] at h
      cases h
      exact ⟨e2,r2,rfl,rfl,rfl⟩
    · rw [hm] at h
      cases h
  · obtain ⟨h1,h2⟩ := not_or.mp hs
    rw [ingest_other h1 h2] at h
    cases h

/-- How a call fails: the packet is of another session, or one of its messages fails. -/
theorem ingest_error {p : MoldDownstreamPacket} {fault : Fault} (h : e.ingest p=(e',.error fault)) :
    (e.session≠none ∧ e.session≠some p.session ∧ e'=e ∧ fault≠.erasedTwice) ∨
      (e.session=none ∨ e.session=some p.session) ∧ ∃ r2,
        { e with session := some p.session }.ingestMessages {} (received [p])=
          (e',r2,some fault) := by
  by_cases hs : e.session=none ∨ e.session=some p.session
  · rw [ingest_open hs] at h
    rcases hm : ingestMessages _ {} (received [p]) with ⟨e2,r2,_ | fault⟩
    · rw [hm] at h
      cases h
    · rw [hm] at h
      cases h
      exact .inr ⟨hs,r2,rfl⟩
  · obtain ⟨h1,h2⟩ := not_or.mp hs
    rw [ingest_other h1 h2] at h
    cases h
    exact .inl ⟨h1,h2,rfl,nofun⟩

theorem ingest_spec (hi : InOrder s0 l e before) {p : MoldDownstreamPacket}
    (h : e.ingest p=(e',.ok r)) : InOrder s0 (l++received [p]) e' (before++r.ready) := by
  obtain ⟨-,e2,r2,hm,rfl,rfl⟩ := ingest_ok h
  have hi1 : InOrder s0 l { e with session := some p.session } (before++Result.ready {}) := by
    rw [List.append_nil]
    exact inOrder_congr hi rfl rfl
  obtain ⟨h1,h2,h3⟩ := maybeRequest_frame e2 r2 (e2.horizon p)
  dsimp only
  rw [h3]
  exact inOrder_congr (ingestMessages_spec hi1 hm) h1 h2

theorem ingestAll_spec {packets : List MoldDownstreamPacket} {ready : List MoldMessage}
    (hi : InOrder s0 l e before) (h : e.ingestAll packets=some (e',ready)) :
    InOrder s0 (l++received packets) e' (before++ready) := by
  induction packets generalizing l e before ready with
  | nil =>
    simp only [ingestAll,Option.some.injEq,Prod.mk.injEq] at h
    obtain ⟨rfl,rfl⟩ := h
    simpa [received] using hi
  | cons p rest ih =>
    rw [ingestAll] at h
    rcases hp : e.ingest p with ⟨e1,fault | r1⟩
    · rw [hp] at h
      cases h
    · rw [hp] at h
      obtain ⟨⟨e2,ready2⟩,hrest,he⟩ := Option.map_eq_some_iff.mp h
      simp only [Prod.mk.injEq] at he
      obtain ⟨rfl,rfl⟩ := he
      have hnext := ih (ingest_spec hi hp) hrest
      have hsplit : received (p::rest)=received [p]++received rest := by
        simp [received]
      rwa [hsplit,← List.append_assoc,← List.append_assoc]

theorem inOrder_start (s0 : Sequence) : InOrder s0 [] { expected := s0 } [] :=
  ⟨⟨UInt64.le_refl _,by simp,by simp⟩,fun s => by
    split_ifs <;> rfl,rfl⟩

/-- The state of a fresh engine after any packets it took. -/
theorem ingestAll_fresh {packets : List MoldDownstreamPacket} {ready : List MoldMessage}
    (h : ingestAll { expected := s0 } packets=some (e',ready)) :
    InOrder s0 (received packets) e' ready := by
  simpa using ingestAll_spec (inOrder_start s0) h

/-- Whatever packets arrive, as long as every call returns: the released messages are
`s0,s0+1,…` up to the first number that no data packet carried, each with its first
payload, and the buffer holds exactly the first payloads of the numbers beyond. -/
theorem ingestAll_in_order (s0 : Sequence) (packets : List MoldDownstreamPacket)
    {ready : List MoldMessage} (h : ingestAll { expected := s0 } packets=some (e',ready)) :
    s0≤e'.expected ∧
      (ready.map fun m => m.sequence.toNat)=
        List.range' s0.toNat (e'.expected.toNat-s0.toNat) ∧
      (∀ m∈ready, firstPayload (received packets) m.sequence=some m.payload) ∧
      (∀ s, s0 ≤ s → s<e'.expected → ∃ m∈received packets, m.sequence=s) ∧
      (∀ m∈received packets, m.sequence≠e'.expected) ∧
      ∀ s, e'.pending.find? s=
        if e'.expected<s then firstPayload (received packets) s else none := by
  have hi := ingestAll_fresh h
  refine ⟨hi.delivered.start_le,hi.delivered.order,hi.delivered.payload,fun s => hi.below,
    hi.missing,fun s => ?_⟩
  rw [hi.buffered s]
  by_cases hs : s=e'.expected
  · rw [hs,if_pos (UInt64.le_refl _),if_neg (UInt64.lt_irrefl _),hi.next]
  · have hlt : e'.expected<s ↔ e'.expected ≤ s := by
      rw [UInt64.lt_iff_toNat_lt,UInt64.le_iff_toNat_le]
      have hne : s.toNat≠e'.expected.toNat := fun he => hs (UInt64.toNat_inj.mp he)
      omega
    simp only [hlt]

/-- Message 2 first, then 1, then a conflicting copy of 2. -/
theorem ingestAll_in_order_three : ∃ e ready,
    ingestAll { expected := 1 }
      [⟨Vector.replicate 10 32,2,1,false,false,[⟨2,[7]⟩]⟩,
        ⟨Vector.replicate 10 32,1,2,false,false,[⟨1,[]⟩,⟨2,[8]⟩]⟩,
        ⟨Vector.replicate 10 32,3,0,true,false,[]⟩]=some (e,ready) ∧
    e.expected=3 ∧ ready=[⟨1,[]⟩,⟨2,[7]⟩] ∧
    (ready.map fun m => m.sequence.toNat)=
      List.range' 1 (e.expected.toNat-1) := by
  have hrun : ∃ out : RecoveryEngine×List MoldMessage, ingestAll { expected := 1 }
      [⟨Vector.replicate 10 32,2,1,false,false,[⟨2,[7]⟩]⟩,
        ⟨Vector.replicate 10 32,1,2,false,false,[⟨1,[]⟩,⟨2,[8]⟩]⟩,
        ⟨Vector.replicate 10 32,3,0,true,false,[]⟩]=some out ∧
      out.1.expected=3 ∧ out.2=[⟨1,[]⟩,⟨2,[7]⟩] := ⟨_,rfl,by decide,by decide⟩
  obtain ⟨⟨e,ready⟩,h,he,hr⟩ := hrun
  exact ⟨e,ready,h,he,hr,(ingestAll_in_order 1 _ h).2.1⟩

end RecoveryEngine
end MarketWire
