import MarketWire.RecoverySession
import MarketWire.MoldPacket

/-! Gap requests. What the engine remembers of its last request amounts to the largest
request made for the number it is waiting for, so a call asks exactly when it sees a longer
hole than that. -/
namespace MarketWire
open Library
open MoldUdp64

/-- A request asks for the numbers from its first one on. -/
def GapRequest.AsksFor (q : GapRequest) (s : Sequence) : Prop :=
  q.first ≤ s ∧ s.toNat<q.first.toNat+q.count.toNat

def GapRequest.last (q : GapRequest) : Nat := q.first.toNat+q.count.toNat-1

namespace RecoveryEngine
variable {s0 : Sequence} {e e' : RecoveryEngine} {r r' : Result}

/-- A request covers at most this many messages. -/
def requestCap : Nat := 0xFFFE

theorem toNat_min_cap {gap : Sequence} {n : Nat} (h : gap.toNat=n) :
    (if gap<0xFFFE then gap else 0xFFFE).toUInt16.toNat=min n requestCap := by
  have hcap : (0xFFFE : Sequence).toNat=requestCap := rfl
  have hdef : requestCap=0xFFFE := rfl
  rw [UInt64.toNat_toUInt16]
  split_ifs with hlt
  · rw [UInt64.lt_iff_toNat_lt,hcap] at hlt
    rw [h] at hlt ⊢
    omega
  · rw [UInt64.lt_iff_toNat_lt,hcap,h] at hlt
    rw [hcap]
    omega

/-- What a look at the numbers below `next` can do: nothing, or ask for the hole. -/
theorem maybeRequest_cases (e : RecoveryEngine) (r : Result) (next : Sequence) :
    e.maybeRequest r next=(e,r) ∧ (next.toNat≤e.expected.toNat ∨
      e.lastRequestedFirst=e.expected ∧ next.toNat-1≤e.lastRequestedLast.toNat) ∨
    ∃ count last, e.expected.toNat<next.toNat ∧
      ¬(e.lastRequestedFirst=e.expected ∧ next.toNat-1≤e.lastRequestedLast.toNat) ∧
      count.toNat=min (next.toNat-e.expected.toNat) requestCap ∧
      last.toNat=e.expected.toNat+count.toNat-1 ∧
      e.maybeRequest r next=
        ({ e with lastRequestedFirst := e.expected, lastRequestedLast := last },
          { r with request := some ⟨e.expected,count⟩ }) := by
  have hcap : requestCap=0xFFFE := rfl
  unfold maybeRequest
  by_cases hle : next≤e.expected
  · rw [if_pos hle]
    exact .inl ⟨rfl,.inl (UInt64.le_iff_toNat_le.mp hle)⟩
  rw [if_neg hle]
  have hgap := gap_toNat hle
  rw [UInt64.le_iff_toNat_le,Nat.not_le] at hle
  have hlt := next.toNat_lt
  have hprev : (next-1).toNat=next.toNat-1 := UInt64.toNat_sub_of_le _ _
    (UInt64.le_iff_toNat_le.mpr (by rw [UInt64.toNat_one]; omega))
  have hlast : e.lastRequestedLast≥next-1 ↔ next.toNat-1≤e.lastRequestedLast.toNat := by
    rw [ge_iff_le,UInt64.le_iff_toNat_le,hprev]
  dsimp only
  by_cases hknown : e.lastRequestedFirst=e.expected ∧ e.lastRequestedLast≥next-1
  · rw [if_pos hknown]
    exact .inl ⟨rfl,.inr (hknown.imp_right hlast.mp)⟩
  · rw [if_neg hknown]
    set count := (if next-1-e.expected+1<0xFFFE then next-1-e.expected+1 else 0xFFFE).toUInt16
      with hcount
    have hn : count.toNat=min (next.toNat-e.expected.toNat) requestCap := toNat_min_cap hgap
    refine .inr ⟨count,_,hle,fun h => hknown (h.imp_right hlast.mpr),hn,?_,rfl⟩
    -- the sum stays below the number that was observed
    have hsum : (e.expected+count.toUInt64).toNat=e.expected.toNat+count.toNat := by
      rw [UInt64.toNat_add,UInt16.toNat_toUInt64,Nat.mod_eq_of_lt (by omega)]
    rw [UInt64.toNat_sub_of_le _ _ (UInt64.le_iff_toNat_le.mpr (by
      rw [hsum,UInt64.toNat_one]
      omega)),hsum,UInt64.toNat_one]

/-! The memory of a request outlives a call unless the engine moves on. -/

theorem drainLoop_memory {n : Nat} {fault : Option Fault} (h : drainLoop n e r=(e',r',fault)) :
    e.expected≤e'.expected ∧ e'.lastRequestedFirst=e.lastRequestedFirst ∧
      e'.lastRequestedLast=e.lastRequestedLast := by
  induction n generalizing e r with
  | zero =>
    cases h
    exact ⟨UInt64.le_refl _,rfl,rfl⟩
  | succ n ih =>
    rcases drainLoop_cases n e r with ⟨-,heq⟩ | ⟨payload,-,-,heq⟩ | ⟨payload,-,hmax,heq⟩ <;>
      rw [heq] at h
    · cases h
      exact ⟨UInt64.le_refl _,rfl,rfl⟩
    · cases h
      exact ⟨UInt64.le_refl _,rfl,rfl⟩
    · obtain ⟨hle,hfirst,hlast⟩ := ih h
      exact ⟨((succ_le_iff hmax).mp hle).1,hfirst,hlast⟩

theorem drain_memory (h : e.drain r=(e',r',none)) : e.expected≤e'.expected ∧
    (e'.lastRequestedFirst=e.lastRequestedFirst ∨ e'.lastRequestedFirst=0) := by
  obtain ⟨e1,hl,hkept⟩ := drain_cases h
  obtain ⟨hle,hfirst,-⟩ := drainLoop_memory hl
  rcases hkept with rfl | ⟨-,rfl⟩
  · exact ⟨hle,.inl hfirst⟩
  · exact ⟨hle,.inr rfl⟩

/-- The engine stays where it is with its memory, or moves on. -/
def Moves (e e' : RecoveryEngine) : Prop :=
  (e'.expected=e.expected ∧ e'.lastRequestedFirst=e.lastRequestedFirst ∧
      e'.lastRequestedLast=e.lastRequestedLast) ∨
    (e.expected<e'.expected ∧
      (e'.lastRequestedFirst=e.lastRequestedFirst ∨ e'.lastRequestedFirst=0))

theorem Moves.trans {e'' : RecoveryEngine} (h : Moves e e') (h' : Moves e' e'') : Moves e e'' := by
  rcases h with ⟨h1,h2,h3⟩ | ⟨h1,h2⟩
  · rcases h' with ⟨h1',h2',h3'⟩ | ⟨h1',h2'⟩
    · exact .inl ⟨h1'.trans h1,h2'.trans h2,h3'.trans h3⟩
    · exact .inr ⟨h1 ▸ h1',h2 ▸ h2'⟩
  · rcases h' with ⟨h1',h2',h3'⟩ | ⟨h1',h2'⟩
    · exact .inr ⟨h1'.symm ▸ h1,h2'.symm ▸ h2⟩
    · refine .inr ⟨UInt64.lt_trans h1 h1',?_⟩
      cases h2' with
      | inl h2' =>
        rw [h2']
        exact h2
      | inr h2' => exact .inr h2'

theorem ingestMessage_moves {m : MoldMessage} (h : e.ingestMessage r m=(e',r',none)) :
    Moves e e' := by
  rcases ingestMessage_cases e r m with
    ⟨-,hm⟩ | ⟨-,-,hm⟩ | ⟨-,hmax,hm⟩ | ⟨-,hm⟩ <;> rw [hm] at h
  · cases h
    exact .inl ⟨rfl,rfl,rfl⟩
  · cases h
  · obtain ⟨hle,hfirst⟩ := drain_memory h
    obtain ⟨hle,hne⟩ := (succ_le_iff hmax).mp hle
    exact .inr ⟨UInt64.lt_of_le_of_ne hle (Ne.symm hne),hfirst⟩
  · cases h
    exact .inl ⟨rfl,rfl,rfl⟩

theorem ingestMessages_moves {ms : List MoldMessage} (h : e.ingestMessages r ms=(e',r',none)) :
    Moves e e' := by
  induction ms generalizing e r with
  | nil =>
    cases h
    exact .inl ⟨rfl,rfl,rfl⟩
  | cons m rest ih =>
    obtain ⟨e1,r1,hm,h⟩ | ⟨hf,-⟩ := ingestMessages_cons h
    · exact (ingestMessage_moves hm).trans (ih h)
    · exact absurd rfl hf

/-- A call: the packet, the engine behind it, and what it returned. -/
structure Call where
  packet : MoldDownstreamPacket
  after : RecoveryEngine
  result : Result

/-- The length of the hole that a call sees. -/
def Call.hole (c : Call) : Nat := (c.after.horizon c.packet).toNat-c.after.expected.toNat

/-- The calls on a fresh engine, none of which failed. -/
inductive Calls (s0 : Sequence) : List Call → RecoveryEngine → Prop where
  | start : Calls s0 [] { expected := s0 }
  | call {calls : List Call} {e e' : RecoveryEngine} {r : Result} (p : MoldDownstreamPacket) :
      Calls s0 calls e → e.ingest p=(e',.ok r) → Calls s0 (calls++[⟨p,e',r⟩]) e'

def packetsOf (calls : List Call) : List MoldDownstreamPacket := calls.map Call.packet

def releasedBy (calls : List Call) : List MoldMessage := calls.flatMap fun c => c.result.ready

def requestsOf (calls : List Call) : List GapRequest := calls.filterMap fun c => c.result.request

/-- The largest request that the holes seen at `s` call for. -/
def wanted (calls : List Call) (s : Sequence) : Nat :=
  calls.foldl (fun n c => if c.after.expected=s then max n (min c.hole requestCap) else n) 0

theorem wanted_snoc (calls : List Call) (c : Call) (s : Sequence) :
    wanted (calls++[c]) s=
      if c.after.expected=s then max (wanted calls s) (min c.hole requestCap)
      else wanted calls s := by
  rw [wanted,List.foldl_append]
  rfl

/-- A call that fits no number seen before. -/
theorem wanted_eq_zero {calls : List Call} {s : Sequence} (h : ∀ c∈calls, c.after.expected≠s) :
    wanted calls s=0 := by
  induction calls using List.reverseRecOn with
  | nil => rfl
  | append_singleton calls c ih =>
    rw [wanted_snoc,if_neg (h c (by simp)),ih fun d hd => h d (List.mem_append_left _ hd)]

theorem wanted_le (calls : List Call) (s : Sequence) : wanted calls s≤requestCap := by
  induction calls using List.reverseRecOn with
  | nil => exact Nat.zero_le _
  | append_singleton calls c ih =>
    rw [wanted_snoc]
    split_ifs
    · exact max_le ih (min_le_right _ _)
    · exact ih

/-- What the engine remembers is the largest request for its number, and that request was made. -/
structure Remembers (calls : List Call) (e : RecoveryEngine) : Prop where
  seen_le : ∀ c∈calls, c.after.expected≤e.expected
  first_le : e.lastRequestedFirst≤e.expected
  pos : 0<e.expected.toNat
  memory : (wanted calls e.expected=0 ∧ e.lastRequestedFirst≠e.expected) ∨
    0<wanted calls e.expected ∧ e.lastRequestedFirst=e.expected ∧
      e.lastRequestedLast.toNat=e.expected.toNat+wanted calls e.expected-1
  made : 0<wanted calls e.expected →
    ∃ q∈requestsOf calls, q.first=e.expected ∧ q.count.toNat=wanted calls e.expected

theorem Remembers.moves {calls : List Call} (h : Remembers calls e) (hm : Moves e e') :
    Remembers calls e' := by
  rcases hm with ⟨h1,h2,h3⟩ | ⟨h1,h2⟩
  · obtain ⟨ha,hb,hc,hd,he⟩ := h
    rw [← h1] at ha hb hc hd he
    rw [← h2,← h3] at hd
    rw [← h2] at hb
    exact ⟨ha,hb,hc,hd,he⟩
  · have hlt := UInt64.lt_iff_toNat_lt.mp h1
    have hne {s : Sequence} (hs : s≤e.expected) : s≠e'.expected := fun he =>
      UInt64.not_le.mpr h1 (he ▸ hs)
    have hzero : wanted calls e'.expected=0 := wanted_eq_zero fun c hc => hne (h.seen_le c hc)
    have hfirst : e'.lastRequestedFirst≤e'.expected ∧ e'.lastRequestedFirst≠e'.expected := by
      rcases h2 with h2 | h2
      · rw [h2]
        exact ⟨UInt64.le_trans h.first_le (UInt64.le_of_lt h1),hne h.first_le⟩
      · rw [h2]
        refine ⟨UInt64.le_iff_toNat_le.mpr (Nat.zero_le _),fun h0 => ?_⟩
        rw [← h0] at hlt
        exact Nat.not_lt_zero _ hlt
    refine ⟨fun c hc => UInt64.le_trans (h.seen_le c hc) (UInt64.le_of_lt h1),hfirst.1,by omega,
      .inl ⟨hzero,hfirst.2⟩,fun hpos => ?_⟩
    rw [hzero] at hpos
    exact absurd hpos (Nat.lt_irrefl 0)

/-- The request a call makes: for a hole longer than was asked for before, its beginning. -/
def requestFor (calls : List Call) (c : Call) : Option GapRequest :=
  if wanted calls c.after.expected<c.hole then
    some ⟨c.after.expected,UInt16.ofNat (min c.hole requestCap)⟩
  else none

theorem requestsOf_snoc (calls : List Call) (c : Call) :
    requestsOf (calls++[c])=requestsOf calls++c.result.request.toList := by
  rw [requestsOf,List.filterMap_append]
  cases hq : c.result.request with
  | none => simp [requestsOf,hq]
  | some q => simp [requestsOf,hq]

section Step
variable {calls : List Call} {c : Call} {next : Sequence}

/-- The engine sees nothing it has not asked for. -/
theorem Remembers.silent (h : Remembers calls c.after) (hc : c.result.request=none)
    (hknown : c.hole≤wanted calls c.after.expected) : Remembers (calls++[c]) c.after := by
  have hw : wanted (calls++[c]) c.after.expected=wanted calls c.after.expected := by
    rw [wanted_snoc,if_pos rfl]
    exact max_eq_left ((min_le_left _ _).trans hknown)
  refine ⟨?_,h.first_le,h.pos,by rw [hw]; exact h.memory,?_⟩
  · intro d hd
    cases List.mem_append.mp hd with
    | inl hd => exact h.seen_le d hd
    | inr hd =>
      rw [List.mem_singleton.mp hd]
      exact UInt64.le_refl _
  · rw [hw,requestsOf_snoc,hc]
    simpa using h.made

/-- The engine asks, and remembers what it asked. -/
theorem Remembers.asks (h : Remembers calls e) (hexp : c.after.expected=e.expected)
    (hq : c.result.request=some ⟨e.expected,UInt16.ofNat (min c.hole requestCap)⟩)
    (hlonger : wanted calls e.expected<c.hole) (hfirst : c.after.lastRequestedFirst=e.expected)
    (hlast : c.after.lastRequestedLast.toNat=e.expected.toNat+min c.hole requestCap-1) :
    Remembers (calls++[c]) c.after := by
  have hcap : requestCap=0xFFFE := rfl
  have hle := wanted_le calls e.expected
  have hw : wanted (calls++[c]) c.after.expected=min c.hole requestCap := by
    rw [wanted_snoc,if_pos rfl,hexp]
    exact max_eq_right (by omega)
  refine ⟨?_,by rw [hfirst,hexp]; exact UInt64.le_refl _,by rw [hexp]; exact h.pos,.inr ?_,?_⟩
  · intro d hd
    cases List.mem_append.mp hd with
    | inl hd =>
      rw [hexp]
      exact h.seen_le d hd
    | inr hd =>
      rw [List.mem_singleton.mp hd]
      exact UInt64.le_refl _
  · rw [hw,hexp]
    exact ⟨by omega,hfirst,hlast⟩
  · intro _
    rw [hw,requestsOf_snoc,hq]
    refine ⟨_,List.mem_append_right _ (List.mem_singleton.mpr rfl),hexp.symm,?_⟩
    exact UInt16.toNat_ofNat_of_lt' (by simp only [UInt16.size]; omega)

end Step

theorem horizon_congr (h : e'.pending=e.pending) (p : MoldDownstreamPacket) :
    e'.horizon p=e.horizon p := by
  rw [horizon,horizon,lowest,lowest,h]

/-- One call: what it asks for, and what the engine remembers behind it. -/
theorem Remembers.call {calls : List Call} (h : Remembers calls e) {p : MoldDownstreamPacket}
    (hi : e.ingest p=(e',.ok r)) :
    r.request=requestFor calls ⟨p,e',r⟩ ∧ Remembers (calls++[⟨p,e',r⟩]) e' := by
  obtain ⟨-,e2,r2,hm,he',hr⟩ := ingest_ok hi
  have h1 : Remembers calls { e with session := some p.session } := h.moves (.inl ⟨rfl,rfl,rfl⟩)
  have h2 : Remembers calls e2 := h1.moves (ingestMessages_moves hm)
  have hr2 : r2.request=none := by
    have hf := ingestMessages_frame { e with session := some p.session } {} (received [p])
    rw [hm] at hf
    exact hf.request
  have hmem := h2.memory
  have hreq : r.request=(e2.maybeRequest r2 (e2.horizon p)).2.request := by rw [hr]
  set c : Call := ⟨p,e',r⟩ with hc
  obtain ⟨hexp,hpend,-⟩ := maybeRequest_frame e2 r2 (e2.horizon p)
  rw [← he'] at hexp hpend
  have hhole : c.hole=(e2.horizon p).toNat-e2.expected.toNat := by
    rw [Call.hole,hc]
    dsimp only
    rw [hexp,horizon_congr hpend]
  rcases maybeRequest_cases e2 r2 (e2.horizon p) with ⟨he,hknown⟩ | ⟨count,last,hlt,hnew,hn,hl,he⟩
  · rw [he] at he' hreq
    subst he'
    have hnone : c.result.request=none := hreq.trans hr2
    have hle : c.hole≤wanted calls c.after.expected := by
      rw [hhole]
      rcases hknown with hle | ⟨hfirst,hlast⟩
      · exact (Nat.sub_eq_zero_of_le hle).le.trans (Nat.zero_le _)
      · rcases hmem with ⟨-,hne⟩ | ⟨hpos,-,hl⟩
        · exact absurd hfirst hne
        · show _≤wanted calls e'.expected
          omega
    refine ⟨?_,h2.silent hnone hle⟩
    rw [requestFor,if_neg (Nat.not_lt.mpr hle)]
    exact hnone
  · rw [he] at he' hreq
    have hcount : count=UInt16.ofNat (min c.hole requestCap) := by
      rw [hhole,← hn,UInt16.ofNat_toNat]
    have hsome : c.result.request=some ⟨e2.expected,UInt16.ofNat (min c.hole requestCap)⟩ := by
      rw [← hcount]
      exact hreq
    have hlonger : wanted calls e2.expected<c.hole := by
      rw [hhole]
      rcases hmem with ⟨hzero,-⟩ | ⟨-,hfirst,hlast⟩
      · omega
      · have hbeyond : ¬(e2.horizon p).toNat-1≤e2.lastRequestedLast.toNat := fun hle =>
          hnew ⟨hfirst,hle⟩
        omega
    have hlast : c.after.lastRequestedLast.toNat=e2.expected.toNat+min c.hole requestCap-1 := by
      rw [hhole,← hn,← hl,hc,he']
    refine ⟨?_,h2.asks hexp hsome hlonger (by rw [hc,he']) hlast⟩
    rw [requestFor,show c.after.expected=e2.expected from hexp,if_pos hlonger]
    exact hsome

/-- Behind a call that returned the engine knows the session. -/
theorem ingest_session {p : MoldDownstreamPacket} (h : e.ingest p=(e',.ok r)) :
    e'.session=some p.session := by
  obtain ⟨-,e2,r2,hm,rfl,-⟩ := ingest_ok h
  have hf := ingestMessages_frame { e with session := some p.session } {} (received [p])
  rw [hm] at hf
  rw [maybeRequest_session]
  exact hf.session

namespace Calls
variable {calls earlier later : List Call} {c : Call}

theorem split (h : Calls s0 calls e) (hc : calls=earlier++c::later) :
    ∃ e1, Calls s0 earlier e1 ∧ e1.ingest c.packet=(c.after,.ok c.result) := by
  induction h generalizing later with
  | start => simp at hc
  | @call calls e e' r p h hi ih =>
    cases later using List.reverseRecOn with
    | nil =>
      obtain ⟨rfl,hlast⟩ := List.append_inj' hc rfl
      cases List.singleton_inj.mp hlast
      exact ⟨e,h,hi⟩
    | append_singleton later d =>
      have hc' : calls++[⟨p,e',r⟩]=(earlier++c::later)++[d] := by
        rw [hc]
        simp
      obtain ⟨hinit,-⟩ := List.append_inj' hc' rfl
      exact ih hinit

/-- A run may be cut behind any call. -/
theorem upTo (h : Calls s0 calls e) (hc : calls=earlier++c::later) :
    Calls s0 (earlier++[c]) c.after := by
  obtain ⟨e1,h1,hi⟩ := h.split hc
  exact .call c.packet h1 hi

theorem inOrder (h : Calls s0 calls e) :
    InOrder s0 (received (packetsOf calls)) e (releasedBy calls) := by
  induction h with
  | start => exact inOrder_start s0
  | @call calls e e' r p h hi ih =>
    have hnext := ingest_spec ih hi
    rw [packetsOf,List.map_append,releasedBy,List.flatMap_append]
    simpa [received,packetsOf,releasedBy] using hnext

theorem remembers (h : Calls s0 calls e) (hs : s0≠0) : Remembers calls e := by
  induction h with
  | start =>
    refine ⟨by simp,UInt64.le_iff_toNat_le.mpr (Nat.zero_le _),?_,.inl ⟨rfl,Ne.symm hs⟩,nofun⟩
    exact Nat.pos_of_ne_zero fun h0 => hs (UInt64.toNat_inj.mp h0)
  | call p h hi ih => exact (ih.call hi).2

/-- Every call of a run asks for what it sees. -/
theorem request_eq (h : Calls s0 calls e) (hs : s0≠0) (hc : calls=earlier++c::later) :
    c.result.request=requestFor earlier c := by
  obtain ⟨e1,h1,hi⟩ := h.split hc
  exact ((h1.remembers hs).call hi).1

/-- A call counts among what was wanted. -/
theorem le_wanted (hc : c∈calls) : min c.hole requestCap≤wanted calls c.after.expected := by
  induction calls using List.reverseRecOn with
  | nil => simp at hc
  | append_singleton calls d ih =>
    rw [wanted_snoc]
    cases List.mem_append.mp hc with
    | inl hc =>
      split_ifs
      · exact (ih hc).trans (le_max_left _ _)
      · exact ih hc
    | inr hc =>
      rw [List.mem_singleton.mp hc,if_pos rfl]
      exact le_max_right _ _

/-- The hole before the lowest buffered number has been asked for. -/
theorem covered (h : Calls s0 calls e) :
    min (e.lowest.toNat-e.expected.toNat) requestCap≤wanted calls e.expected := by
  induction h with
  | start => exact (Nat.min_le_left _ _).trans (by simp [lowest,SortedMap.first?,SortedMap.empty])
  | @call calls e e' r p h hi ih =>
    have hlast : (⟨p,e',r⟩ : Call)∈calls++[⟨p,e',r⟩] := by simp
    by_cases hk : (p.heartbeat || p.endOfSession)=true
    · -- a control packet leaves the buffer and the position
      obtain ⟨-,e2,r2,hm,rfl,-⟩ := ingest_ok hi
      rw [received_control hk] at hm
      cases hm
      obtain ⟨hexp,hpend,-⟩ := maybeRequest_frame { e with session := some p.session } {}
        (horizon { e with session := some p.session } p)
      rw [wanted_snoc,lowest,hpend,hexp,if_pos rfl]
      exact ih.trans (le_max_left _ _)
    · have hhole := le_wanted hlast
      rwa [Call.hole,horizon,if_neg hk] at hhole

end Calls

theorem requestFor_eq_some {earlier : List Call} {c : Call} {q : GapRequest}
    (h : requestFor earlier c=some q) : wanted earlier c.after.expected<c.hole ∧
      q.first=c.after.expected ∧ q.count.toNat=min c.hole requestCap := by
  have hcap : requestCap=0xFFFE := rfl
  unfold requestFor at h
  split_ifs at h with hlonger
  cases h
  exact ⟨hlonger,rfl,UInt16.toNat_ofNat_of_lt' (by simp only [UInt16.size]; omega)⟩

/-- Numbers below the lowest buffered one are not buffered. -/
theorem find_below_lowest {s : Sequence} (h : s<e.lowest) : e.pending.find? s=none := by
  unfold lowest at h
  cases hf : e.pending.first? with
  | none =>
    rw [hf] at h
    exact absurd (UInt64.lt_iff_toNat_lt.mp h) (Nat.not_lt_zero _)
  | some entry =>
    rw [hf] at h
    by_contra hn
    rcases (SortedMap.first?_eq_some hf).2 s (Option.isSome_iff_ne_none.mpr hn) with he | hlt
    · exact UInt64.lt_irrefl _ (he ▸ h)
    · exact UInt64.lt_irrefl _ (UInt64.lt_trans h hlt)

/-- This or an earlier call asked for the hole from `s` up to the number `n`, as far as one request
reaches. -/
def Asked (calls : List Call) (s : Sequence) (n : Nat) : Prop :=
  ∃ q∈requestsOf calls, q.first=s ∧ min (n-1) (s.toNat+0xFFFD)≤q.last

theorem Remembers.asked {calls : List Call} (h : Remembers calls e) {n : Nat}
    (hn : e.expected.toNat<n) (hw : min (n-e.expected.toNat) requestCap≤wanted calls e.expected) :
    Asked calls e.expected n := by
  have hcap : requestCap=0xFFFE := rfl
  obtain ⟨q,hq,hfirst,hcount⟩ := h.made (by omega)
  refine ⟨q,hq,hfirst,?_⟩
  rw [GapRequest.last,hfirst,hcount]
  omega

namespace Calls
variable {calls earlier later : List Call} {c : Call} {q : GapRequest}

theorem request_bounds (h : Calls s0 (earlier++c::later) e) (hs : s0≠0)
    (hq : c.result.request=some q) : q.first=c.after.expected ∧ 1≤q.count.toNat ∧
      q.count.toNat≤0xFFFE ∧ q.last<2^64 := by
  have hcap : requestCap=0xFFFE := rfl
  rw [h.request_eq hs rfl] at hq
  obtain ⟨hlonger,hfirst,hcount⟩ := requestFor_eq_some hq
  have hlt := (c.after.horizon c.packet).toNat_lt
  rw [Call.hole] at hlonger hcount
  refine ⟨hfirst,by omega,by omega,?_⟩
  rw [GapRequest.last,hfirst]
  omega

/-- A data packet makes the engine ask for the beginning of the hole before the lowest buffered
number. -/
theorem request_lowest (h : Calls s0 (earlier++c::later) e) (hs : s0≠0)
    (hq : c.result.request=some q) (hk : (c.packet.heartbeat || c.packet.endOfSession)=false) :
    (∀ s, q.AsksFor s → c.after.pending.find? s=none) ∧
      ∃ entry, c.after.pending.first?=some entry ∧
        q.count.toNat=min (entry.1.toNat-c.after.expected.toNat) 0xFFFE := by
  rw [h.request_eq hs rfl] at hq
  obtain ⟨hlonger,hfirst,hcount⟩ := requestFor_eq_some hq
  have hhole : c.hole=c.after.lowest.toNat-c.after.expected.toNat := by
    rw [Call.hole,horizon,if_neg (by rw [hk]; exact Bool.false_ne_true)]
  rw [hhole] at hlonger hcount
  constructor
  · rintro s ⟨-,hs⟩
    refine find_below_lowest (UInt64.lt_iff_toNat_lt.mpr ?_)
    rw [hfirst,hcount] at hs
    omega
  · rw [lowest] at hlonger hcount
    cases hf : c.after.pending.first? with
    | none =>
      rw [hf] at hlonger
      exact absurd hlonger (by simp)
    | some entry =>
      rw [hf] at hcount
      exact ⟨entry,rfl,hcount⟩

/-- The hole before the lowest buffered number has been asked for. -/
theorem asked_lowest (h : Calls s0 calls e) (hs : s0≠0) {entry : Sequence×Bytes}
    (hf : e.pending.first?=some entry) : Asked calls e.expected entry.1.toNat := by
  have hlow : e.lowest=entry.1 := by rw [lowest,hf]
  have hfound := (SortedMap.first?_eq_some hf).1
  have hin := h.inOrder
  have hlt : e.expected.toNat<entry.1.toNat := by
    rw [hin.buffered] at hfound
    split_ifs at hfound with hle
    rw [UInt64.le_iff_toNat_le] at hle
    refine lt_of_le_of_ne hle fun he => ?_
    rw [← UInt64.toNat_inj.mp he,hin.next] at hfound
    cases hfound
  refine (h.remembers hs).asked hlt ?_
  rw [← hlow]
  exact h.covered

/-- The hole that a heartbeat shows has been asked for. -/
theorem asked_control (h : Calls s0 (earlier++[c]) c.after) (hs : s0≠0)
    (hk : (c.packet.heartbeat || c.packet.endOfSession)=true)
    (hlt : c.after.expected<c.packet.firstSequence) :
    Asked (earlier++[c]) c.after.expected c.packet.firstSequence.toNat := by
  refine (h.remembers hs).asked (UInt64.lt_iff_toNat_lt.mp hlt) ?_
  have hw := le_wanted (by simp : c∈earlier++[c])
  rwa [Call.hole,horizon,if_pos hk] at hw

end Calls

/-- Gap requests ask for numbers that are missing, and every hole that is known has been asked
for. -/
theorem requests_sound (hs : 1 ≤ s0) {earlier later : List Call} {c : Call}
    (h : Calls s0 (earlier++c::later) e) :
    (∀ q, c.result.request=some q →
      q.first=c.after.expected ∧ 1≤q.count.toNat ∧ q.count.toNat≤0xFFFE ∧ q.last<2^64 ∧
      (∀ s, q.AsksFor s → ∀ m∈releasedBy (earlier++[c]), m.sequence≠s) ∧
      ((c.packet.heartbeat || c.packet.endOfSession)=false →
        (∀ s, q.AsksFor s → c.after.pending.find? s=none) ∧
        ∃ entry, c.after.pending.first?=some entry ∧
          q.count.toNat=min (entry.1.toNat-c.after.expected.toNat) 0xFFFE)) ∧
    (∀ entry, c.after.pending.first?=some entry →
      Asked (earlier++[c]) c.after.expected entry.1.toNat) ∧
    ((c.packet.heartbeat || c.packet.endOfSession)=true →
      c.after.expected<c.packet.firstSequence →
      Asked (earlier++[c]) c.after.expected c.packet.firstSequence.toNat) ∧
    (∀ q, c.result.request=some q → ∃ session out, c.after.session=some session ∧
      encodeRequest ⟨session,q.first,q.count⟩=.ok out ∧ out.length=20 ∧ sessionAt out=session ∧
      readU64Be out 10=.ok q.first ∧ readU16Be out 18=.ok q.count) := by
  have h0 : s0≠0 := fun he => by
    rw [he] at hs
    exact absurd hs (by decide)
  have hup := h.upTo rfl
  refine ⟨fun q hq => ?_,fun entry hf => hup.asked_lowest h0 hf,hup.asked_control h0,
    fun q hq => ?_⟩
  · obtain ⟨hfirst,hpos,hcap,hlast⟩ := h.request_bounds h0 hq
    refine ⟨hfirst,hpos,hcap,hlast,fun s hs m hm he => ?_,h.request_lowest h0 hq⟩
    exact UInt64.not_le.mpr (hup.inOrder.delivered.lt hm) (he ▸ hfirst ▸ hs.1)
  · obtain ⟨e1,-,hi⟩ := h.split rfl
    obtain ⟨hc0,hcF⟩ := (ingest_result hi).1 q hq
    obtain ⟨out,hout⟩ := encodeRequest_fields (q := ⟨c.packet.session,q.first,q.count⟩) hc0 hcF
    exact ⟨c.packet.session,out,ingest_session hi,hout⟩

/-- A heartbeat shows a hole of four; message 4 then needs no further request. -/
theorem requests_sound_heartbeat : ∃ first second,
    Calls 1 [first,second] second.after ∧ requestsOf [first,second]=[⟨1,4⟩] ∧
      second.result.request=none ∧ Asked [first,second] second.after.expected 4 := by
  obtain ⟨e1,r1,h1,hq1⟩ : ∃ e1 r1, ingest { expected := 1 }
      ⟨Vector.replicate 10 32,5,0,true,false,[]⟩=(e1,.ok r1) ∧ r1.request=some ⟨1,4⟩ ∧
        e1.ingest ⟨Vector.replicate 10 32,4,1,false,false,[⟨4,[9]⟩]⟩=
          ((e1.ingest ⟨Vector.replicate 10 32,4,1,false,false,[⟨4,[9]⟩]⟩).1,.ok {}) ∧
        (e1.ingest ⟨Vector.replicate 10 32,4,1,false,false,[⟨4,[9]⟩]⟩).1.pending.first?=
          some (4,[9]) :=
    ⟨_,_,rfl,by decide,rfl,by decide⟩
  obtain ⟨hq,h2,hf⟩ := hq1
  have hcalls := Calls.call _ (Calls.call _ Calls.start h1) h2
  refine ⟨⟨_,e1,r1⟩,⟨_,_,{}⟩,hcalls,by simp [requestsOf,hq],rfl,?_⟩
  have hsplit : Calls 1 ([⟨_,e1,r1⟩]++⟨_,_,{}⟩::[]) _ := hcalls
  exact (requests_sound (by decide) hsplit).2.1 _ hf

end RecoveryEngine
end MarketWire
