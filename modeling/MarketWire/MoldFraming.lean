import MarketWire.MoldUdp64

/-! What the MoldUDP64 parser accepts: a header and exactly the announced number of
length-prefixed blocks. -/
namespace MarketWire
open Library

/-- A payload behind its 16-bit length. -/
def block (payload : Bytes) : Bytes := beEncode 2 payload.length++payload

/-- Header and blocks of a packet. -/
def frame (session : Session) (first : Sequence) (count : UInt16) (payloads : List Bytes) : Bytes :=
  session.toList++(beEncode 8 first.toNat++(beEncode 2 count.toNat++payloads.flatMap block))

/-- Payloads numbered from `first+i` on. -/
def numbered (first : Sequence) : Nat → List Bytes → List MoldMessage
  | _, [] => []
  | i, m::rest => ⟨first+UInt64.ofNat i,m⟩::numbered first (i+1) rest

section Slices
variable {α : Type*} {l xs ys : List α} {i n : Nat}

theorem slice_append_drop (l : List α) (i n : Nat) : slice l i n++l.drop (i+n)=l.drop i := by
  rw [slice,← List.drop_drop,List.take_append_drop]

theorem drop_add_of_append (h : l.drop i=xs++ys) : l.drop (i+xs.length)=ys := by
  rw [← List.drop_drop,h,List.drop_left]

theorem slice_of_append (h : l.drop i=xs++ys) : slice l i xs.length=xs := by
  rw [slice,h,List.take_left]

end Slices

namespace MoldUdp64
variable {d : Bytes} {first : Sequence}

/-- The loop reads exactly `n` blocks. -/
theorem parseMessages_ok {n i offset off : Nat} {ms : List MoldMessage} (ho : offset≤d.length) :
    parseMessages d first n i offset=.ok (ms,off) ↔
      ∃ payloads, payloads.length=n ∧ (∀ m∈payloads, m.length<65536) ∧
        d.drop offset=payloads.flatMap block++d.drop off ∧ off≤d.length ∧
        offset+(payloads.flatMap block).length=off ∧ ms=numbered first i payloads := by
  induction n generalizing i offset ms off with
  | zero =>
    simp only [parseMessages,Except.ok.injEq,Prod.mk.injEq]
    constructor
    · rintro ⟨rfl,rfl⟩
      exact ⟨[],rfl,by simp,by simp,ho,by simp,rfl⟩
    · rintro ⟨payloads,hlen,_,_,_,hoff,rfl⟩
      obtain rfl := List.eq_nil_of_length_eq_zero hlen
      exact ⟨rfl,by simpa using hoff⟩
  | succ n ih =>
    simp only [parseMessages,bind_eq_ok,requireBytes_ok,readU16Be_ok]
    constructor
    · rintro ⟨_,_,len,⟨h2,hs⟩,_,hlen,⟨rest,o⟩,hrest,hret⟩
      simp only [pure,Except.pure,Except.ok.injEq,Prod.mk.injEq] at hret
      obtain ⟨rfl,rfl⟩ := hret
      obtain ⟨payloads,rfl,hpl,hdrop,hle,hoff,rfl⟩ := (ih (by omega)).mp hrest
      have hm := slice_length d hlen
      refine ⟨slice d (offset+2) len.toNat::payloads,rfl,?_,?_,hle,?_,rfl⟩
      · intro m hmem
        rcases List.mem_cons.mp hmem with rfl | hmem
        · rw [hm]
          exact len.toNat_lt
        · exact hpl m hmem
      · rw [List.flatMap_cons,block,hm,← hs,List.append_assoc,List.append_assoc,← hdrop,
          slice_append_drop,slice_append_drop]
      · rw [List.flatMap_cons,List.length_append,← hoff,block,List.length_append,length_beEncode,hm]
        omega
    · rintro ⟨_ | ⟨m,payloads⟩,hn,hpl,hdrop,hle,hoff,rfl⟩
      · cases hn
      rw [List.flatMap_cons,block,List.append_assoc,List.append_assoc] at hdrop
      have hm : m.length<65536 := hpl m (by simp)
      have hb := slice_of_append hdrop
      have hdrop2 := drop_add_of_append hdrop
      rw [length_beEncode] at hb hdrop2
      have hslice := slice_of_append hdrop2
      have hdrop3 := drop_add_of_append hdrop2
      have htot := congrArg List.length hdrop
      simp only [List.length_drop,List.length_append,length_beEncode] at htot
      have hto : (UInt16.ofNat m.length).toNat=m.length := UInt16.toNat_ofNat_of_lt' hm
      refine ⟨(),by omega,UInt16.ofNat m.length,⟨by omega,by rw [hto]; exact hb⟩,(),
        by rw [hto]; omega,(numbered first (i+1) payloads,off),?_,?_⟩
      · rw [hto]
        refine (ih (by omega)).mpr ⟨payloads,Nat.succ.inj hn,
          fun x hx => hpl x (List.mem_cons_of_mem m hx),hdrop3,hle,?_,rfl⟩
        rw [← hoff,List.flatMap_cons,List.length_append,block,List.length_append,length_beEncode]
        omega
      · rw [hto,hslice]
        rfl

theorem sessionAt_toList (h : 10≤d.length) : (sessionAt d).toList=slice d 0 10 := by
  rw [← map_byteAt (by omega : 0+10≤d.length)]
  refine List.ext_getElem (by simp) fun i h1 h2 => ?_
  simp [sessionAt]

/-- The header fields, read off the front of a datagram. -/
theorem header_ok {session : Session} {count : UInt16} {rest : Bytes} :
    d=session.toList++(beEncode 8 first.toNat++(beEncode 2 count.toNat++rest)) ↔
      20≤d.length ∧ sessionAt d=session ∧ readU64Be d 10=.ok first ∧ readU16Be d 18=.ok count ∧
        d.drop 20=rest := by
  constructor
  · intro h
    have h0 : d.drop 0=session.toList++(beEncode 8 first.toNat++(beEncode 2 count.toNat++rest)) := h
    have h10 := drop_add_of_append h0
    have hs := slice_of_append h0
    rw [Vector.length_toList,Nat.zero_add] at h10
    rw [Vector.length_toList] at hs
    have h18 := drop_add_of_append h10
    have hf := slice_of_append h10
    rw [length_beEncode] at h18 hf
    have h20 := drop_add_of_append h18
    have hc := slice_of_append h18
    rw [length_beEncode] at h20 hc
    have hlen : 20≤d.length := by
      rw [h]
      simp only [List.length_append,Vector.length_toList,length_beEncode]
      omega
    refine ⟨hlen,?_,readU64Be_ok.mpr ⟨by omega,hf⟩,readU16Be_ok.mpr ⟨by omega,hc⟩,h20⟩
    rw [← Vector.toList_inj,sessionAt_toList (by omega),hs]
  · rintro ⟨hlen,rfl,hf,hc,rfl⟩
    rw [sessionAt_toList (by omega),← (readU64Be_ok.mp hf).2,← (readU16Be_ok.mp hc).2,
      slice_append_drop d 18 2,slice_append_drop d 10 8,slice_append_drop d 0 10]
    rfl

/-- Which kind of packet the count announces, and the flags that say so. -/
def KindOk (p : MoldDownstreamPacket) (payloads : List Bytes) : Prop :=
  (p.messageCount=0 ∧ payloads=[] ∧ p.heartbeat=true ∧ p.endOfSession=false) ∨
  (p.messageCount=0xFFFF ∧ payloads=[] ∧ p.heartbeat=false ∧ p.endOfSession=true) ∨
  (1≤p.messageCount.toNat ∧ p.messageCount.toNat≤0xFFFE ∧
    payloads.length=p.messageCount.toNat ∧
    p.firstSequence.toNat+p.messageCount.toNat-1≤2^64-1 ∧
    p.heartbeat=false ∧ p.endOfSession=false)

theorem overflow_guard {count : UInt16} (h0 : count≠0) :
    first>sequenceMax-(count-1).toUInt64 ↔ ¬first.toNat+count.toNat-1≤2^64-1 := by
  have hc : count.toNat≠0 := fun h => h0 (UInt16.toNat_inj.mp h)
  have hlt := count.toNat_lt
  have hf := first.toNat_lt
  have hmax := toNat_sequenceMax
  have h1 : (1 : UInt16)≤count := UInt16.le_iff_toNat_le.mpr (Nat.pos_of_ne_zero hc)
  have hsub : (count-1).toUInt64.toNat=count.toNat-1 := by
    rw [UInt16.toNat_toUInt64,UInt16.toNat_sub_of_le _ _ h1]
    rfl
  have hle : (count-1).toUInt64 ≤ sequenceMax := by
    rw [UInt64.le_iff_toNat_le,hsub]
    omega
  rw [gt_iff_lt,UInt64.lt_iff_toNat_lt,UInt64.toNat_sub_of_le _ _ hle,hsub,hmax]
  omega

/-- A packet without messages is the header alone. -/
theorem bare_ok {what : String} {p q : MoldDownstreamPacket} :
    (do
      if d.length≠20 then throw (Thrown.decodeError what)
      return q : Except Thrown MoldDownstreamPacket)=.ok p ↔ d.length=20 ∧ p=q := by
  by_cases hl : d.length=20
  · rw [if_neg (not_not.mpr hl)]
    exact ⟨fun h => ⟨hl,(Except.ok.inj h).symm⟩,fun h => congrArg Except.ok h.2.symm⟩
  · rw [if_pos hl]
    constructor
    · intro h
      cases h
    · intro h
      exact absurd h.1 hl

section Body
variable {session : Session} {count : UInt16} {p : MoldDownstreamPacket}

theorem parseBody_heartbeat : parseBody d session first 0=.ok p ↔
    d.length=20 ∧ p=⟨session,first,0,true,false,[]⟩ := by
  unfold parseBody
  rw [if_pos rfl]
  exact bare_ok

theorem parseBody_end : parseBody d session first 0xFFFF=.ok p ↔
    d.length=20 ∧ p=⟨session,first,0xFFFF,false,true,[]⟩ := by
  unfold parseBody
  rw [if_neg (by decide),if_pos rfl]
  exact bare_ok

/-- A data packet is the blocks it announces, to the last byte. -/
theorem parseBody_data (hlen : 20≤d.length) (h0 : count≠0) (hF : count≠0xFFFF) :
    parseBody d session first count=.ok p ↔
      first.toNat+count.toNat-1≤2^64-1 ∧ ∃ payloads, payloads.length=count.toNat ∧
        d.drop 20=payloads.flatMap block ∧ (∀ m∈payloads, m.length<65536) ∧
        p=⟨session,first,count,false,false,numbered first 0 payloads⟩ := by
  unfold parseBody
  rw [if_neg h0,if_neg hF]
  constructor
  · intro h
    by_cases hg : first>sequenceMax-(count-1).toUInt64
    · rw [if_pos hg] at h
      cases h
    · rw [if_neg hg] at h
      obtain ⟨⟨ms,off⟩,hms,h⟩ := bind_eq_ok.mp h
      obtain ⟨payloads,hn,hpl,hdrop,hle,hoff,rfl⟩ := (parseMessages_ok hlen).mp hms
      dsimp only at h
      by_cases hl : off=d.length
      · rw [if_neg (not_not.mpr hl)] at h
        exact ⟨not_not.mp ((not_congr (overflow_guard h0)).mp hg),payloads,hn,
          by simpa [hl] using hdrop,hpl,(Except.ok.inj h).symm⟩
      · rw [if_pos hl] at h
        cases h
  · rintro ⟨hseq,payloads,hn,hd,hpl,rfl⟩
    have hl := congrArg List.length hd
    rw [List.length_drop] at hl
    rw [if_neg ((not_congr (overflow_guard h0)).mpr (not_not.mpr hseq))]
    refine bind_eq_ok.mpr ⟨(numbered first 0 payloads,d.length),
      (parseMessages_ok hlen).mpr ⟨payloads,hn,hpl,by simp [hd],le_rfl,by omega,rfl⟩,?_⟩
    dsimp only
    rw [if_neg (not_not.mpr rfl)]
    rfl

theorem parseBody_ok (hlen : 20≤d.length) :
    parseBody d session first count=.ok p ↔
      p.session=session ∧ p.firstSequence=first ∧ p.messageCount=count ∧
        ∃ payloads, d.drop 20=payloads.flatMap block ∧ (∀ m∈payloads, m.length<65536) ∧
          p.messages=numbered first 0 payloads ∧ KindOk p payloads := by
  have hdrop : d.drop 20=[] ↔ d.length=20 := by
    rw [List.drop_eq_nil_iff]
    omega
  constructor
  · intro h
    by_cases h0 : count=0
    · subst h0
      obtain ⟨hl,rfl⟩ := parseBody_heartbeat.mp h
      exact ⟨rfl,rfl,rfl,[],hdrop.mpr hl,by simp,rfl,.inl ⟨rfl,rfl,rfl,rfl⟩⟩
    · by_cases hF : count=0xFFFF
      · subst hF
        obtain ⟨hl,rfl⟩ := parseBody_end.mp h
        exact ⟨rfl,rfl,rfl,[],hdrop.mpr hl,by simp,rfl,.inr (.inl ⟨rfl,rfl,rfl,rfl⟩)⟩
      · obtain ⟨hseq,payloads,hn,hd,hpl,rfl⟩ := (parseBody_data hlen h0 hF).mp h
        have hpos : count.toNat≠0 := fun h => h0 (UInt16.toNat_inj.mp h)
        have hne : count.toNat≠0xFFFF := fun h => hF (UInt16.toNat_inj.mp h)
        have hlt := count.toNat_lt
        exact ⟨rfl,rfl,rfl,payloads,hd,hpl,rfl,
          .inr (.inr ⟨by dsimp only; omega,by dsimp only; omega,hn,hseq,rfl,rfl⟩)⟩
  · obtain ⟨session',first',count',heartbeat,eos,messages⟩ := p
    dsimp only
    rintro ⟨rfl,rfl,rfl,payloads,hd,hpl,rfl,hk⟩
    obtain ⟨rfl,rfl,rfl,rfl⟩ | ⟨rfl,rfl,rfl,rfl⟩ | ⟨h1,h2,hn,hseq,rfl,rfl⟩ := hk
    · exact parseBody_heartbeat.mpr ⟨hdrop.mp hd,rfl⟩
    · exact parseBody_end.mpr ⟨hdrop.mp hd,rfl⟩
    · have h0 : count'≠0 := fun h => by
        subst h
        cases h1
      have hF : count'≠0xFFFF := fun h => by
        subst h
        exact absurd h2 (by decide : ¬(0xFFFF : UInt16).toNat≤0xFFFE)
      exact (parseBody_data hlen h0 hF).mpr ⟨hseq,payloads,hn,hd,hpl,rfl⟩

end Body

theorem parseDownstream_ok {p : MoldDownstreamPacket} :
    parseDownstream d=.ok p ↔ ∃ payloads,
      d=frame p.session p.firstSequence p.messageCount payloads ∧
        (∀ m∈payloads, m.length<65536) ∧ p.messages=numbered p.firstSequence 0 payloads ∧
        KindOk p payloads := by
  simp only [parseDownstream,bind_eq_ok,requireBytes_ok]
  constructor
  · rintro ⟨_,hlen,first,hf,count,hc,hbody⟩
    obtain ⟨hs,rfl,rfl,payloads,hd,hpl,hm,hk⟩ := (parseBody_ok hlen).mp hbody
    exact ⟨payloads,header_ok.mpr ⟨hlen,hs.symm,hf,hc,hd⟩,hpl,hm,hk⟩
  · rintro ⟨payloads,hd,hpl,hm,hk⟩
    obtain ⟨hlen,hs,hf,hc,hrest⟩ := header_ok.mp hd
    exact ⟨(),hlen,_,hf,_,hc,(parseBody_ok hlen).mpr
      ⟨hs.symm,rfl,rfl,payloads,hrest,hpl,hm,hk⟩⟩

/-- A computation whose only failures are decode errors. -/
def OnlyDecodeErrors {α : Type} (x : Except Thrown α) : Prop :=
  ∀ e, x=.error e → ∃ what, e=.decodeError what

namespace OnlyDecodeErrors
variable {α β : Type}

theorem bind {x : Except Thrown α} {f : α → Except Thrown β} (hx : OnlyDecodeErrors x)
    (hf : ∀ a, OnlyDecodeErrors (f a)) : OnlyDecodeErrors (x>>=f) := by
  intro e he
  cases x with
  | error e' => exact hx e (by simpa [Bind.bind,Except.bind] using he)
  | ok a => exact hf a e he

theorem ok (a : α) : OnlyDecodeErrors (.ok a : Except Thrown α) := by
  intro e he
  cases he

theorem error (what : String) :
    OnlyDecodeErrors (.error (.decodeError what) : Except Thrown α) := by
  rintro e ⟨⟩
  exact ⟨what,rfl⟩

theorem ite {c : Prop} [Decidable c] {x y : Except Thrown α} (hx : OnlyDecodeErrors x)
    (hy : OnlyDecodeErrors y) : OnlyDecodeErrors (if c then x else y) := by
  split_ifs <;> assumption

theorem require (offset width : Nat) : OnlyDecodeErrors (requireBytes d offset width) :=
  ite (error _) (ok _)

theorem messages (n i offset : Nat) : OnlyDecodeErrors (parseMessages d first n i offset) := by
  induction n generalizing i offset with
  | zero => exact ok _
  | succ n ih =>
    exact (require _ _).bind fun _ => ((require _ _).bind fun _ => ok _).bind fun _ =>
      (require _ _).bind fun _ => (ih _ _).bind fun _ => ok _

theorem downstream (d : Bytes) : OnlyDecodeErrors (parseDownstream d) := by
  refine (require _ _).bind fun _ => ((require _ _).bind fun _ => ok _).bind fun _ =>
    ((require _ _).bind fun _ => ok _).bind fun count => ?_
  refine ite (ite (error _) (ok _)) (ite (ite (error _) (ok _)) (ite (error _) ?_))
  exact (messages _ _ _).bind fun _ => ite (error _) (ok _)

end OnlyDecodeErrors

end MoldUdp64
end MarketWire
