import MarketWire.MoldFraming

/-! The packet encoder of the demo and capture commands, and the two round trips with
the parser. -/
namespace MarketWire
open Library

/-- Consecutive assignments replace the bytes behind a prefix. -/
theorem putBytes_append (done rest xs : Bytes) (h : xs.length≤rest.length) :
    putBytes (done++rest) done.length xs=done++(xs++rest.drop xs.length) := by
  induction xs generalizing done rest with
  | nil => simp [putBytes]
  | cons x xs ih =>
    cases rest with
    | nil => simp at h
    | cons y rest =>
      have hset : (done++y::rest).set done.length x=(done++[x])++rest := by simp
      have hlen : done.length+1=(done++[x]).length := by simp
      rw [putBytes,hset,hlen,ih _ _ (by simpa using h)]
      simp

theorem beEncode_two (n : Nat) : beEncode 2 (UInt16.ofNat n).toNat=beEncode 2 n := by
  rw [UInt16.toNat_ofNat']
  exact beEncode_mod 2 n 2 le_rfl

theorem putU16_append (done rest : Bytes) (n : Nat) (h : 2≤rest.length) :
    putU16 (done++rest) done.length (UInt16.ofNat n)=done++(beEncode 2 n++rest.drop 2) := by
  have hp := putBytes_append done rest (beEncode 2 n) (by simpa using h)
  rwa [putU16,u16_bytes,beEncode_two,length_beEncode] at *

theorem putU64_append (done rest : Bytes) (v : UInt64) (h : 8≤rest.length) :
    putU64 (done++rest) done.length v=done++(beEncode 8 v.toNat++rest.drop 8) := by
  have hp := putBytes_append done rest (beEncode 8 v.toNat) (by simpa using h)
  rwa [putU64,u64_bytes,length_beEncode] at *

/-- The message loop fills the buffer with the blocks. -/
theorem putMessages_append (done rest : Bytes) (messages : List Bytes)
    (h : rest.length=(messages.flatMap block).length) :
    putMessages (done++rest) done.length messages=done++messages.flatMap block := by
  induction messages generalizing done rest with
  | nil =>
    obtain rfl := List.eq_nil_of_length_eq_zero h
    simp [putMessages]
  | cons m messages ih =>
    rw [List.flatMap_cons,List.length_append,block,List.length_append,length_beEncode] at h
    have h2 : done.length+2=(done++beEncode 2 m.length).length := by simp
    have h3 : done.length+2+m.length=(done++beEncode 2 m.length++m).length := by simp; omega
    rw [putMessages,putU16_append done rest m.length (by omega),h3,h2,← List.append_assoc,
      putBytes_append _ _ m (by rw [List.length_drop]; omega),List.drop_drop,← List.append_assoc,
      ih _ _ (by rw [List.length_drop]; omega)]
    simp [block]

theorem foldl_size (messages : List Bytes) (n : Nat) :
    messages.foldl (fun size m => size+(2+m.length)) n=n+(messages.flatMap block).length := by
  induction messages generalizing n with
  | nil => simp
  | cons m messages ih =>
    rw [List.foldl_cons,ih,List.flatMap_cons,List.length_append,block,List.length_append,
      length_beEncode]
    omega

/-- The encoder writes header and blocks. -/
theorem moldPacket_eq (session : Bytes) (first : Sequence) (messages : List Bytes) :
    moldPacket session first messages=
      frame (MoldUdp64.sessionFromString session) first (UInt16.ofNat messages.length) messages := by
  set pad : Bytes := (List.range 10).map fun i =>
    if i<session.length then byteAt session i else 0x20 with hpad
  have hpadLen : pad.length=10 := by simp [hpad]
  have hsession : (MoldUdp64.sessionFromString session).toList=pad := by
    refine List.ext_getElem (by simp [hpadLen]) fun i h1 h2 => ?_
    have hi : i<10 := by simpa using h1
    simp [MoldUdp64.sessionFromString,hpad]
  have h18 : (18 : Nat)=(pad++beEncode 8 first.toNat).length := by simp [hpadLen]
  have h20 : (20 : Nat)=(pad++beEncode 8 first.toNat++beEncode 2 messages.length).length := by
    simp [hpadLen]
  set size := (messages.flatMap block).length with hsize
  have h1 : putBytes (List.replicate (20+size) 0) 0 pad=pad++List.replicate (10+size) 0 := by
    have hp := putBytes_append [] (List.replicate (20+size) 0) pad (by simp [hpadLen]; omega)
    rw [List.nil_append,List.length_nil,List.nil_append,hpadLen,List.drop_replicate] at hp
    rw [hp,show 20+size-10=10+size by omega]
  have h2 : putU64 (pad++List.replicate (10+size) 0) 10 first=
      pad++beEncode 8 first.toNat++List.replicate (2+size) 0 := by
    have hp := putU64_append pad (List.replicate (10+size) 0) first (by simp; omega)
    rw [hpadLen,List.drop_replicate] at hp
    rw [hp,show 10+size-8=2+size by omega,List.append_assoc]
  have h3 := putU16_append (pad++beEncode 8 first.toNat) (List.replicate (2+size) 0)
    messages.length (by simp)
  rw [← h18,List.drop_replicate,Nat.add_sub_cancel_left,← List.append_assoc] at h3
  have h4 := putMessages_append (pad++beEncode 8 first.toNat++beEncode 2 messages.length)
    (List.replicate size 0) messages (by simp [hsize])
  rw [← h20] at h4
  rw [moldPacket,foldl_size,frame,hsession,beEncode_two,h1,h2,h3,h4]
  simp

section Write
variable {bytes : Bytes} {offset : Nat}

theorem writeU16Be_eq (h : offset+2≤bytes.length) (v : UInt16) :
    writeU16Be bytes offset v=.ok (putU16 bytes offset v) := by
  have hlow (x : UInt16) : (x&&&0xFF).toUInt8=x.toUInt8 := by
    rw [← UInt8.toNat_inj,UInt16.toNat_toUInt8,UInt16.toNat_toUInt8,UInt16.toNat_and]
    exact congrArg (·%2^8) (Nat.and_two_pow_sub_one_eq_mod x.toNat 8) |>.trans (Nat.mod_mod _ _)
  rw [writeU16Be,if_neg (by omega),hlow,hlow]
  rfl

theorem writeU64Be_eq (h : offset+8≤bytes.length) (v : UInt64) :
    writeU64Be bytes offset v=.ok (putU64 bytes offset v) := by
  rw [writeU64Be,if_neg (by omega)]
  simp only [toUInt8_low]
  rfl

end Write

namespace MoldUdp64

/-- A rerequest with a valid count is the header of a packet. -/
theorem encodeRequest_eq {q : MoldRequest} (h0 : q.messageCount≠0) (h1 : q.messageCount≠0xFFFF) :
    encodeRequest q=.ok (q.session.toList++(beEncode 8 q.firstSequence.toNat++
      beEncode 2 q.messageCount.toNat)) := by
  have hlen : q.session.toList.length=10 := by simp
  have h64 := putU64_append q.session.toList (List.replicate 10 0) q.firstSequence (by simp)
  rw [hlen] at h64
  have h16 := putU16_append (q.session.toList++beEncode 8 q.firstSequence.toNat)
    (List.replicate 2 0) q.messageCount.toNat (by simp)
  rw [List.length_append,hlen,length_beEncode,UInt16.ofNat_toNat,List.append_assoc] at h16
  rw [encodeRequest,if_neg (not_or.mpr ⟨h0,h1⟩)]
  refine bind_eq_ok.mpr ⟨_,writeU64Be_eq (by simp) _,?_⟩
  rw [h64,writeU16Be_eq (by simp),show (List.replicate 10 (0 : UInt8)).drop 8=List.replicate 2 0 from rfl,
    h16]
  simp

/-- The fields of a rerequest are read back from its bytes. -/
theorem encodeRequest_fields {q : MoldRequest} (h0 : q.messageCount≠0)
    (h1 : q.messageCount≠0xFFFF) : ∃ out, encodeRequest q=.ok out ∧ out.length=20 ∧
      sessionAt out=q.session ∧ readU64Be out 10=.ok q.firstSequence ∧
      readU16Be out 18=.ok q.messageCount := by
  refine ⟨_,encodeRequest_eq h0 h1,by simp,?_⟩
  obtain ⟨-,hs,hf,hc,-⟩ := header_ok.mp (rfl : q.session.toList++(beEncode 8 q.firstSequence.toNat++
    (beEncode 2 q.messageCount.toNat++[]))=_)
  rw [List.append_nil] at hs hf hc
  exact ⟨hs,hf,hc⟩

/-- The format: a 20-byte header, then as many blocks as it announces; messages carry
consecutive sequence numbers that do not wrap. -/
def WellFramed (d : Bytes) (p : MoldDownstreamPacket) : Prop :=
  ∃ payloads : List Bytes, d=frame p.session p.firstSequence p.messageCount payloads ∧
    (∀ m∈payloads, m.length≤65535) ∧
    (p.messages.map fun m => (m.sequence.toNat,m.payload))=
      payloads.zipIdx.map (fun e => (p.firstSequence.toNat+e.2,e.1)) ∧
    KindOk p payloads

theorem numbered_map {first : Sequence} {i : Nat} {payloads : List Bytes}
    (h : first.toNat+i+payloads.length≤2^64) :
    ((numbered first i payloads).map fun m => (m.sequence.toNat,m.payload))=
      (payloads.zipIdx i).map fun e => (first.toNat+e.2,e.1) := by
  induction payloads generalizing i with
  | nil => rfl
  | cons m rest ih =>
    rw [List.length_cons] at h
    have hto : (first+UInt64.ofNat i).toNat=first.toNat+i := by
      rw [UInt64.toNat_add,UInt64.toNat_ofNat_of_lt' (by simp only [UInt64.size]; omega)]
      exact Nat.mod_eq_of_lt (by omega)
    rw [numbered,List.map_cons,List.zipIdx_cons,List.map_cons,ih (by omega),hto]

theorem kindOk_range {p : MoldDownstreamPacket} {payloads : List Bytes} (h : KindOk p payloads) :
    p.firstSequence.toNat+0+payloads.length≤2^64 := by
  have hf := p.firstSequence.toNat_lt
  rcases h with ⟨_,rfl,_⟩ | ⟨_,rfl,_⟩ | ⟨_,_,hn,hs,_⟩
  · exact hf.le
  · exact hf.le
  · omega

theorem wellFramed_iff {d : Bytes} {p : MoldDownstreamPacket} :
    parseDownstream d=.ok p ↔ WellFramed d p := by
  have hinj : Function.Injective fun m : MoldMessage => (m.sequence.toNat,m.payload) := by
    rintro ⟨s,m⟩ ⟨s',m'⟩ h
    simp only [Prod.mk.injEq] at h
    rw [UInt64.toNat_inj.mp h.1,h.2]
  rw [parseDownstream_ok]
  constructor
  · rintro ⟨payloads,hd,hpl,hm,hk⟩
    refine ⟨payloads,hd,fun m hmem => Nat.le_of_lt_succ (hpl m hmem),?_,hk⟩
    rw [hm]
    exact numbered_map (kindOk_range hk)
  · rintro ⟨payloads,hd,hpl,hm,hk⟩
    refine ⟨payloads,hd,fun m hmem => Nat.lt_succ_of_le (hpl m hmem),?_,hk⟩
    exact hinj.list_map (hm.trans (numbered_map (kindOk_range hk)).symm)

theorem numbered_payloads (first : Sequence) (i : Nat) (payloads : List Bytes) :
    (numbered first i payloads).map MoldMessage.payload=payloads := by
  induction payloads generalizing i with
  | nil => rfl
  | cons m rest ih => rw [numbered,List.map_cons,ih]

theorem sessionFromString_toList (session : Session) :
    sessionFromString session.toList=session := by
  refine Vector.ext fun i hi => ?_
  simp [sessionFromString,byteAt]

/-- Parsing an encoded packet. -/
theorem parse_moldPacket {session : Bytes} {first : Sequence} {payloads : List Bytes}
    (hn : payloads.length≤65534) (hpl : ∀ m∈payloads, m.length≤65535)
    (hs : first.toNat+payloads.length-1≤2^64-1) :
    parseDownstream (moldPacket session first payloads)=.ok
      { session := sessionFromString session
        firstSequence := first
        messageCount := UInt16.ofNat payloads.length
        heartbeat := payloads.isEmpty
        messages := numbered first 0 payloads } := by
  have hto : (UInt16.ofNat payloads.length).toNat=payloads.length :=
    UInt16.toNat_ofNat_of_lt' (by simp only [UInt16.size]; omega)
  rw [parseDownstream_ok]
  refine ⟨payloads,moldPacket_eq session first payloads,
    fun m hm => Nat.lt_succ_of_le (hpl m hm),rfl,?_⟩
  cases payloads with
  | nil => exact Or.inl ⟨rfl,rfl,rfl,rfl⟩
  | cons m rest =>
    refine Or.inr (Or.inr ⟨?_,?_,hto.symm,?_,rfl,rfl⟩)
    · rw [hto]
      exact Nat.succ_pos _
    · simpa only [hto] using hn
    · simpa only [hto] using hs

/-- Encoding a parsed packet. -/
theorem moldPacket_parse {d : Bytes} {p : MoldDownstreamPacket} (h : parseDownstream d=.ok p)
    (he : p.endOfSession=false) :
    moldPacket p.session.toList p.firstSequence (p.messages.map MoldMessage.payload)=d := by
  obtain ⟨payloads,rfl,_,hm,hk⟩ := parseDownstream_ok.mp h
  rw [hm,numbered_payloads,moldPacket_eq,sessionFromString_toList]
  have hcount : UInt16.ofNat payloads.length=p.messageCount := by
    rcases hk with ⟨hc,rfl,_⟩ | ⟨_,_,_,he'⟩ | ⟨_,_,hn,_⟩
    · rw [hc]
      rfl
    · rw [he] at he'
      cases he'
    · rw [hn,UInt16.ofNat_toNat]
  rw [hcount]

/-- The parser accepts exactly the format and otherwise reports a decode error; it inverts
the encoder, and the encoder inverts it on every packet but an end of session. -/
theorem framing_exact :
    (∀ d p, parseDownstream d=.ok p ↔ WellFramed d p) ∧
    (∀ d, (∃ p, WellFramed d p) ∨ ∃ what, parseDownstream d=.error (.decodeError what)) ∧
    (∀ (session : Bytes) (first : Sequence) (payloads : List Bytes), session.length≤10 →
      payloads.length≤65534 → (∀ m∈payloads, m.length≤65535) →
      first.toNat+payloads.length-1≤2^64-1 →
      ∃ p, parseDownstream (moldPacket session first payloads)=.ok p ∧
        p.session=sessionFromString session ∧ p.firstSequence=first ∧
        p.messages.map MoldMessage.payload=payloads ∧ p.endOfSession=false) ∧
    (∀ d p, parseDownstream d=.ok p → p.endOfSession=false →
      moldPacket p.session.toList p.firstSequence (p.messages.map MoldMessage.payload)=d) := by
  refine ⟨fun _ _ => wellFramed_iff,fun d => ?_,?_,fun _ _ => moldPacket_parse⟩
  · cases h : parseDownstream d with
    | ok p => exact Or.inl ⟨p,wellFramed_iff.mp h⟩
    | error e =>
      obtain ⟨what,rfl⟩ := OnlyDecodeErrors.downstream d e h
      exact Or.inr ⟨what,rfl⟩
  · intro session first payloads _ hn hpl hs
    exact ⟨_,parse_moldPacket hn hpl hs,rfl,rfl,numbered_payloads _ _ _,rfl⟩

/-- A two-message packet of session `DEMO`. -/
theorem framing_exact_demo :
    ∃ p, parseDownstream (moldPacket [0x44,0x45,0x4D,0x4F] 7 [[1,2],[]])=.ok p ∧
      p.messages.map MoldMessage.payload=[[1,2],[]] := by
  obtain ⟨p,hp,_,_,hm,_⟩ := framing_exact.2.2.1 [0x44,0x45,0x4D,0x4F] 7 [[1,2],[]]
    (by decide) (by decide) (by decide) (by decide)
  exact ⟨p,hp,hm⟩

end MoldUdp64
end MarketWire
