import MarketWire.SampleMessages

/-! The EFC2 capture format: records appended to a file and read back from it. A file is its
bytes; the streams store and return them faithfully. -/
namespace MarketWire
open Library

def kMaxCaptureDatagramSize : Nat := 65535

structure CaptureRecord where
  monotonicNs : UInt64
  datagram : Bytes
  deriving DecidableEq, Repr

structure CaptureWriter where
  out : Bytes
  deriving DecidableEq, Repr

namespace CaptureWriter

def create : CaptureWriter := ⟨text "EFC2"⟩

def writeU32 (w : CaptureWriter) (v : UInt32) : CaptureWriter :=
  ⟨w.out++[(v>>>24).toUInt8,(v>>>16).toUInt8,(v>>>8).toUInt8,v.toUInt8]⟩

def writeU64 (w : CaptureWriter) (v : UInt64) : CaptureWriter :=
  ⟨w.out++(List.range 8).map fun j => ((v>>>UInt64.ofNat ((7-j)*8))&&&0xFF).toUInt8⟩

def write (w : CaptureWriter) (ns : UInt64) (d : Bytes) : Except Thrown CaptureWriter :=
  if d.length>kMaxCaptureDatagramSize then .error (.runtimeError "capture datagram too large")
  else .ok ⟨((w.writeU64 ns).writeU32 (UInt32.ofNat d.length)).out++d⟩

end CaptureWriter

/-- A reader is what is left of the file. -/
structure CaptureReader where
  rest : Bytes
  deriving DecidableEq, Repr

namespace CaptureReader

def create (file : Bytes) : Except Thrown CaptureReader :=
  if file.length<4 ∨ file.take 4≠text "EFC2" then .error (.runtimeError "not an EFC2 capture")
  else .ok ⟨file.drop 4⟩

def readU32 (r : CaptureReader) : Except Thrown (UInt32×CaptureReader) :=
  if r.rest.length<4 then .error (.runtimeError "truncated capture length")
  else
    let b (i : Nat) := (byteAt r.rest i).toUInt32
    .ok ((b 0<<<24)|||(b 1<<<16)|||(b 2<<<8)|||b 3,⟨r.rest.drop 4⟩)

def readU64 (r : CaptureReader) : Except Thrown (UInt64×CaptureReader) :=
  if r.rest.length<8 then .error (.runtimeError "truncated capture timestamp")
  else .ok (accumulate r.rest 0 8,⟨r.rest.drop 8⟩)

def next (r : CaptureReader) : Except Thrown (Option (CaptureRecord×CaptureReader)) :=
  if r.rest=[] then .ok none
  else do
    let (ns,r) ← r.readU64
    let (len,r) ← r.readU32
    if len.toNat>kMaxCaptureDatagramSize then
      .error (.runtimeError "capture datagram length exceeds limit")
    else if r.rest.length<len.toNat then .error (.runtimeError "truncated capture payload")
    else .ok (some (⟨ns,r.rest.take len.toNat⟩,⟨r.rest.drop len.toNat⟩))

end CaptureReader

/-- The bytes of a record. -/
def CaptureRecord.encode (r : CaptureRecord) : Bytes :=
  beEncode 8 r.monotonicNs.toNat++beEncode 4 r.datagram.length++r.datagram

theorem u64_masked (v : UInt64) :
    ((List.range 8).map fun j => ((v>>>UInt64.ofNat ((7-j)*8))&&&0xFF).toUInt8)=
      beEncode 8 v.toNat := by
  simp only [toUInt8_low,u64_bytes]

theorem CaptureWriter.write_eq (w : CaptureWriter) {ns : UInt64} {d : Bytes}
    (h : d.length≤kMaxCaptureDatagramSize) :
    w.write ns d=.ok ⟨w.out++CaptureRecord.encode ⟨ns,d⟩⟩ := by
  have hlen : (UInt32.ofNat d.length).toNat=d.length :=
    UInt32.toNat_ofNat_of_lt' (h.trans_lt (by decide))
  rw [write,if_neg (Nat.not_lt.mpr h),writeU64,writeU32,u64_masked,u32_bytes,hlen]
  simp only [CaptureRecord.encode,List.append_assoc]

theorem CaptureWriter.write_ok {w w' : CaptureWriter} {ns : UInt64} {d : Bytes}
    (h : w.write ns d=.ok w') :
    d.length≤kMaxCaptureDatagramSize ∧ w'=⟨w.out++CaptureRecord.encode ⟨ns,d⟩⟩ := by
  by_cases hd : d.length≤kMaxCaptureDatagramSize
  · rw [w.write_eq hd] at h
    cases h
    exact ⟨hd,rfl⟩
  · rw [write,if_pos (Nat.not_le.mp hd)] at h
    cases h

namespace CaptureReader

/-- A reader opens on exactly the files with the magic. -/
theorem create_ok {file : Bytes} {r : CaptureReader} :
    create file=.ok r ↔ file=text "EFC2"++r.rest := by
  have hmagic : (text "EFC2").length=4 := by decide
  unfold create
  constructor
  · intro h
    split_ifs at h with hbad
    cases h
    obtain ⟨-,ht⟩ := not_or.mp hbad
    rw [← not_not.mp ht,List.take_append_drop]
  · rintro rfl
    rw [List.take_left' hmagic,List.drop_left' hmagic,if_neg]
    rw [List.length_append,hmagic]
    simp

theorem readU64_length {r r' : CaptureReader} {v : UInt64} (h : r.readU64=.ok (v,r')) :
    r'.rest.length+8=r.rest.length := by
  unfold readU64 at h
  split_ifs at h with hs
  cases h
  rw [List.length_drop]
  omega

theorem readU32_length {r r' : CaptureReader} {v : UInt32} (h : r.readU32=.ok (v,r')) :
    r'.rest.length+4=r.rest.length := by
  unfold readU32 at h
  split_ifs at h with hs
  cases h
  rw [List.length_drop]
  omega

/-- Every record consumes input. -/
theorem next_length {reader reader' : CaptureReader} {r : CaptureRecord}
    (h : reader.next=.ok (some (r,reader'))) : reader'.rest.length<reader.rest.length := by
  rw [next] at h
  split_ifs at h with he
  · cases h
  · obtain ⟨⟨ns,r1⟩,h1,h⟩ := bind_eq_ok.mp h
    obtain ⟨⟨len,r2⟩,h2,h⟩ := bind_eq_ok.mp h
    have l1 := readU64_length h1
    have l2 := readU32_length h2
    dsimp only at h
    split_ifs at h with hl hp
    cases h
    rw [List.length_drop]
    omega

theorem readU64_append (v : UInt64) (rest : Bytes) :
    readU64 ⟨beEncode 8 v.toNat++rest⟩=.ok (v,⟨rest⟩) := by
  have hlen : 8≤(beEncode 8 v.toNat++rest).length := by simp
  have hv : readU64Be (beEncode 8 v.toNat++rest) 0=.ok v := readU64Be_ok.mpr
    ⟨by omega,slice_middle [] (by rw [List.nil_append]) rfl (by simp)⟩
  have hacc : accumulate (beEncode 8 v.toNat++rest) 0 8=v := by
    rw [readU64Be,requireBytes_eq,if_pos (by omega)] at hv
    exact Except.ok.inj hv
  rw [readU64,if_neg (by dsimp only; omega)]
  dsimp only
  rw [hacc,List.drop_left' (by simp)]

theorem readU32_append (v : UInt32) (rest : Bytes) :
    readU32 ⟨beEncode 4 v.toNat++rest⟩=.ok (v,⟨rest⟩) := by
  have hlen : 4≤(beEncode 4 v.toNat++rest).length := by simp
  have hv : readU32Be (beEncode 4 v.toNat++rest) 0=.ok v := readU32Be_ok.mpr
    ⟨by omega,slice_middle [] (by rw [List.nil_append]) rfl (by simp)⟩
  rw [readU32Be,requireBytes_eq,if_pos (by omega)] at hv
  rw [readU32,if_neg (by dsimp only; omega)]
  dsimp only
  rw [show _ = v from Except.ok.inj hv,List.drop_left' (by simp)]

/-- A record comes back as it was written. -/
theorem next_encode {r : CaptureRecord} (h : r.datagram.length≤kMaxCaptureDatagramSize)
    (rest : Bytes) : next ⟨r.encode++rest⟩=.ok (some (r,⟨rest⟩)) := by
  have hlen : (UInt32.ofNat r.datagram.length).toNat=r.datagram.length :=
    UInt32.toNat_ofNat_of_lt' (h.trans_lt (by decide))
  have he : r.encode++rest=beEncode 8 r.monotonicNs.toNat++
      (beEncode 4 (UInt32.ofNat r.datagram.length).toNat++(r.datagram++rest)) := by
    rw [hlen,CaptureRecord.encode]
    simp only [List.append_assoc]
  have hne : r.encode++rest≠[] := fun hn => by
    have hl := congrArg List.length hn
    simp [CaptureRecord.encode] at hl
  rw [next,if_neg hne,he,readU64_append]
  dsimp only [bind,Except.bind]
  rw [readU32_append]
  dsimp only
  rw [hlen,if_neg (Nat.not_lt.mpr h),if_neg (by simp),List.take_left,List.drop_left]

end CaptureReader

end MarketWire
