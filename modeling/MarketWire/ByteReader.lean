import MarketWire.Types
import MarketWire.Library.BigEndian
import MarketWire.Library.Outcome
import Mathlib.Tactic.Linarith
import Mathlib.Tactic.Ring

/-! Bounds-checked big-endian reads, with the shifts and ors of the source, and what they
compute: the base-256 number of their bytes. -/
namespace MarketWire
open Library

def truncated : Thrown := .decodeError "truncated binary message"

def requireBytes (bytes : Bytes) (offset width : Nat) : Except Thrown Unit :=
  if offset>bytes.length ∨ width>bytes.length-offset then .error truncated else .ok ()

def byteAt (bytes : Bytes) (i : Nat) : UInt8 := bytes.getD i 0

def readU8 (bytes : Bytes) (offset : Nat) : Except Thrown UInt8 := do
  requireBytes bytes offset 1
  return byteAt bytes offset

def readU16Be (bytes : Bytes) (offset : Nat) : Except Thrown UInt16 := do
  requireBytes bytes offset 2
  return ((byteAt bytes offset).toUInt16<<<8)|||(byteAt bytes (offset+1)).toUInt16

def readU32Be (bytes : Bytes) (offset : Nat) : Except Thrown UInt32 := do
  requireBytes bytes offset 4
  return ((byteAt bytes offset).toUInt32<<<24)|||((byteAt bytes (offset+1)).toUInt32<<<16)|||
    ((byteAt bytes (offset+2)).toUInt32<<<8)|||(byteAt bytes (offset+3)).toUInt32

/-- The accumulating loop of `read_u48_be` and `read_u64_be`. -/
def accumulate (bytes : Bytes) (offset width : Nat) : UInt64 :=
  (List.range width).foldl
    (fun value i => (value<<<8)|||(byteAt bytes (offset+i)).toUInt64) 0

def readU48Be (bytes : Bytes) (offset : Nat) : Except Thrown UInt64 := do
  requireBytes bytes offset 6
  return accumulate bytes offset 6

def readU64Be (bytes : Bytes) (offset : Nat) : Except Thrown UInt64 := do
  requireBytes bytes offset 8
  return accumulate bytes offset 8

def readChar (bytes : Bytes) (offset : Nat) : Except Thrown UInt8 := readU8 bytes offset

def readAsciiView (bytes : Bytes) (offset width : Nat) : Except Thrown Bytes := do
  requireBytes bytes offset width
  return slice bytes offset width

def shortBuffer : Thrown := .decodeError "short output buffer"

def writeU16Be (bytes : Bytes) (offset : Nat) (value : UInt16) : Except Thrown Bytes :=
  if offset>bytes.length ∨ 2>bytes.length-offset then .error shortBuffer
  else .ok ((bytes.set offset ((value>>>8)&&&0xFF).toUInt8).set (offset+1) (value&&&0xFF).toUInt8)

def writeU64Be (bytes : Bytes) (offset : Nat) (value : UInt64) : Except Thrown Bytes :=
  if offset>bytes.length ∨ 8>bytes.length-offset then .error shortBuffer
  else .ok ((List.range 8).foldl
    (fun b j => b.set (offset+j) ((value>>>UInt64.ofNat ((7-j)*8))&&&0xFF).toUInt8) bytes)

variable {bytes : Bytes} {offset : Nat}

theorem requireBytes_eq (bytes : Bytes) (offset width : Nat) :
    requireBytes bytes offset width=
      if offset+width≤bytes.length then .ok () else .error truncated := by
  unfold requireBytes
  by_cases h : offset+width≤bytes.length
  · rw [if_pos h,if_neg (by omega)]
  · rw [if_neg h,if_pos (by omega)]

/-- The checked bytes, one by one. -/
theorem map_byteAt {width : Nat} (h : offset+width≤bytes.length) :
    (List.range width).map (fun i => byteAt bytes (offset+i))=slice bytes offset width := by
  refine List.ext_getElem (by rw [slice_length bytes h]; simp) fun i h1 h2 => ?_
  have hi : i<width := by simpa using h1
  have hlt : offset+i<bytes.length := by omega
  simp [slice,byteAt,List.getElem?_eq_getElem hlt]

theorem slice_one (h : offset+1≤bytes.length) : slice bytes offset 1=[byteAt bytes offset] := by
  rw [← map_byteAt h]
  rfl

theorem slice_two (h : offset+2≤bytes.length) :
    slice bytes offset 2=[byteAt bytes offset,byteAt bytes (offset+1)] := by
  rw [← map_byteAt h]
  rfl

theorem slice_four (h : offset+4≤bytes.length) :
    slice bytes offset 4=[byteAt bytes offset,byteAt bytes (offset+1),byteAt bytes (offset+2),
      byteAt bytes (offset+3)] := by
  rw [← map_byteAt h]
  rfl

/-- What a checked read of `width` bytes returns. -/
def readBe (bytes : Bytes) (offset width : Nat) : Except Thrown Nat :=
  if offset+width≤bytes.length then .ok (beNat (slice bytes offset width)) else .error truncated

theorem readU8_eq : readU8 bytes offset=(readBe bytes offset 1).map UInt8.ofNat := by
  rw [readU8,requireBytes_eq,readBe]
  split_ifs with h
  · rw [slice_one h]
    simp [beNat,Except.map]
  · rfl

theorem readU16Be_eq : readU16Be bytes offset=(readBe bytes offset 2).map UInt16.ofNat := by
  rw [readU16Be,requireBytes_eq,readBe]
  split_ifs with h
  · rw [slice_two h]
    refine congrArg Except.ok ?_
    have h0 := (byteAt bytes offset).toNat_lt
    have h1 := (byteAt bytes (offset+1)).toNat_lt
    rw [← UInt16.toNat_inj,UInt16.toNat_or,UInt16.toNat_shiftLeft,UInt8.toNat_toUInt16,
      UInt8.toNat_toUInt16,UInt16.toNat_ofNat',show (8 : UInt16).toNat%16=8 from rfl,
      Nat.mod_eq_of_lt (by rw [Nat.shiftLeft_eq]; omega),shift_or_byte]
    simp only [beNat,List.foldl_cons,List.foldl_nil]
    omega
  · rfl

theorem readU32Be_eq : readU32Be bytes offset=(readBe bytes offset 4).map UInt32.ofNat := by
  rw [readU32Be,requireBytes_eq,readBe]
  split_ifs with h
  · rw [slice_four h]
    refine congrArg Except.ok ?_
    have h0 := (byteAt bytes offset).toNat_lt
    have h1 := (byteAt bytes (offset+1)).toNat_lt
    have h2 := (byteAt bytes (offset+2)).toNat_lt
    have h3 := (byteAt bytes (offset+3)).toNat_lt
    generalize byteAt bytes offset=b0 at *
    generalize byteAt bytes (offset+1)=b1 at *
    generalize byteAt bytes (offset+2)=b2 at *
    generalize byteAt bytes (offset+3)=b3 at *
    have hn : b0.toNat<<<24|||b1.toNat<<<16|||b2.toNat<<<8|||b3.toNat=
        ((b0.toNat*256+b1.toNat)*256+b2.toNat)*256+b3.toNat := by
      rw [← shift_or_byte,← shift_or_byte,← shift_or_byte,Nat.shiftLeft_or_distrib,
        Nat.shiftLeft_or_distrib,Nat.shiftLeft_or_distrib,← Nat.shiftLeft_add,
        ← Nat.shiftLeft_add,← Nat.shiftLeft_add]
    rw [← UInt32.toNat_inj,UInt32.toNat_ofNat']
    simp only [UInt32.toNat_or,UInt32.toNat_shiftLeft,UInt8.toNat_toUInt32]
    rw [show (24 : UInt32).toNat%32=24 from rfl,show (16 : UInt32).toNat%32=16 from rfl,
      show (8 : UInt32).toNat%32=8 from rfl,
      Nat.mod_eq_of_lt (show b0.toNat<<<24<2^32 by rw [Nat.shiftLeft_eq]; omega),
      Nat.mod_eq_of_lt (show b1.toNat<<<16<2^32 by rw [Nat.shiftLeft_eq]; omega),
      Nat.mod_eq_of_lt (show b2.toNat<<<8<2^32 by rw [Nat.shiftLeft_eq]; omega),hn]
    simp only [beNat,List.foldl_cons,List.foldl_nil]
    omega
  · rfl

/-- The loop keeps the number read so far; eight bytes never overflow it. -/
theorem foldl_accumulate (l : List UInt8) (v : UInt64)
    (h : v.toNat*256^l.length+beNat l<2^64) :
    (l.foldl (fun (value : UInt64) b => (value<<<8)|||b.toUInt64) v).toNat=
      v.toNat*256^l.length+beNat l := by
  induction l generalizing v with
  | nil => simp [beNat]
  | cons b rest ih =>
    rw [beNat_cons,List.length_cons,pow_succ] at h
    have hb := b.toNat_lt
    have hv : v.toNat*256+b.toNat<2^64 := by
      have hpos : 1≤256^rest.length := Nat.one_le_pow _ _ (by decide)
      nlinarith [Nat.zero_le (beNat rest),Nat.zero_le v.toNat,Nat.zero_le b.toNat]
    have hs : v.toNat<<<8<2^64 := 
      (Nat.shiftLeft_eq v.toNat 8).trans_lt (Nat.lt_of_le_of_lt (Nat.le_add_right _ _) hv)
    have hstep : ((v<<<8)|||b.toUInt64).toNat=v.toNat*256+b.toNat := by
      rw [UInt64.toNat_or,UInt64.toNat_shiftLeft,UInt8.toNat_toUInt64,
        show (8 : UInt64).toNat%64=8 from rfl,
        Nat.mod_eq_of_lt hs,shift_or_byte]
    rw [List.foldl_cons,ih _ (by rw [hstep]; linarith),hstep,beNat_cons,List.length_cons,pow_succ]
    ring

theorem accumulate_eq {width : Nat} (hw : width≤8) (h : offset+width≤bytes.length) :
    accumulate bytes offset width=UInt64.ofNat (beNat (slice bytes offset width)) := by
  have hlt : beNat (slice bytes offset width)<2^64 := by
    have hb := beNat_lt (slice bytes offset width)
    rw [slice_length bytes h] at hb
    exact hb.trans_le ((Nat.pow_le_pow_right (by decide) hw).trans (by decide))
  have hf : accumulate bytes offset width=(slice bytes offset width).foldl
      (fun (value : UInt64) b => (value<<<8)|||b.toUInt64) 0 := by
    rw [← map_byteAt h,List.foldl_map]
    rfl
  rw [hf,← UInt64.toNat_inj,foldl_accumulate _ 0 (by simpa using hlt),UInt64.toNat_ofNat_of_lt' hlt]
  simp

theorem readU48Be_eq : readU48Be bytes offset=(readBe bytes offset 6).map UInt64.ofNat := by
  rw [readU48Be,requireBytes_eq,readBe]
  split_ifs with h
  · rw [accumulate_eq (by decide) h]
    rfl
  · rfl

theorem readU64Be_eq : readU64Be bytes offset=(readBe bytes offset 8).map UInt64.ofNat := by
  rw [readU64Be,requireBytes_eq,readBe]
  split_ifs with h
  · rw [accumulate_eq (by decide) h]
    rfl
  · rfl

/-- A checked read inside the buffer succeeds. -/
theorem readBe_isOk {α : Type} {width : Nat} {read : Except Thrown α} {f : Nat → α}
    (he : read=(readBe bytes offset width).map f) (h : offset+width≤bytes.length) :
    ∃ v, read=.ok v := by
  rw [he,readBe,if_pos h]
  exact ⟨_,rfl⟩

theorem readU16Be_isOk (bytes : Bytes) (offset : Nat) (h : offset+2≤bytes.length) :
    ∃ v, readU16Be bytes offset=.ok v :=
  readBe_isOk readU16Be_eq h

theorem readU32Be_isOk (bytes : Bytes) (offset : Nat) (h : offset+4≤bytes.length) :
    ∃ v, readU32Be bytes offset=.ok v :=
  readBe_isOk readU32Be_eq h

theorem readU48Be_isOk (bytes : Bytes) (offset : Nat) (h : offset+6≤bytes.length) :
    ∃ v, readU48Be bytes offset=.ok v :=
  readBe_isOk readU48Be_eq h

theorem readU64Be_isOk (bytes : Bytes) (offset : Nat) (h : offset+8≤bytes.length) :
    ∃ v, readU64Be bytes offset=.ok v :=
  readBe_isOk readU64Be_eq h

theorem readChar_eq (bytes : Bytes) (offset : Nat) (h : offset+1≤bytes.length) :
    readChar bytes offset=.ok (byteAt bytes offset) := by
  rw [readChar,readU8,requireBytes_eq,if_pos h]
  rfl

theorem readAsciiView_eq (bytes : Bytes) (offset width : Nat) (h : offset+width≤bytes.length) :
    readAsciiView bytes offset width=.ok (slice bytes offset width) := by
  rw [readAsciiView,requireBytes_eq,if_pos h]
  rfl

theorem requireBytes_ok {width : Nat} {u : Unit} :
    requireBytes bytes offset width=.ok u ↔ offset+width≤bytes.length := by
  rw [requireBytes_eq]
  split_ifs with h <;> simp [h]

/-- A read succeeds with the number that its bytes encode. -/
theorem readBe_ok {width v : Nat} : readBe bytes offset width=.ok v ↔
    offset+width≤bytes.length ∧ slice bytes offset width=beEncode width v ∧ v<256^width := by
  unfold readBe
  by_cases h : offset+width≤bytes.length
  · have hlt := beNat_lt (slice bytes offset width)
    have he := beEncode_beNat (slice bytes offset width)
    rw [slice_length bytes h] at hlt he
    simp only [h,if_true,true_and,Except.ok.injEq]
    constructor
    · rintro rfl
      exact ⟨he.symm,hlt⟩
    · rintro ⟨hs,hv⟩
      rw [hs,beNat_beEncode,Nat.mod_eq_of_lt hv]
  · simp [h]

/-- A read into a type that holds every number of its width. -/
theorem readBe_map_ok {α : Type} {width : Nat} {ofNat : Nat → α} {toNat : α → Nat} {v : α}
    (hto : ∀ n<256^width, toNat (ofNat n)=n) (hof : ∀ a, ofNat (toNat a)=a) :
    (readBe bytes offset width).map ofNat=.ok v ↔ offset+width≤bytes.length ∧
      slice bytes offset width=beEncode width (toNat v) ∧ toNat v<256^width := by
  rw [map_eq_ok]
  simp only [readBe_ok]
  constructor
  · rintro ⟨n,⟨h,hs,hn⟩,rfl⟩
    rw [hto n hn]
    exact ⟨h,hs,hn⟩
  · rintro ⟨h,hs,hn⟩
    exact ⟨toNat v,⟨h,hs,hn⟩,hof v⟩

theorem readU8_ok {v : UInt8} : readU8 bytes offset=.ok v ↔
    offset+1≤bytes.length ∧ slice bytes offset 1=beEncode 1 v.toNat := by
  rw [readU8_eq]
  exact (readBe_map_ok (fun n hn => UInt8.toNat_ofNat_of_lt' hn) fun a => UInt8.ofNat_toNat).trans
    (and_congr_right fun _ => and_iff_left v.toNat_lt)

theorem readU16Be_ok {v : UInt16} : readU16Be bytes offset=.ok v ↔
    offset+2≤bytes.length ∧ slice bytes offset 2=beEncode 2 v.toNat := by
  rw [readU16Be_eq]
  exact (readBe_map_ok (fun n hn => UInt16.toNat_ofNat_of_lt' hn) fun a => UInt16.ofNat_toNat).trans
    (and_congr_right fun _ => and_iff_left v.toNat_lt)

theorem readU32Be_ok {v : UInt32} : readU32Be bytes offset=.ok v ↔
    offset+4≤bytes.length ∧ slice bytes offset 4=beEncode 4 v.toNat := by
  rw [readU32Be_eq]
  exact (readBe_map_ok (fun n hn => UInt32.toNat_ofNat_of_lt' hn) fun a => UInt32.ofNat_toNat).trans
    (and_congr_right fun _ => and_iff_left v.toNat_lt)

/-- A 48-bit number is returned in 64 bits. -/
theorem readU48Be_ok {v : UInt64} : readU48Be bytes offset=.ok v ↔
    offset+6≤bytes.length ∧ slice bytes offset 6=beEncode 6 v.toNat ∧ v.toNat<2^48 := by
  rw [readU48Be_eq]
  exact readBe_map_ok (fun n hn => UInt64.toNat_ofNat_of_lt' (hn.trans (by decide))) fun a =>
    UInt64.ofNat_toNat

theorem readU64Be_ok {v : UInt64} : readU64Be bytes offset=.ok v ↔
    offset+8≤bytes.length ∧ slice bytes offset 8=beEncode 8 v.toNat := by
  rw [readU64Be_eq]
  exact (readBe_map_ok (fun n hn => UInt64.toNat_ofNat_of_lt' hn) fun a => UInt64.ofNat_toNat).trans
    (and_congr_right fun _ => and_iff_left v.toNat_lt)

end MarketWire
