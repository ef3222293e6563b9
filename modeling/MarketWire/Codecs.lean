import MarketWire.CaptureFile

/-! The big-endian codecs of the three places that have their own: the checked readers and writers,
the encoders of the command line program, and those of the capture streams. All of them write and
read the same bytes. -/
namespace MarketWire
open Library

/-- The bounds check of every checked codec, in machine words. -/
def outOfBounds (size offset width : UInt64) : Bool := offset>size || width>size-offset

/-- A buffer after an encoder: the bytes of the value in their place, the others as before. -/
structure Encoded (width value offset : Nat) (before after : Bytes) : Prop where
  length : after.length=before.length
  inside : slice after offset width=beEncode width value
  outside : ∀ i, i<offset ∨ offset+width≤ i → after[i]?=before[i]?

section Families
variable {α : Type}

/-- A checked read of the base-256 number in `width` bytes. -/
def Reads (width : Nat) (toNat : α → Nat) (read : Bytes → Nat → Except Thrown α) : Prop :=
  ∀ b offset, if offset+width≤b.length
    then ∃ v, read b offset=.ok v ∧ toNat v=beNat (slice b offset width)
    else read b offset=.error truncated

/-- A checked write of a value into `width` bytes. -/
def Writes (width : Nat) (toNat : α → Nat) (write : Bytes → Nat → α → Except Thrown Bytes) :
    Prop :=
  ∀ b offset v, if offset+width≤b.length
    then ∃ b', write b offset v=.ok b' ∧ Encoded width (toNat v) offset b b'
    else write b offset v=.error shortBuffer

/-- An unchecked write into `width` bytes of a buffer that has them. -/
def Puts (width : Nat) (toNat : α → Nat) (put : Bytes → Nat → α → Bytes) : Prop :=
  ∀ b offset v, offset+width≤b.length → Encoded width (toNat v) offset b (put b offset v)

end Families

/-- No sum is formed, so nothing wraps. -/
theorem outOfBounds_eq_false (size offset width : UInt64) :
    outOfBounds size offset width=false ↔ offset.toNat+width.toNat≤ size.toNat := by
  unfold outOfBounds
  rw [Bool.or_eq_false_iff,decide_eq_false_iff_not,decide_eq_false_iff_not,UInt64.not_lt,
    UInt64.not_lt,UInt64.le_iff_toNat_le,UInt64.le_iff_toNat_le]
  constructor
  · rintro ⟨ho,hw⟩
    rw [UInt64.toNat_sub_of_le _ _ (UInt64.le_iff_toNat_le.mpr ho)] at hw
    omega
  · intro h
    have ho : offset ≤ size := UInt64.le_iff_toNat_le.mpr (by omega)
    rw [UInt64.toNat_sub_of_le _ _ ho]
    omega

/-- The check as the codecs of the model make it, on the length of the buffer. -/
theorem outOfBounds_iff {b : Bytes} (hb : b.length<2^64) (offset width : UInt64) :
    outOfBounds (UInt64.ofNat b.length) offset width=true ↔
      offset.toNat>b.length ∨ width.toNat>b.length-offset.toNat := by
  rw [← Bool.not_eq_false,outOfBounds_eq_false,UInt64.toNat_ofNat_of_lt' hb]
  omega

section PutBytes
variable {b xs : Bytes} {offset : Nat}

theorem putBytes_eq (h : offset+xs.length≤b.length) :
    putBytes b offset xs=b.take offset++(xs++b.drop (offset+xs.length)) := by
  have hlen : (b.take offset).length=offset := List.length_take_of_le (by omega)
  have hput := putBytes_append (b.take offset) (b.drop offset) xs (by
    rw [List.length_drop]
    omega)
  rwa [hlen,List.take_append_drop,List.drop_drop] at hput

theorem encoded_putBytes {width value : Nat} (hx : xs=beEncode width value)
    (h : offset+width≤b.length) : Encoded width value offset b (putBytes b offset xs) := by
  have hw : xs.length=width := by rw [hx,length_beEncode]
  have htake : (b.take offset).length=offset := List.length_take_of_le (by omega)
  have heq := putBytes_eq (hw ▸ h : offset+xs.length≤b.length)
  refine ⟨?_,?_,fun i hi => ?_⟩
  · rw [heq,List.length_append,List.length_append,htake,List.length_drop]
    omega
  · rw [heq,← List.append_assoc,← hx]
    exact slice_middle _ rfl htake hw
  · rw [heq]
    rcases hi with hi | hi
    · rw [List.getElem?_append_left (by omega),List.getElem?_take_of_lt hi]
    · rw [List.getElem?_append_right (by omega),htake,List.getElem?_append_right (by omega),
        List.getElem?_drop]
      congr 1
      omega

/-- Putting back the bytes that are there changes nothing. -/
theorem Encoded.restore {width : Nat} {after : Bytes} (hroom : offset+width≤b.length)
    (h : Encoded width (beNat (slice b offset width)) offset b after) : after=b := by
  have hslice : slice after offset width=slice b offset width := by
    have he := beEncode_beNat (slice b offset width)
    rw [slice_length b hroom] at he
    rw [h.inside,he]
  refine List.ext_getElem? fun i => ?_
  by_cases hi : i<offset ∨ offset+width≤ i
  · exact h.outside i hi
  · obtain ⟨j,rfl⟩ := Nat.exists_eq_add_of_le (show offset ≤ i by omega)
    have hj := congrArg (·[j]?) hslice
    simpa [slice,List.getElem?_take_of_lt (show j<width by omega)] using hj

end PutBytes

section Families
variable {α : Type} {width : Nat} {toNat : α → Nat} {read : Bytes → Nat → Except Thrown α}
variable {write : Bytes → Nat → α → Except Thrown Bytes} {put : Bytes → Nat → α → Bytes}
variable {b b' : Bytes} {offset : Nat} {v : α}

theorem reads_of_readBe {ofNat : Nat → α} (he : ∀ b offset, read b offset=
    (readBe b offset width).map ofNat) (hto : ∀ n<256^width, toNat (ofNat n)=n) :
    Reads width toNat read := by
  intro b offset
  rw [he,readBe]
  split_ifs with h
  · have hlt := beNat_lt (slice b offset width)
    rw [slice_length b h] at hlt
    exact ⟨_,rfl,hto _ hlt⟩
  · rfl

/-- A reader returns what an encoder put into the buffer. -/
theorem Reads.encoded (hr : Reads width toNat read) (hinj : Function.Injective toNat)
    (hroom : offset+width≤b.length) (he : Encoded width (toNat v) offset b b')
    (hv : toNat v<256^width) : read b' offset=.ok v := by
  have h := hr b' offset
  rw [if_pos (by rw [he.length]; exact hroom),he.inside,beNat_beEncode,Nat.mod_eq_of_lt hv] at h
  obtain ⟨w,hw,hval⟩ := h
  rw [hw,hinj hval]

theorem Reads.ok (hr : Reads width toNat read) (h : read b offset=.ok v) :
    offset+width≤b.length ∧ toNat v=beNat (slice b offset width) := by
  have hb := hr b offset
  split_ifs at hb with hroom
  · obtain ⟨w,hw,hval⟩ := hb
    rw [h] at hw
    cases hw
    exact ⟨hroom,hval⟩
  · rw [h] at hb
    cases hb

theorem Writes.ok (hw : Writes width toNat write) (h : write b offset v=.ok b') :
    offset+width≤b.length ∧ Encoded width (toNat v) offset b b' := by
  have hb := hw b offset v
  split_ifs at hb with hroom
  · obtain ⟨b'',hok,he⟩ := hb
    rw [h] at hok
    cases hok
    exact ⟨hroom,he⟩
  · rw [h] at hb
    cases hb

/-- Reading back, and writing back. -/
theorem Writes.invert (hw : Writes width toNat write) (hr : Reads width toNat read)
    (hinj : Function.Injective toNat) (hlt : ∀ v, toNat v<256^width) (b : Bytes) (offset : Nat)
    (v : α) : (∀ b', write b offset v=.ok b' → read b' offset=.ok v) ∧
      (read b offset=.ok v → write b offset v=.ok b) := by
  constructor
  · intro b' h
    obtain ⟨hroom,he⟩ := hw.ok h
    exact hr.encoded hinj hroom he (hlt v)
  · intro h
    obtain ⟨hroom,hval⟩ := hr.ok h
    have hb := hw b offset v
    rw [if_pos hroom,hval] at hb
    obtain ⟨b',hok,he⟩ := hb
    rw [hok,he.restore hroom]

theorem Puts.writes (hp : Puts width toNat put)
    (hok : ∀ {b offset} (_ : offset+width≤b.length) v, write b offset v=.ok (put b offset v))
    (herr : ∀ {b offset} (_ : ¬offset+width≤b.length) v, write b offset v=.error shortBuffer) :
    Writes width toNat write := by
  intro b offset v
  split_ifs with h
  · exact ⟨_,hok h v,hp b offset v h⟩
  · exact herr h v

theorem Puts.invert (hp : Puts width toNat put) (hr : Reads width toNat read)
    (hinj : Function.Injective toNat) (b : Bytes) (offset : Nat) (v : α) :
    (offset+width≤b.length → toNat v<256^width → read (put b offset v) offset=.ok v) ∧
      (read b offset=.ok v → put b offset v=b) := by
  constructor
  · intro hroom hv
    exact hr.encoded hinj hroom (hp b offset v hroom) hv
  · intro h
    obtain ⟨hroom,hval⟩ := hr.ok h
    have he := hp b offset v hroom
    rw [hval] at he
    exact he.restore hroom

end Families

theorem reads_u8 : Reads 1 UInt8.toNat readU8 :=
  reads_of_readBe (fun _ _ => readU8_eq) fun _ hn => UInt8.toNat_ofNat_of_lt' hn

theorem reads_u16 : Reads 2 UInt16.toNat readU16Be :=
  reads_of_readBe (fun _ _ => readU16Be_eq) fun _ hn => UInt16.toNat_ofNat_of_lt' hn

theorem reads_u32 : Reads 4 UInt32.toNat readU32Be :=
  reads_of_readBe (fun _ _ => readU32Be_eq) fun _ hn => UInt32.toNat_ofNat_of_lt' hn

theorem reads_u48 : Reads 6 UInt64.toNat readU48Be :=
  reads_of_readBe (fun _ _ => readU48Be_eq) fun _ hn =>
    UInt64.toNat_ofNat_of_lt' (hn.trans (by decide))

theorem reads_u64 : Reads 8 UInt64.toNat readU64Be :=
  reads_of_readBe (fun _ _ => readU64Be_eq) fun _ hn => UInt64.toNat_ofNat_of_lt' hn

theorem puts_u16 : Puts 2 UInt16.toNat putU16 := fun _ _ v h => encoded_putBytes (u16_bytes v) h

theorem puts_u32 : Puts 4 UInt32.toNat putU32 := fun _ _ v h => encoded_putBytes (u32_bytes v) h

theorem puts_u48 : Puts 6 UInt64.toNat putU48 := fun _ _ v h => encoded_putBytes (u48_bytes v) h

theorem puts_u64 : Puts 8 UInt64.toNat putU64 := fun _ _ v h => encoded_putBytes (u64_bytes v) h

theorem writes_u16 : Writes 2 UInt16.toNat writeU16Be :=
  puts_u16.writes writeU16Be_eq fun h v => by rw [writeU16Be,if_pos (by omega)]

theorem writes_u64 : Writes 8 UInt64.toNat writeU64Be :=
  puts_u64.writes writeU64Be_eq fun h v => by rw [writeU64Be,if_pos (by omega)]

section Capture
variable {r r' : CaptureReader}

theorem readU32_iff {v : UInt32} :
    r.readU32=.ok (v,r') ↔ r.rest=beEncode 4 v.toNat++r'.rest := by
  refine ⟨CaptureReader.readU32_eq,fun h => ?_⟩
  obtain ⟨rest⟩ := r
  obtain rfl : rest=_ := h
  exact CaptureReader.readU32_append v r'.rest

theorem readU64_iff {v : UInt64} :
    r.readU64=.ok (v,r') ↔ r.rest=beEncode 8 v.toNat++r'.rest := by
  refine ⟨CaptureReader.readU64_eq,fun h => ?_⟩
  obtain ⟨rest⟩ := r
  obtain rfl : rest=_ := h
  exact CaptureReader.readU64_append v r'.rest

theorem out_writeU32 (w : CaptureWriter) (v : UInt32) :
    (w.writeU32 v).out=w.out++beEncode 4 v.toNat := by
  rw [CaptureWriter.writeU32,u32_bytes]

theorem out_writeU64 (w : CaptureWriter) (v : UInt64) :
    (w.writeU64 v).out=w.out++beEncode 8 v.toNat := by
  rw [CaptureWriter.writeU64,u64_masked]

end Capture

/-- The checked codecs work within the exact bounds, leave the other bytes alone and invert each
other; the encoders of the program and of the capture put down the same bytes. -/
theorem codecs_invert :
    (∀ (b : Bytes) (offset width : UInt64), b.length<2^64 →
      (outOfBounds (UInt64.ofNat b.length) offset width=true ↔
        offset.toNat>b.length ∨ width.toNat>b.length-offset.toNat)) ∧
    (Writes 2 UInt16.toNat writeU16Be ∧ Writes 8 UInt64.toNat writeU64Be) ∧
    (Reads 1 UInt8.toNat readU8 ∧ Reads 2 UInt16.toNat readU16Be ∧ Reads 4 UInt32.toNat readU32Be ∧
      Reads 6 UInt64.toNat readU48Be ∧ Reads 8 UInt64.toNat readU64Be) ∧
    (∀ b offset v, (∀ b', writeU16Be b offset v=.ok b' → readU16Be b' offset=.ok v) ∧
      (readU16Be b offset=.ok v → writeU16Be b offset v=.ok b)) ∧
    (∀ b offset v, (∀ b', writeU64Be b offset v=.ok b' → readU64Be b' offset=.ok v) ∧
      (readU64Be b offset=.ok v → writeU64Be b offset v=.ok b)) ∧
    (Puts 2 UInt16.toNat putU16 ∧ Puts 4 UInt32.toNat putU32 ∧ Puts 6 UInt64.toNat putU48 ∧
      Puts 8 UInt64.toNat putU64) ∧
    (∀ b offset v, (offset+4≤b.length → readU32Be (putU32 b offset v) offset=.ok v) ∧
      (readU32Be b offset=.ok v → putU32 b offset v=b)) ∧
    (∀ b offset v, (offset+6≤b.length → v.toNat<2^48 →
        readU48Be (putU48 b offset v) offset=.ok v) ∧
      (readU48Be b offset=.ok v → putU48 b offset v=b)) ∧
    (∀ (w : CaptureWriter) v, (w.writeU32 v).out=w.out++beEncode 4 v.toNat) ∧
    (∀ (w : CaptureWriter) v, (w.writeU64 v).out=w.out++beEncode 8 v.toNat) ∧
    (∀ (r r' : CaptureReader) v, r.readU32=.ok (v,r') ↔ r.rest=beEncode 4 v.toNat++r'.rest) ∧
    ∀ (r r' : CaptureReader) v, r.readU64=.ok (v,r') ↔ r.rest=beEncode 8 v.toNat++r'.rest := by
  have h16 : Function.Injective UInt16.toNat := fun _ _ h => UInt16.toNat_inj.mp h
  have h32 : Function.Injective UInt32.toNat := fun _ _ h => UInt32.toNat_inj.mp h
  have h64 : Function.Injective UInt64.toNat := fun _ _ h => UInt64.toNat_inj.mp h
  refine ⟨fun b offset width hb => outOfBounds_iff hb offset width,⟨writes_u16,writes_u64⟩,
    ⟨reads_u8,reads_u16,reads_u32,reads_u48,reads_u64⟩,
    writes_u16.invert reads_u16 h16 UInt16.toNat_lt,writes_u64.invert reads_u64 h64 UInt64.toNat_lt,
    ⟨puts_u16,puts_u32,puts_u48,puts_u64⟩,?_,puts_u48.invert reads_u48 h64,out_writeU32,
    out_writeU64,fun _ _ _ => readU32_iff,fun _ _ _ => readU64_iff⟩
  intro b offset v
  obtain ⟨hread,hback⟩ := puts_u32.invert reads_u32 h32 b offset v
  exact ⟨fun hroom => hread hroom v.toNat_lt,hback⟩

/-- Two bytes of four, and the largest 48-bit number. -/
theorem codecs_invert_small :
    writeU16Be [1,2,3,4] 1 0x0A0B=.ok [1,10,11,4] ∧ readU16Be [1,10,11,4] 1=.ok 0x0A0B ∧
    readU48Be (putU48 (List.replicate 6 0) 0 0xFFFFFFFFFFFF) 0=.ok 0xFFFFFFFFFFFF ∧
    writeU64Be (List.replicate 8 0) 0xFFFFFFFFFFFFFFFF 1=.error shortBuffer := by
  have hw : writeU16Be [1,2,3,4] 1 0x0A0B=.ok [1,10,11,4] := by decide
  refine ⟨hw,(codecs_invert.2.2.2.1 _ _ _).1 _ hw,
    (codecs_invert.2.2.2.2.2.2.2.1 _ _ _).1 (by decide) (by decide),?_⟩
  exact codecs_invert.2.1.2 (List.replicate 8 0) 0xFFFFFFFFFFFFFFFF 1

end MarketWire
