import MarketWire.Capture
import MarketWire.Library.PrefixCode

/-! Whole capture files. The reader returns records exactly as long as the file is a sequence
of encoded records; anything else ends in an exception. -/
namespace MarketWire
open Library

/-- Writing records one after another. -/
def CaptureWriter.writeAll (w : CaptureWriter) (records : List CaptureRecord) :
    Except Thrown CaptureWriter :=
  records.foldlM (fun w r => w.write r.monotonicNs r.datagram) w

/-- The file of some records. -/
def captureFile (records : List CaptureRecord) : Bytes :=
  text "EFC2"++records.flatMap CaptureRecord.encode

/-- Records that a capture can hold. -/
def Fits (records : List CaptureRecord) : Prop := ∀ r∈records, r.datagram.length≤65535

/-- The records of a file that are whole: they stand one behind another from its magic on, and
what follows them does not begin with another. A file without the magic has none. -/
structure Decodable (file : Bytes) (records : List CaptureRecord) : Prop where
  fits : Fits records
  begins : records=[] ∨ captureFile records<+:file
  all : ∀ more, Fits more → captureFile more<+:file → more<+:records

namespace CaptureReader

/-- Calling `next` until it returns nothing or throws: the records, and the exception. -/
def readAll (reader : CaptureReader) : List CaptureRecord×Option Thrown :=
  match h : reader.next with
  | .error e => ([],some e)
  | .ok none => ([],none)
  | .ok (some (r,reader')) =>
    have := next_length h
    let (records,e) := readAll reader'
    (r::records,e)
termination_by reader.rest.length

def readFile (file : Bytes) : List CaptureRecord×Option Thrown :=
  match create file with
  | .error e => ([],some e)
  | .ok reader => reader.readAll

section ReadAll
variable {reader reader' : CaptureReader} {r : CaptureRecord}

theorem readAll_error {e : Thrown} (h : reader.next=.error e) : reader.readAll=([],some e) := by
  rw [readAll]
  split <;> simp_all

theorem readAll_none (h : reader.next=.ok none) : reader.readAll=([],none) := by
  rw [readAll]
  split <;> simp_all

theorem readAll_some (h : reader.next=.ok (some (r,reader'))) :
    reader.readAll=(r::reader'.readAll.1,reader'.readAll.2) := by
  rw [readAll]
  split <;> simp_all

theorem next_none : reader.next=.ok none ↔ reader.rest=[] := by
  constructor
  · intro h
    by_contra hne
    rw [next,if_neg hne] at h
    obtain ⟨⟨ns,r1⟩,-,h⟩ := bind_eq_ok.mp h
    obtain ⟨⟨len,r2⟩,-,h⟩ := bind_eq_ok.mp h
    dsimp only at h
    split_ifs at h
    cases h
  · intro h
    rw [next,if_pos h]

theorem readU64_eq {v : UInt64} (h : reader.readU64=.ok (v,reader')) :
    reader.rest=beEncode 8 v.toNat++reader'.rest := by
  unfold readU64 at h
  split_ifs at h with hs
  cases h
  have hread : readU64Be reader.rest 0=.ok (accumulate reader.rest 0 8) := by
    rw [readU64Be,requireBytes_eq,if_pos (by omega)]
    rfl
  have hslice := (readU64Be_ok.mp hread).2
  rw [← hslice,slice,List.drop_zero,List.take_append_drop]

theorem readU32_eq {v : UInt32} (h : reader.readU32=.ok (v,reader')) :
    reader.rest=beEncode 4 v.toNat++reader'.rest := by
  unfold readU32 at h
  split_ifs at h with hs
  have hread : readU32Be reader.rest 0=.ok v := by
    rw [readU32Be,requireBytes_eq,if_pos (by omega)]
    exact congrArg Except.ok (congrArg Prod.fst (Except.ok.inj h))
  cases h
  have hslice := (readU32Be_ok.mp hread).2
  rw [← hslice,slice,List.drop_zero,List.take_append_drop]

/-- A record is returned exactly when its encoding is next. -/
theorem next_some : reader.next=.ok (some (r,reader')) ↔
    reader.rest=r.encode++reader'.rest ∧ r.datagram.length≤kMaxCaptureDatagramSize := by
  constructor
  · intro h
    by_cases hempty : reader.rest=[]
    · rw [next_none.mpr hempty] at h
      cases h
    rw [next,if_neg hempty] at h
    obtain ⟨⟨ns,r1⟩,h1,h⟩ := bind_eq_ok.mp h
    obtain ⟨⟨len,r2⟩,h2,h⟩ := bind_eq_ok.mp h
    dsimp only at h
    split_ifs at h with hl hp
    cases h
    have hlen : (r2.rest.take len.toNat).length=len.toNat := List.length_take_of_le (by omega)
    refine ⟨?_,by dsimp only; omega⟩
    rw [CaptureRecord.encode,hlen,readU64_eq h1,readU32_eq h2]
    simp only [List.append_assoc,List.take_append_drop]
  · rintro ⟨hrest,hsize⟩
    obtain ⟨rest⟩ := reader
    obtain rfl : rest=_ := hrest
    exact next_encode hsize _

/-- Two records cannot begin the same bytes. -/
theorem encode_selfDelimiting :
    SelfDelimiting (fun r : CaptureRecord => r.datagram.length≤kMaxCaptureDatagramSize)
      CaptureRecord.encode := by
  intro x y rest rest' hx hy he
  have h := next_encode hx rest
  rw [he,next_encode hy rest'] at h
  cases h
  exact ⟨rfl,rfl⟩

/-- The reader returns records and then nothing exactly on the encoding of those records. -/
theorem readAll_iff {records : List CaptureRecord} : reader.readAll=(records,none) ↔
    reader.rest=records.flatMap CaptureRecord.encode ∧ Fits records := by
  induction records generalizing reader with
  | nil =>
    rw [List.flatMap_nil]
    constructor
    · intro h
      rcases hn : reader.next with e | _ | ⟨r,reader'⟩
      · rw [readAll_error hn] at h
        cases h
      · exact ⟨next_none.mp hn,by simp [Fits]⟩
      · rw [readAll_some hn] at h
        cases h
    · rintro ⟨h,-⟩
      exact readAll_none (next_none.mpr h)
  | cons r rest ih =>
    rw [List.flatMap_cons]
    constructor
    · intro h
      rcases hn : reader.next with e | _ | ⟨r',reader'⟩
      · rw [readAll_error hn] at h
        cases h
      · rw [readAll_none hn] at h
        cases h
      · rw [readAll_some hn,Prod.mk.injEq,List.cons.injEq] at h
        obtain ⟨⟨rfl,hrec⟩,hend⟩ := h
        obtain ⟨hrest,hfits⟩ := ih.mp (Prod.ext hrec hend)
        obtain ⟨hfirst,hsize⟩ := next_some.mp hn
        exact ⟨by rw [hfirst,hrest],List.forall_mem_cons.mpr ⟨hsize,hfits⟩⟩
    · rintro ⟨hrest,hfits⟩
      obtain ⟨hsize,hfits⟩ := List.forall_mem_cons.mp hfits
      have hn : reader.next=.ok (some (r,⟨rest.flatMap CaptureRecord.encode⟩)) :=
        next_some.mpr ⟨hrest,hsize⟩
      have hrec : readAll ⟨rest.flatMap CaptureRecord.encode⟩=(rest,none) := ih.mpr ⟨rfl,hfits⟩
      rw [readAll_some hn,hrec]

theorem fits_readAll (reader : CaptureReader) : Fits reader.readAll.1 := by
  induction reader using readAll.induct with
  | case1 reader e h => simp [readAll_error h,Fits]
  | case2 reader h => simp [readAll_none h,Fits]
  | case3 reader r reader' h _ _ _ _ ih =>
    rw [readAll_some h]
    exact List.forall_mem_cons.mpr ⟨(next_some.mp h).2,ih⟩

/-- The records read stand at the beginning. -/
theorem readAll_begins (reader : CaptureReader) :
    reader.readAll.1.flatMap CaptureRecord.encode<+:reader.rest := by
  induction reader using readAll.induct with
  | case1 reader e h => simp [readAll_error h]
  | case2 reader h => simp [readAll_none h]
  | case3 reader r reader' h _ _ _ _ ih =>
    rw [readAll_some h,(next_some.mp h).1,List.flatMap_cons]
    exact (List.prefix_append_right_inj _).mpr ih

/-- Records that stand at the beginning are read. -/
theorem prefix_readAll {records : List CaptureRecord} (hfits : Fits records)
    (h : records.flatMap CaptureRecord.encode<+:reader.rest) : records<+:reader.readAll.1 := by
  induction records generalizing reader with
  | nil => exact List.nil_prefix
  | cons r rest ih =>
    obtain ⟨hsize,hfits⟩ := List.forall_mem_cons.mp hfits
    obtain ⟨tail,ht⟩ := h
    rw [List.flatMap_cons,List.append_assoc] at ht
    have hn : reader.next=.ok (some (r,⟨rest.flatMap CaptureRecord.encode++tail⟩)) :=
      next_some.mpr ⟨ht.symm,hsize⟩
    rw [readAll_some hn]
    exact (List.prefix_cons_inj r).mpr (ih hfits (List.prefix_append _ _))

end ReadAll

section ReadFile
variable {file : Bytes} {records : List CaptureRecord}

theorem readFile_iff :
    readFile file=(records,none) ↔ file=captureFile records ∧ Fits records := by
  unfold readFile captureFile
  cases hc : create file with
  | error e =>
    refine ⟨nofun,fun h => ?_⟩
    rw [create_ok.mpr h.1] at hc
    cases hc
  | ok reader =>
    rw [readAll_iff,create_ok.mp hc,List.append_cancel_left_eq]

/-- The reader returns the records that are whole. -/
theorem decodable_readFile (file : Bytes) : Decodable file (readFile file).1 := by
  unfold readFile
  cases hc : create file with
  | error e =>
    refine ⟨by simp [Fits],.inl rfl,fun more _ hm => ?_⟩
    obtain ⟨tail,rfl⟩ := hm
    rw [captureFile,List.append_assoc] at hc
    rw [create_ok.mpr (rfl : _=text "EFC2"++CaptureReader.rest ⟨_⟩)] at hc
    cases hc
  | ok reader =>
    rw [create_ok.mp hc]
    exact ⟨fits_readAll reader,.inr ((List.prefix_append_right_inj _).mpr (readAll_begins reader)),
      fun more hm h => prefix_readAll hm ((List.prefix_append_right_inj _).mp h)⟩

end ReadFile
end CaptureReader

namespace Decodable
variable {file : Bytes} {records records' : List CaptureRecord}

/-- The whole records of a file are determined by its bytes. -/
theorem unique (h : Decodable file records) (h' : Decodable file records') : records=records' := by
  have hle {l l' : List CaptureRecord} (h : Decodable file l) (h' : Decodable file l') : l<+:l' :=
    h.begins.elim (fun he => he ▸ List.nil_prefix) (h'.all l h.fits)
  exact (hle h h').eq_of_length_le (hle h' h).length_le

theorem of_fits (h : Fits records) : Decodable (captureFile records) records := by
  have hread := CaptureReader.decodable_readFile (captureFile records)
  rwa [CaptureReader.readFile_iff.mpr ⟨rfl,h⟩] at hread

end Decodable

/-- A file that ends within a record. -/
theorem Decodable.of_cut {records : List CaptureRecord} {r : CaptureRecord} {tail : Bytes}
    (h : Fits (records++[r])) (ht : tail<+:r.encode) (hne : tail≠r.encode) :
    Decodable (captureFile records++tail) records := by
  have hrecords : Fits records := fun q hq => h q (List.mem_append_left _ hq)
  obtain ⟨rest,hrest⟩ := ht
  refine ⟨hrecords,.inr (List.prefix_append _ _),fun more hm hmore => ?_⟩
  have hwhole : captureFile (records++[r])=captureFile records++tail++rest := by
    rw [List.append_assoc,hrest]
    simp [captureFile]
  have hle := (Decodable.of_fits h).all more hm
    (hmore.trans (hwhole ▸ List.prefix_append _ _))
  rcases List.prefix_concat_iff.mp hle with rfl | hle
  · -- the last record would be whole
    have hlen := hmore.length_le
    rw [hwhole] at hlen
    have hnil : rest=[] := List.length_eq_zero_iff.mp (by
      have hsum : (captureFile records++tail++rest).length=
          (captureFile records++tail).length+rest.length := List.length_append
      omega)
    exact absurd (by rw [← hrest,hnil,List.append_nil]) hne
  · exact hle

/-- From the beginning of a capture no other records are read. -/
theorem CaptureReader.readFile_prefix {file : Bytes} {records : List CaptureRecord}
    (hfits : Fits records) (h : file<+:captureFile records) : (readFile file).1<+:records := by
  have hread := decodable_readFile file
  refine hread.begins.elim (fun he => he ▸ List.nil_prefix) fun hb => ?_
  exact (Decodable.of_fits hfits).all _ hread.fits (hb.trans h)

theorem CaptureWriter.writeAll_eq (w : CaptureWriter) {records : List CaptureRecord}
    (h : Fits records) :
    w.writeAll records=.ok ⟨w.out++records.flatMap CaptureRecord.encode⟩ := by
  induction records generalizing w with
  | nil =>
    rw [List.flatMap_nil,List.append_nil]
    rfl
  | cons r rest ih =>
    obtain ⟨hsize,hrest⟩ := List.forall_mem_cons.mp h
    rw [writeAll,List.foldlM_cons]
    refine bind_eq_ok.mpr ⟨_,w.write_eq hsize,?_⟩
    rw [List.flatMap_cons,← List.append_assoc]
    exact ih _ hrest

open CaptureReader

/-- What is written is read back; the reader accepts exactly the written files and otherwise
throws; and from the beginning of a file it returns the first records, all of them intact. -/
theorem capture_exact :
    (∀ records, Fits records → ∃ w, CaptureWriter.create.writeAll records=.ok w ∧
      readFile w.out=(records,none)) ∧
    (∀ file records, readFile file=(records,none) ↔ file=captureFile records ∧ Fits records) ∧
    (∀ file, (∃ records, file=captureFile records ∧ Fits records) ∨
      ∃ e, (readFile file).2=some e) ∧
    (∀ records file, Fits records → file<+:captureFile records → 4≤file.length →
      (readFile file).1<+:records ∧
      ((readFile file).2=none → ∃ k≤records.length, file=captureFile (records.take k))) := by
  refine ⟨fun records hfits => ?_,fun _ _ => readFile_iff,fun file => ?_,?_⟩
  · refine ⟨_,CaptureWriter.writeAll_eq _ hfits,?_⟩
    exact readFile_iff.mpr ⟨rfl,hfits⟩
  · cases he : (readFile file).2 with
    | some e => exact .inr ⟨e,rfl⟩
    | none => exact .inl ⟨_,readFile_iff.mp (Prod.ext rfl he)⟩
  · intro records file hfits hprefix _
    have hread := readFile_prefix hfits hprefix
    refine ⟨hread,fun he => ⟨_,hread.length_le,?_⟩⟩
    rw [← List.prefix_iff_eq_take.mp hread]
    exact (readFile_iff.mp (Prod.ext rfl he)).1

/-- Two records, one of them empty, and the file cut within the second. -/
theorem capture_exact_two :
    readFile (captureFile [⟨5,[1,2]⟩,⟨6,[]⟩])=([⟨5,[1,2]⟩,⟨6,[]⟩],none) ∧
    (readFile ((captureFile [⟨5,[1,2]⟩,⟨6,[]⟩]).take 20)).1<+:[⟨5,[1,2]⟩,⟨6,[]⟩] := by
  have hfits : Fits [⟨5,[1,2]⟩,⟨6,[]⟩] := by simp [Fits]
  exact ⟨(capture_exact.2.1 _ _).mpr ⟨rfl,hfits⟩,
    (capture_exact.2.2.2 _ _ hfits (List.take_prefix _ _) (by decide +kernel)).1⟩

end MarketWire
