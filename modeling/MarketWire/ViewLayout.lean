import MarketWire.GeneratedViews
import MarketWire.SchemaParse
import MarketWire.Library.Tiling

/-! The generated views over all schemas: the layout of a message tiles its encoding, and the
accessors of a view are a bijection between accepted byte strings and field values. -/
namespace MarketWire.Protocolc
open Library

/-! ### Field values -/

/-- The value that a byte range stands for: a big-endian number, or the bytes themselves. -/
def FieldType.Reads (type : FieldType) (range : Bytes) (value : (accessorType type).Value) : Prop :=
  match type with
  | .u8 => value.toNat=beNat range
  | .char => value.toNat=beNat range
  | .u16Be => value.toNat=beNat range
  | .u32Be => value.toNat=beNat range
  | .price4 => value.toNat=beNat range
  | .u48Be => value.toNat=beNat range
  | .u64Be => value.toNat=beNat range
  | .price8 => value.toNat=beNat range
  | .ascii => value=range

/-- The values that fit a field: a 48-bit number comes in 64 bits, a text in any length. -/
def FieldType.InRange (type : FieldType) (width : UInt64) (value : (accessorType type).Value) :
    Prop :=
  match type with
  | .u48Be => value.toNat<2^48
  | .ascii => value.length=width.toNat
  | .u8 | .char | .u16Be | .u32Be | .price4 | .u64Be | .price8 => True

/-- The bytes that a field value is written as. -/
def FieldType.encode (type : FieldType) (value : (accessorType type).Value) : Bytes :=
  match type with
  | .u8 => beEncode 1 value.toNat
  | .char => beEncode 1 value.toNat
  | .u16Be => beEncode 2 value.toNat
  | .u32Be => beEncode 4 value.toNat
  | .price4 => beEncode 4 value.toNat
  | .u48Be => beEncode 6 value.toNat
  | .u64Be => beEncode 8 value.toNat
  | .price8 => beEncode 8 value.toNat
  | .ascii => value

/-- The width of the field is the one its type needs. -/
def Field.Sized (f : Field) : Prop := f.type≠.ascii → f.width=typeWidth f.type

theorem readAsciiView_ok {bytes value : Bytes} {offset width : Nat} :
    readAsciiView bytes offset width=.ok value ↔
      offset+width≤bytes.length ∧ slice bytes offset width=value ∧ value.length=width := by
  by_cases h : offset+width≤bytes.length
  · rw [readAsciiView_eq bytes offset width h,Except.ok.injEq]
    constructor
    · rintro rfl
      exact ⟨h,rfl,slice_length bytes h⟩
    · exact fun hs => hs.2.1
  · rw [readAsciiView,requireBytes_eq,if_neg h]
    constructor
    · intro he
      cases he
    · exact fun hs => absurd hs.1 h

section
variable {type : FieldType} {offset width : UInt64} {bytes : Bytes}
  {value : (accessorType type).Value} (hw : type≠.ascii → width=typeWidth type)
include hw

/-- The accessor table agrees with the width table. -/
theorem accessorExpr_ok : accessorExpr type offset width bytes=.ok value ↔
    offset.toNat+width.toNat≤bytes.length ∧
      slice bytes offset.toNat width.toNat=type.encode value ∧ type.InRange width value := by
  have htrue : ∀ {a b : Prop}, a ∧ b ↔ a ∧ b ∧ True := by simp
  cases type with
  | u8 => rw [hw nofun]; exact readU8_ok.trans htrue
  | char => rw [hw nofun]; exact readU8_ok.trans htrue
  | u16Be => rw [hw nofun]; exact readU16Be_ok.trans htrue
  | u32Be => rw [hw nofun]; exact readU32Be_ok.trans htrue
  | price4 => rw [hw nofun]; exact readU32Be_ok.trans htrue
  | u48Be => rw [hw nofun]; exact readU48Be_ok
  | u64Be => rw [hw nofun]; exact readU64Be_ok.trans htrue
  | price8 => rw [hw nofun]; exact readU64Be_ok.trans htrue
  | ascii => exact readAsciiView_ok

theorem accessorExpr_isOk (h : offset.toNat+width.toNat≤bytes.length) :
    ∃ value, accessorExpr type offset width bytes=.ok value := by
  cases type with
  | u8 => rw [hw nofun] at h; exact readBe_isOk readU8_eq h
  | char => rw [hw nofun] at h; exact readBe_isOk readU8_eq h
  | u16Be => rw [hw nofun] at h; exact readU16Be_isOk bytes _ h
  | u32Be => rw [hw nofun] at h; exact readU32Be_isOk bytes _ h
  | price4 => rw [hw nofun] at h; exact readU32Be_isOk bytes _ h
  | u48Be => rw [hw nofun] at h; exact readU48Be_isOk bytes _ h
  | u64Be => rw [hw nofun] at h; exact readU64Be_isOk bytes _ h
  | price8 => rw [hw nofun] at h; exact readU64Be_isOk bytes _ h
  | ascii => exact ⟨_,readAsciiView_eq bytes _ _ h⟩

theorem length_encode (h : type.InRange width value) : (type.encode value).length=width.toNat := by
  cases type with
  | ascii => exact h
  | _ => rw [hw nofun]; exact length_beEncode _ _

end

/-- A value that fits is the one its encoding stands for. -/
theorem reads_encode {type : FieldType} {width : UInt64} {value : (accessorType type).Value}
    (h : type.InRange width value) : type.Reads (type.encode value) value := by
  have hbe : ∀ {n v : Nat}, v<256^n → v=beNat (beEncode n v) := fun hv => by
    rw [beNat_beEncode,Nat.mod_eq_of_lt hv]
  cases type with
  | u8 => exact hbe (UInt8.toNat_lt value)
  | char => exact hbe (UInt8.toNat_lt value)
  | u16Be => exact hbe (UInt16.toNat_lt value)
  | u32Be => exact hbe (UInt32.toNat_lt value)
  | price4 => exact hbe (UInt32.toNat_lt value)
  | u48Be => exact hbe h
  | u64Be => exact hbe (UInt64.toNat_lt value)
  | price8 => exact hbe (UInt64.toNat_lt value)
  | ascii => rfl

/-! ### Layout -/

def Field.range (f : Field) : Nat × Nat := (f.offset.toNat,f.width.toNat)

/-- The widths of the fields, added up without a bound. -/
def Message.widths (m : Message) : Nat := (m.fields.map fun f => f.width.toNat).sum

/-- Each field starts where the one before it ends, as long as the size does not wrap. -/
theorem foldl_push_tiles {fs : List FieldDecl} {m : Message}
    (h : Tiles 1 (m.fields.map Field.range) m.size.toNat)
    (hw : m.size.toNat+(fs.map fun f => f.type.width.toNat).sum<2^64) :
    Tiles 1 ((fs.foldl FieldDecl.push m).fields.map Field.range)
      (fs.foldl FieldDecl.push m).size.toNat := by
  induction fs generalizing m with
  | nil => exact h
  | cons f fs ih =>
    rw [List.map_cons,List.sum_cons] at hw
    have hsize : (f.push m).size.toNat=m.size.toNat+f.type.width.toNat := by
      rw [FieldDecl.push,Message.push,UInt64.toNat_add,Nat.mod_eq_of_lt (by omega)]
    refine ih ?_ (by omega)
    rw [hsize,FieldDecl.push,Message.push,List.map_append]
    exact h.snoc _

/-- What the views of a message rest on. -/
structure Message.Laid (m : Message) : Prop where
  sized : ∀ f∈m.fields, f.Sized
  tiles : Tiles 1 (m.fields.map Field.range) m.size.toNat

theorem MessageDecl.layout_sized (m : MessageDecl) {f : Field} (hf : f∈m.layout.fields) :
    f.Sized := by
  have hmem := List.mem_map_of_mem (f := Field.declared) hf
  rw [m.layout_fields] at hmem
  obtain ⟨d,-,he⟩ := List.mem_map.mp hmem
  obtain ⟨-,ht⟩ := Prod.mk.inj he
  obtain ⟨htype,hwidth⟩ := Prod.mk.inj ht
  intro hne
  rw [← htype] at hne ⊢
  rw [← hwidth]
  cases h : d.type with
  | fixed type hta => rfl
  | ascii width hpos =>
    rw [h] at hne
    exact absurd rfl hne

/-- The widths that a message declares, added up. -/
def MessageDecl.widths (d : MessageDecl) : Nat := (d.fields.map fun f => f.type.width.toNat).sum

theorem MessageDecl.layout_widths (d : MessageDecl) : d.layout.widths=d.widths := by
  have h := congrArg (fun l => (l.map fun d => d.2.2.toNat).sum) d.layout_fields
  simpa [Message.widths,widths,Function.comp_def,Field.declared,FieldDecl.declared] using h

theorem MessageDecl.layout_tiles {d : MessageDecl} (h : d.widths<2^64-1) :
    Tiles 1 (d.layout.fields.map Field.range) d.layout.size.toNat := by
  refine foldl_push_tiles .nil ?_
  change 1+d.widths<_
  omega

theorem parse_laid {t : Bytes} {protocol : Protocol} {m : Message} (hp : parse t=.ok protocol)
    (hm : m∈protocol.messages) (hw : m.widths<2^64-1) : m.Laid := by
  obtain ⟨s,-,rfl⟩ := parse_ok.mp hp
  obtain ⟨d,-,rfl⟩ := List.mem_map.mp hm
  rw [d.layout_widths] at hw
  exact ⟨fun f => d.layout_sized,MessageDecl.layout_tiles hw⟩

/-- The layout of a message as arithmetic without a bound: every offset and the size are sums of
widths, so that the size covers every field. -/
structure Message.Exact (m : Message) : Prop where
  offset : ∀ i f, m.fields[i]?=some f →
    f.offset.toNat=1+((m.fields.take i).map fun f => f.width.toNat).sum
  size : m.size.toNat=1+m.widths
  size_ne_zero : m.size≠0
  field_le : ∀ f∈m.fields, f.offset.toNat+f.width.toNat≤ m.size.toNat

/-- A layout is exact unless the widths exceed a word. -/
theorem MessageDecl.layout_exact (d : MessageDecl) : d.layout.Exact ↔ d.widths<2^64-1 := by
  have hwidths := d.layout_widths
  constructor
  · intro h
    have hlt := d.layout.size.toNat_lt
    have hsize := h.size
    omega
  · intro h
    have ht := layout_tiles h
    have hsize : d.layout.size.toNat=1+d.layout.widths := by
      rw [ht.sum,List.map_map]
      rfl
    refine ⟨fun i f hf => ?_,hsize,fun hz => ?_,fun f hf => (ht.mem_le (List.mem_map_of_mem hf)).2⟩
    · have hr : (d.layout.fields.map Field.range)[i]?=some f.range := by
        rw [List.getElem?_map,hf,Option.map_some]
      have hs := ht.start hr
      rwa [← List.map_take,List.map_map] at hs
    · rw [hz] at hsize
      have hzero : (0 : UInt64).toNat=0 := rfl
      omega

/-- The compiler lays out a schema exactly when the fields of each of its messages are together
shorter than a word can count; longer ones wrap. -/
theorem parse_layout_exact {s : Schema} {t : Bytes} (hs : s.Text t) :
    (∃ p, parse t=.ok p ∧ ∀ m∈p.messages, m.Exact) ↔ ∀ d∈s.messages, d.widths<2^64-1 := by
  have hp : parse t=.ok s.protocol := parse_ok.mpr ⟨s,hs,rfl⟩
  have hall : (∀ m∈s.protocol.messages, m.Exact) ↔ ∀ d∈s.messages, d.widths<2^64-1 := by
    simp only [Schema.protocol,List.forall_mem_map,MessageDecl.layout_exact]
  rw [← hall]
  constructor
  · rintro ⟨p,hp',h⟩
    rw [hp] at hp'
    cases hp'
    exact h
  · exact fun h => ⟨_,hp,h⟩

/-- A schema with an exact layout. -/
theorem parse_layout_exact_two : ∃ s : Schema,
    s.Text (text "protocol P; message M \"M\" \x7b stamp : u48_be; stock : ascii[2]; \x7d") ∧
    ∀ d∈s.messages, d.widths<2^64-1 := by
  have hp : parse (text "protocol P; message M \"M\" \x7b stamp : u48_be; stock : ascii[2]; \x7d")=
      .ok ⟨text "P",[⟨text "M",77,[⟨text "stamp",.u48Be,6,1⟩,⟨text "stock",.ascii,2,7⟩],9⟩]⟩ := by
    decide +kernel
  obtain ⟨s,hs,-⟩ := parse_ok.mp hp
  refine ⟨s,hs,(parse_layout_exact hs).mp ⟨_,hp,fun m hm => ?_⟩⟩
  obtain rfl := List.mem_singleton.mp hm
  refine ⟨fun i f hf => ?_,rfl,by decide,by decide⟩
  rcases i with _ | _ | i
  · cases hf
    rfl
  · cases hf
    rfl
  · cases hf

/-- The widest text leaves a message of size zero. -/
theorem parse_layout_wraps :
    parse (text "protocol P; message M \"M\" \x7b a : ascii[18446744073709551615]; \x7d")=
      .ok ⟨text "P",[⟨text "M",77,[⟨text "a",.ascii,18446744073709551615,1⟩],0⟩]⟩ ∧
    ¬Message.Exact ⟨text "M",77,[⟨text "a",.ascii,18446744073709551615,1⟩],0⟩ := by
  refine ⟨by decide +kernel,fun h => ?_⟩
  exact absurd rfl h.size_ne_zero

/-! ### Views -/

namespace View

variable {m : Message}

/-- The call of a field's accessor. -/
def read (v : View m) (f : Field) : Except Thrown (accessorType f.type).Value :=
  accessorExpr f.type f.offset f.width v.bytes

theorem create_eq_ok {bytes : Bytes} {v : View m} : create m bytes=.ok v ↔ v.bytes=bytes := by
  constructor
  · intro h
    unfold create at h
    split_ifs at h
    cases h
    rfl
  · rintro rfl
    exact create_ok v.size_eq v.type_eq

theorem take_one (v : View m) : v.bytes.take 1=[m.type] := by
  obtain ⟨rest,h⟩ := List.head?_eq_some_iff.mp v.type_eq
  rw [h]
  rfl

section
variable (hl : m.Laid) {f : Field} (hf : f∈m.fields)
include hl hf

theorem field_le (v : View m) : f.offset.toNat+f.width.toNat≤v.bytes.length := by
  rw [v.size_eq]
  exact (hl.tiles.mem_le (List.mem_map_of_mem hf)).2

theorem read_ok (v : View m) {value : (accessorType f.type).Value} : v.read f=.ok value ↔
    slice v.bytes f.offset.toNat f.width.toNat=f.type.encode value ∧
      f.type.InRange f.width value :=
  (accessorExpr_ok (hl.sized f hf)).trans (and_iff_right (v.field_le hl hf))

theorem read_isOk (v : View m) : ∃ value, v.read f=.ok value :=
  accessorExpr_isOk (hl.sized f hf) (v.field_le hl hf)

end

/-- The accessors determine the bytes. -/
theorem bytes_eq (hl : m.Laid) {v w : View m} (h : ∀ f∈m.fields, v.read f=w.read f) :
    v.bytes=w.bytes := by
  refine hl.tiles.ext v.size_eq w.size_eq (v.take_one.trans w.take_one.symm) fun r hr => ?_
  obtain ⟨f,hf,rfl⟩ := List.mem_map.mp hr
  obtain ⟨value,hv⟩ := v.read_isOk hl hf
  have hw := (h f hf).symm.trans hv
  exact ((v.read_ok hl hf).mp hv).1.trans ((w.read_ok hl hf).mp hw).1.symm

/-- Values that fit are read back from the bytes that their encodings make up. -/
theorem exists_read (hl : m.Laid)
    (values : (i : Fin m.fields.length) → (accessorType (m.fields.get i).type).Value)
    (hv : ∀ i, (m.fields.get i).type.InRange (m.fields.get i).width (values i)) :
    ∃ v : View m, ∀ i, v.read (m.fields.get i)=.ok (values i) := by
  let pieces := List.ofFn fun i => (m.fields.get i).type.encode (values i)
  have hlen : List.Forall₂ (fun r (x : Bytes) => x.length=r.2) (m.fields.map Field.range) pieces := by
    refine List.forall₂_iff_get.mpr ⟨by simp [pieces],fun i h1 h2 => ?_⟩
    rw [List.length_map] at h1
    simp only [pieces,List.get_eq_getElem,List.getElem_map,List.getElem_ofFn]
    exact length_encode (hl.sized _ (List.get_mem _ ⟨i,h1⟩)) (hv ⟨i,h1⟩)
  obtain ⟨hsize,hs⟩ := hl.tiles.slices hlen (rfl : [m.type].length=1)
  refine ⟨⟨[m.type]++pieces.flatten,hsize,rfl⟩,fun i => ?_⟩
  refine (read_ok hl (List.get_mem m.fields i) _).mpr ⟨?_,hv i⟩
  have h := (List.forall₂_iff_get.mp hs).2 i (by simp) (by simp [pieces])
  simpa [pieces,Field.range] using h

end View

/-- The generated views are total and lossless. The fields of a message follow one another
from its second byte to its last; on every accepted byte string the accessors return the values
of their own ranges and together determine the bytes; and every choice of values that fit is read
from exactly one accepted byte string. -/
theorem views_lossless {t : Bytes} {protocol : Protocol} {m : Message}
    (hp : parse t=.ok protocol) (hm : m∈protocol.messages) (hw : m.widths<2^64-1) :
    (m.fields.Pairwise fun f g => f.offset.toNat+f.width.toNat≤g.offset.toNat) ∧
    (∀ i, 1 ≤ i ∧ i < m.size.toNat ↔
      ∃ f∈m.fields, f.offset.toNat ≤ i ∧ i<f.offset.toNat+f.width.toNat) ∧
    (∀ bytes v, View.create m bytes=.ok v → ∀ f∈m.fields, ∃ value, v.read f=.ok value ∧
      f.type.Reads (slice bytes f.offset.toNat f.width.toNat) value) ∧
    (∀ bytes bytes' v v', View.create m bytes=.ok v → View.create m bytes'=.ok v' →
      (∀ f∈m.fields, v.read f=v'.read f) → bytes=bytes') ∧
    ∀ values : (i : Fin m.fields.length) → (accessorType (m.fields.get i).type).Value,
      (∀ i, (m.fields.get i).type.InRange (m.fields.get i).width (values i)) →
      ∃! bytes, ∃ v, View.create m bytes=.ok v ∧ ∀ i, v.read (m.fields.get i)=.ok (values i) := by
  have hl := parse_laid hp hm hw
  refine ⟨List.pairwise_map.mp hl.tiles.pairwise,fun i => ?_,?_,?_,?_⟩
  · rw [hl.tiles.cover i]
    simp [Field.range]
  · intro bytes v hc f hf
    obtain rfl := View.create_eq_ok.mp hc
    obtain ⟨value,hv⟩ := v.read_isOk hl hf
    obtain ⟨hs,hr⟩ := (v.read_ok hl hf).mp hv
    exact ⟨value,hv,hs ▸ reads_encode hr⟩
  · intro bytes bytes' v v' hc hc' h
    obtain rfl := View.create_eq_ok.mp hc
    obtain rfl := View.create_eq_ok.mp hc'
    exact View.bytes_eq hl h
  · intro values hv
    obtain ⟨v,h⟩ := View.exists_read hl values hv
    refine ⟨v.bytes,⟨v,View.create_eq_ok.mpr rfl,h⟩,?_⟩
    rintro bytes ⟨v',hc,h'⟩
    obtain rfl := View.create_eq_ok.mp hc
    refine View.bytes_eq hl fun f hf => ?_
    obtain ⟨i,rfl⟩ := List.get_of_mem hf
    rw [h,h']

theorem views_lossless_two :
    let m : Message := ⟨text "M",77,[⟨text "stamp",.u48Be,6,1⟩,⟨text "stock",.ascii,2,7⟩],9⟩
    parse (text "protocol P; message M \"M\" \x7b stamp : u48_be; stock : ascii[2]; \x7d")=
      .ok ⟨text "P",[m]⟩ ∧ m.widths<2^64-1 ∧
    (∀ i, 1 ≤ i ∧ i < m.size.toNat ↔
      ∃ f∈m.fields, f.offset.toNat ≤ i ∧ i<f.offset.toNat+f.width.toNat) := by
  have hp : parse (text "protocol P; message M \"M\" \x7b stamp : u48_be; stock : ascii[2]; \x7d")=
      .ok ⟨text "P",[⟨text "M",77,[⟨text "stamp",.u48Be,6,1⟩,⟨text "stock",.ascii,2,7⟩],9⟩]⟩ := by
    decide +kernel
  exact ⟨hp,by decide,(views_lossless hp List.mem_cons_self (by decide)).2.1⟩

end MarketWire.Protocolc
