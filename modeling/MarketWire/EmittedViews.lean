import MarketWire.HeaderDispatch
import MarketWire.ItchSchema

/-! What the declarations of an emitted header mean: where C++ takes the names of a schema, they are
well formed, the classes compute what the generated views compute, the functions find their sizes
and names, and little of the schema is lost. -/
namespace MarketWire.Protocolc
open Library

/-! ### Which declarations C++ takes -/

/-- A name is free to declare: it is none of the reserved ones (the keywords, the macros in force
and what the implementation keeps for itself), and hides neither namespace that the header goes
through. -/
def Free (reserved : Bytes → Bool) (name : Bytes) : Prop :=
  ¬reserved name ∧ name≠text "std" ∧ name≠text "efe"

instance (reserved : Bytes → Bool) (name : Bytes) : Decidable (Free reserved name) :=
  inferInstanceAs (Decidable (_ ∧ _))

/-- The members that every class has. -/
def members : List Bytes := [text "bytes_",text "encoded_size",text "message_type"]

/-- Free names, distinct members, and numbers that a literal without a suffix can be. -/
structure ViewClass.Legal (reserved : Bytes → Bool) (c : ViewClass) : Prop where
  name : Free reserved c.name
  accessors : ∀ a∈c.accessors, Free reserved a.name
  members_nodup : (c.name::(members++c.accessors.map Accessor.name)).Nodup
  size : c.encodedSize<2^63
  offset : ∀ a∈c.accessors, a.offset<2^63
  width : ∀ a∈c.accessors, ∀ width, a.reader=.asciiView width → width<2^63

structure Header.Legal (reserved : Bytes → Bool) (h : Header) : Prop where
  path : ∃ name, Free reserved name ∧ h.path=text "efe::generated::"++name
  classes : ∀ c∈h.classes, c.Legal reserved
  names_nodup : (text "message_size"::text "message_name"::h.classes.map ViewClass.name).Nodup
  size_labels : (h.sizes.cases.map Prod.fst).Nodup
  name_labels : (h.names.cases.map Prod.fst).Nodup

/-- The names of a schema that its header can use. -/
structure Protocol.Usable (reserved : Bytes → Bool) (p : Protocol) : Prop where
  name : Free reserved (snakeNamespace p.name)
  messages : ∀ m∈p.messages, Free reserved (m.name++text "View")
  fields : ∀ m∈p.messages, ∀ f∈m.fields, Free reserved f.name
  members : ∀ m∈p.messages, ∀ f∈m.fields, f.name∉(m.name++text "View")::members

/-! ### What the declarations mean -/

/-- A class does what the view of a message does. -/
structure ViewClass.Implements (c : ViewClass) (m : Message) : Prop where
  name : c.name=m.name++text "View"
  messageType : c.messageType=m.type
  encodedSize : c.encodedSize=m.size.toNat
  construct : ∀ bytes, c.construct bytes=(View.create m bytes).map fun _ => ()
  accessors : List.Forall₂ (fun a f => a.name=f.name ∧ ∀ bytes,
    a.returns bytes=⟨accessorType f.type,accessorExpr f.type f.offset f.width bytes⟩)
    c.accessors m.fields
  names_nodup : (c.accessors.map Accessor.name).Nodup

/-- A header does what a protocol says. -/
structure Header.Implements (h : Header) (p : Protocol) : Prop where
  path : h.path=text "efe::generated::"++snakeNamespace p.name
  classes : List.Forall₂ ViewClass.Implements h.classes p.messages
  messageSize : ∀ type, h.messageSize type=some ((p.messageSize type).map UInt64.toNat)
  messageName : ∀ type, h.messageName type=
    some (((p.messages.find? fun m => m.type=type).map Message.name).getD (text "Unknown"))

/-! ### Meaning -/

theorem render_append (t s : Bytes) : render (t++s)=render t++render s := by
  simp [render,String.ofList_append]

theorem Message.render_complaint (m : Message) :
    render m.complaint="invalid "++render m.name++" message" := by
  rw [complaint,render_append,render_append,
    show render (text "invalid ")="invalid " by decide +kernel,
    show render (text " message")=" message" by decide +kernel,String.append_assoc]

theorem Message.view_implements {m : Message} (h : (m.fields.map Field.name).Nodup) :
    m.view.Implements m where
  name := rfl
  messageType := rfl
  encodedSize := rfl
  construct bytes := by
    change (if bytes.length=m.size.toNat ∧ bytes.head?=some m.type then _ else _)=_
    unfold View.create
    split_ifs
    · rfl
    · rw [show m.view.complaint=m.complaint from rfl,m.render_complaint]
      rfl
  accessors := by
    rw [view,List.forall₂_map_left_iff,List.forall₂_same]
    exact fun f _ => ⟨rfl,f.accessor_returns⟩
  names_nodup := by
    rw [view,List.map_map]
    exact h

section Meaning
variable {reserved : Bytes → Bool} {crEnds : Bool} {p : Protocol} {m : Message}

theorem header_implements (ht : (p.messages.map Message.type).Nodup) (hd : p.Declarable) :
    p.header.Implements p where
  path := rfl
  classes := by
    rw [Protocol.header,List.forall₂_map_left_iff,List.forall₂_same]
    exact fun m hm => m.view_implements (hd.messages m hm).names_nodup
  messageSize type := by
    rw [(header_dispatches ht hd).messageSize,Protocol.messageSize,Option.map_map]
    rfl
  messageName := (header_dispatches ht hd).messageName

/-- A message whose layout does not wrap has numbers that literals can be. -/
theorem Message.view_legal (hl : m.Laid) (hw : m.widths<2^63-1)
    (hn : (m.fields.map Field.name).Nodup) (hname : Free reserved (m.name++text "View"))
    (hfields : ∀ f∈m.fields, Free reserved f.name)
    (hmembers : ∀ f∈m.fields, f.name∉(m.name++text "View")::members) :
    m.view.Legal reserved := by
  have hsize : m.size.toNat<2^63 := by
    have hsum : m.size.toNat=1+m.widths := by
      rw [hl.tiles.sum,List.map_map]
      rfl
    omega
  have hrange {f : Field} (hf : f∈m.fields) : f.offset.toNat<2^63 ∧ f.width.toNat<2^63 := by
    have hle := (hl.tiles.mem_le (List.mem_map_of_mem hf)).2
    simp only [Field.range] at hle
    omega
  constructor
  · exact hname
  · exact List.forall_mem_map.mpr hfields
  · have hview : m.view.accessors.map Accessor.name=m.fields.map Field.name := List.map_map
    have hfixed : (m.name++text "View")∉members := by
      -- the last letter is another one
      intro hin
      have hlast : (m.name++text "View").getLast?=some 119 := by
        rw [List.getLast?_append]
        rfl
      have hother : ∀ t∈members, t.getLast?≠some 119 := by decide +kernel
      exact hother _ hin hlast
    have hnew : ∀ t∈m.fields.map Field.name, t∉(m.name++text "View")::members :=
      List.forall_mem_map.mpr hmembers
    rw [hview,← List.cons_append]
    refine List.Nodup.append (List.nodup_cons.mpr ⟨hfixed,by decide +kernel⟩) hn ?_
    exact fun t ht hf => hnew t hf ht
  · exact hsize
  · exact List.forall_mem_map.mpr fun f hf => (hrange hf).1
  · exact List.forall_mem_map.mpr fun f hf width h => (f.reader_width h) ▸ (hrange hf).2

theorem header_legal (hu : p.Usable reserved) (ht : (p.messages.map Message.type).Nodup)
    (hd : p.Declarable) (hl : ∀ m∈p.messages, m.Laid) (hw : ∀ m∈p.messages, m.widths<2^63-1) :
    p.header.Legal reserved where
  path := ⟨_,hu.name,rfl⟩
  classes := List.forall_mem_map.mpr fun m hm => Message.view_legal (hl m hm) (hw m hm)
    (hd.messages m hm).names_nodup (hu.messages m hm) (hu.fields m hm) (hu.members m hm)
  names_nodup := by
    have hview : p.header.classes.map ViewClass.name=
        (p.messages.map Message.name).map (·++text "View") := by
      simp only [Protocol.header,List.map_map]
      rfl
    have hlast : ∀ t∈(p.messages.map Message.name).map (·++text "View"), t.getLast?=some 119 := by
      simp only [List.forall_mem_map,List.getLast?_append]
      exact fun m hm => rfl
    have hnodup : ((p.messages.map Message.name).map (·++text "View")).Nodup :=
      hd.names_nodup.map fun a b he => List.append_cancel_right he
    have hfirst : [text "message_size",text "message_name"].Nodup := by decide +kernel
    have hother : ∀ t∈[text "message_size",text "message_name"], t.getLast?≠some 119 := by
      decide +kernel
    rw [hview]
    exact List.Nodup.append hfirst hnodup fun t ht hv => hother t ht (hlast t hv)
  size_labels := (header_dispatches ht hd).size_labels
  name_labels := (header_dispatches ht hd).name_labels

/-- An emitted header whose types and names C++ takes is well formed and does what the schema
says. -/
theorem readHeader_implements {t : Bytes} (hp : parse t=.ok p)
    (hsize : ∀ m∈p.messages, m.widths<2^63-1) (htype : ∀ m∈p.messages, Cpp.isCChar crEnds m.type)
    (hname : p.Usable reserved) :
    ∃ h, readHeader crEnds (emit p)=some h ∧ h.Legal reserved ∧ h.Implements p := by
  have hspelled := parse_spelled hp
  have hd := parse_declarable hp
  have hlaid : ∀ m∈p.messages, m.Laid := fun m hm =>
    parse_laid hp hm ((hsize m hm).trans (by decide))
  exact ⟨p.header,readHeader_emit hspelled hd htype,
    header_legal hname hspelled.types_nodup hd hlaid hsize,
    header_implements hspelled.types_nodup hd⟩

/-- The keywords of C++20 and the other spellings of its operators. -/
def keywords : List String :=
  ["alignas","alignof","and","and_eq","asm","auto","bitand","bitor","bool","break","case","catch",
    "char","char8_t","char16_t","char32_t","class","compl","concept","const","consteval",
    "constexpr","constinit","const_cast","continue","co_await","co_return","co_yield","decltype",
    "default","delete","do","double","dynamic_cast","else","enum","explicit","export","extern",
    "false","float","for","friend","goto","if","inline","int","long","mutable","namespace","new",
    "noexcept","not","not_eq","nullptr","operator","or","or_eq","private","protected","public",
    "register","reinterpret_cast","requires","return","short","signed","sizeof","static",
    "static_assert","static_cast","struct","switch","template","this","thread_local","throw","true",
    "try","typedef","typeid","typename","union","unsigned","using","virtual","void","volatile",
    "wchar_t","while","xor","xor_eq"]

def isKeyword (t : Bytes) : Bool := keywords.any fun word => text word==t

/-- The header that the repository generates. -/
theorem readHeader_implements_itch : ∃ h, readHeader true (emit Itch50.protocol)=some h ∧
    h.Legal isKeyword ∧ h.Implements Itch50.protocol :=
  readHeader_implements Itch50.parse_schema (by decide +kernel) (by decide +kernel)
    ⟨by decide +kernel,by decide +kernel,by decide +kernel,by decide +kernel⟩

end Meaning

/-! ### What a header keeps -/

/-- A price is read as the number that it is. -/
def FieldType.plain : FieldType → FieldType
  | .price4 => .u32Be
  | .price8 => .u64Be
  | type => type

def Field.plain (f : Field) : Field := { f with type := f.type.plain }

def Message.plain (m : Message) : Message := { m with fields := m.fields.map Field.plain }

/-- The field type that a reader is for, and its width. -/
def Reader.field : Reader → FieldType×UInt64
  | .u8 => (.u8,1)
  | .u16Be => (.u16Be,2)
  | .u32Be => (.u32Be,4)
  | .u48Be => (.u48Be,6)
  | .u64Be => (.u64Be,8)
  | .char => (.char,1)
  | .asciiView width => (.ascii,UInt64.ofNat width)

def Accessor.field (a : Accessor) : Field :=
  ⟨a.name,a.reader.field.1,a.reader.field.2,UInt64.ofNat a.offset⟩

/-- The message that a class was written for. -/
def ViewClass.message (c : ViewClass) : Message :=
  ⟨c.name.take (c.name.length-(text "View").length),c.messageType,c.accessors.map Accessor.field,
    UInt64.ofNat c.encodedSize⟩

theorem Field.accessor_field {f : Field} (h : f.Sized) : f.accessor.field=f.plain := by
  obtain ⟨name,type,width,offset⟩ := f
  simp only [Sized] at h
  cases type with
  | ascii => simp [accessor,reader,Accessor.field,Reader.field,plain,FieldType.plain]
  | _ =>
    rw [h (by decide)]
    simp [accessor,reader,Accessor.field,Reader.field,plain,FieldType.plain,typeWidth]

theorem Message.view_message {m : Message} (h : ∀ f∈m.fields, f.Sized) :
    m.view.message=m.plain := by
  have hfields : (m.fields.map Field.accessor).map Accessor.field=m.fields.map Field.plain := by
    rw [List.map_map]
    exact List.map_congr_left fun f hf => f.accessor_field (h f hf)
  simp [view,ViewClass.message,plain,hfields]

theorem emitAccessor_plain (f : Field) : emitAccessor f.plain=emitAccessor f := by
  obtain ⟨name,type,width,offset⟩ := f
  cases type <;> rfl

theorem emitView_plain (m : Message) : emitView m.plain=emitView m := by
  have haccessors :
      (m.fields.map Field.plain).flatMap emitAccessor=m.fields.flatMap emitAccessor := by
    simp only [List.flatMap_map,emitAccessor_plain]
  simp only [emitView,emitViewRest,Message.plain,haccessors]
  rfl

/-- Emission sees neither prices nor the case of the protocol's name. -/
theorem emit_plain {p p' : Protocol} (hname : snakeNamespace p.name=snakeNamespace p'.name)
    (h : p.messages.map Message.plain=p'.messages.map Message.plain) : emit p=emit p' := by
  have hmap {f : Message → Bytes} (hf : ∀ m : Message, f m.plain=f m) :
      p.messages.flatMap f=p'.messages.flatMap f := by
    have he := congrArg (List.flatMap f) h
    simpa only [List.flatMap_map,hf] using he
  have hsizes : emitMessageSize p=emitMessageSize p' := by
    rw [emitMessageSize,emitMessageSize,emitSwitch,emitSwitch,hmap fun m => rfl]
  have hnames : emitMessageName p=emitMessageName p' := by
    rw [emitMessageName,emitMessageName,emitSwitch,emitSwitch,hmap fun m => rfl]
  rw [emit,emit,hmap emitView_plain,hsizes,hnames,emitPrologue,emitPrologue,emitEpilogue,
    emitEpilogue,hname]

/-- Two schemas have the same header exactly when they differ at most in which numbers are prices
and in the case of the protocol's name. -/
theorem emit_eq_iff {t t' : Bytes} {p p' : Protocol} (hp : parse t=.ok p) (hp' : parse t'=.ok p')
    (hsize : ∀ m∈p.messages++p'.messages, m.widths<2^63-1)
    (hchar : ∀ m∈p.messages++p'.messages, Cpp.isCChar true m.type) :
    emit p=emit p' ↔ snakeNamespace p.name=snakeNamespace p'.name ∧
      p.messages.map Message.plain=p'.messages.map Message.plain := by
  have hkept {t : Bytes} {p : Protocol} (hp : parse t=.ok p) (hs : ∀ m∈p.messages, m.widths<2^63-1)
      (hc : ∀ m∈p.messages, Cpp.isCChar true m.type) :
      readHeader true (emit p)=some p.header ∧
        p.header.classes.map ViewClass.message=p.messages.map Message.plain := by
    refine ⟨readHeader_emit (parse_spelled hp) (parse_declarable hp) hc,?_⟩
    rw [Protocol.header,List.map_map]
    exact List.map_congr_left fun m hm =>
      m.view_message (parse_laid hp hm ((hs m hm).trans (by decide))).sized
  rw [List.forall_mem_append] at hsize hchar
  obtain ⟨hread,hmessages⟩ := hkept hp hsize.1 hchar.1
  obtain ⟨hread',hmessages'⟩ := hkept hp' hsize.2 hchar.2
  constructor
  · intro he
    rw [he,hread'] at hread
    have hheader := Option.some.inj hread
    refine ⟨List.append_cancel_left (congrArg Header.path hheader).symm,?_⟩
    rw [← hmessages,← hmessages',hheader]
  · exact fun h => emit_plain h.1 h.2

/-- A price and a number, in protocols that differ in case. -/
theorem emit_eq_iff_price : ∃ p p', parse (text "protocol P; message M \"M\" \x7b a : price4; \x7d")=
      .ok p ∧ parse (text "protocol p; message M \"M\" \x7b a : u32_be; \x7d")=.ok p' ∧
    emit p=emit p' := by
  have hp : parse (text "protocol P; message M \"M\" \x7b a : price4; \x7d")=
    .ok ⟨text "P",[⟨text "M",77,[⟨text "a",.price4,4,1⟩],5⟩]⟩ := by decide +kernel
  have hp' : parse (text "protocol p; message M \"M\" \x7b a : u32_be; \x7d")=
    .ok ⟨text "p",[⟨text "M",77,[⟨text "a",.u32Be,4,1⟩],5⟩]⟩ := by decide +kernel
  refine ⟨_,_,hp,hp',(emit_eq_iff hp hp' (by decide +kernel) (by decide +kernel)).mpr ?_⟩
  decide +kernel

end MarketWire.Protocolc
