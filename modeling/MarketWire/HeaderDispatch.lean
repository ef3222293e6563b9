import MarketWire.HeaderText

/-! The dispatch of an emitted header: which message types its character literals are, and what its
two functions return for every character. -/
namespace MarketWire.Protocolc
open Library

/-! ### What the functions return -/

/-- The size that an expression of `message_size` names: none, or a constant of a class. -/
def Header.sizeOf (h : Header) (expr : List Cpp.Item) : Option (Option Nat) :=
  if expr=Cpp.plain (text "std::nullopt") then some none
  else do
    let (name,rest) ← readName expr
    if rest=Cpp.plain (text "::encoded_size") then
      (h.classes.find? fun c => c.name=name).map fun c => some c.encodedSize
    else none

/-- A call of `message_size`. -/
def Header.messageSize (h : Header) (type : UInt8) : Option (Option Nat) :=
  h.sizeOf (h.sizes.returns type)

/-- A call of `message_name`. -/
def Header.messageName (h : Header) (type : UInt8) : Option Bytes :=
  (Cpp.takeString (h.names.returns type)).map Prod.fst

/-- The constants and functions of a header are those of a protocol: the labels of each switch are
distinct, and a type has the size and the name of its message. -/
structure Header.Dispatches (h : Header) (p : Protocol) : Prop where
  constants : h.classes.map (fun c => (c.name,c.messageType,c.encodedSize))=
    p.messages.map fun m => (m.name++text "View",m.type,m.size.toNat)
  size_labels : (h.sizes.cases.map Prod.fst).Nodup
  name_labels : (h.names.cases.map Prod.fst).Nodup
  messageSize : ∀ c, h.messageSize c=
    some ((p.messages.find? fun m => m.type=c).map fun m => m.size.toNat)
  messageName : ∀ c, h.messageName c=
    some (((p.messages.find? fun m => m.type=c).map Message.name).getD (text "Unknown"))

/-- The emitted header as C++ reads it: the character literals are the message types, once in the
views and once in each dispatch function, and the functions dispatch on them. -/
structure HeaderMatches (crEnds : Bool) (p : Protocol) : Prop where
  literals : (Cpp.read crEnds (emit p)).map Cpp.characters=
    some (p.messages.map Message.type++(p.messages.map Message.type++p.messages.map Message.type))
  dispatch : ∃ h, readHeader crEnds (emit p)=some h ∧ h.Dispatches p

/-! ### What the front end guarantees -/

theorem Lexeme.Valid.named {t : Bytes} (h : (Lexeme.ident t).Valid) : Named t := by
  refine ⟨h.word,?_⟩
  cases h with
  | ident hc ht => exact ⟨_,rfl,not_isDigit hc⟩

theorem MessageDecl.layout_named {d : MessageDecl} {l : List Lexeme} (hd : d.Tokens l)
    (hl : ∀ x∈l, x.Valid) : Named d.layout.name ∧ ∀ f∈d.layout.fields, Named f.name := by
  cases hd with
  | mk hfields =>
    refine ⟨?_,fun f hf => ?_⟩
    · rw [d.layout_name]
      exact (hl _ (by simp)).named
    · have hmem := List.mem_map_of_mem (f := Field.declared) hf
      rw [d.layout_fields] at hmem
      obtain ⟨g,hg,he⟩ := List.mem_map.mp hmem
      obtain ⟨r,hr,hsub⟩ := hfields.mem hg
      cases hr with
      | mk ht =>
        rw [← (Prod.mk.inj he).1]
        refine (hl (.ident _) ?_).named
        have hin := hsub _ List.mem_cons_self
        simp [hin]

theorem MessageDecl.layout_names_nodup (d : MessageDecl) :
    (d.layout.fields.map Field.name).Nodup := by
  have h := congrArg (List.map Prod.fst) d.layout_fields
  simp only [List.map_map,Function.comp_def,Field.declared,FieldDecl.declared] at h
  exact h ▸ d.names_nodup

/-- An accepted schema can be declared. -/
theorem parse_declarable {t : Bytes} {p : Protocol} (hp : parse t=.ok p) : p.Declarable := by
  obtain ⟨s,⟨l,hs,hl⟩,rfl⟩ := parse_ok.mp hp
  have hvalid := Written.valid hl
  cases hs with
  | mk hm =>
    constructor
    · intro m hmem
      obtain ⟨d,hd,rfl⟩ := List.mem_map.mp hmem
      obtain ⟨r,hr,hsub⟩ := hm.mem hd
      obtain ⟨hname,hfields⟩ :=
        MessageDecl.layout_named hr fun x hx => hvalid x (by simp [hsub x hx])
      exact ⟨hname,hfields,d.layout_names_nodup⟩
    · have hnames : s.protocol.messages.map Message.name=s.messages.map MessageDecl.name := by
        rw [Schema.protocol,List.map_map]
        exact List.map_congr_left fun d _ => d.layout_name
      rw [hnames]
      exact s.names_nodup

/-! ### Every type finds its message -/

section Dispatch
variable {crEnds : Bool} {p : Protocol} {m : Message}

/-- The class that a size expression names. -/
theorem find?_view {ms : List Message} (h : (ms.map Message.name).Nodup) (hm : m∈ms) :
    (ms.map Message.view).find? (fun c => c.name=m.name++text "View")=some m.view := by
  induction ms with
  | nil => cases hm
  | cons m' ms ih =>
    obtain ⟨hnew,hrest⟩ := List.nodup_cons.mp h
    rw [List.map_cons]
    obtain rfl | hm := List.mem_cons.mp hm
    · exact List.find?_cons_of_pos (by simp [Message.view])
    · rw [List.find?_cons_of_neg,ih hrest hm]
      simp only [Message.view,decide_eq_true_eq,List.append_cancel_right_eq]
      intro he
      exact hnew (he ▸ List.mem_map_of_mem hm)

theorem sizeOf_encodedSizeOf (hd : p.Declarable) (hm : m∈p.messages) :
    p.header.sizeOf (Cpp.plain (encodedSizeOf m))=some (some m.size.toNat) := by
  have hsplit : Cpp.plain (encodedSizeOf m)=
      Cpp.plain (m.name++text "View")++(Cpp.plain (text "::encoded_size")++[]) := by
    rw [encodedSizeOf,show text "View::encoded_size"=text "View"++text "::encoded_size" by
      decide +kernel,← List.append_assoc,Cpp.plain_append,List.append_nil]
  have hne : Cpp.plain (encodedSizeOf m)≠Cpp.plain (text "std::nullopt") := by
    intro he
    have hlen := congrArg List.length he
    have h18 : (text "View::encoded_size").length=18 := by decide +kernel
    have h12 : (text "std::nullopt").length=12 := by decide +kernel
    simp only [Cpp.plain,List.length_map,encodedSizeOf,List.length_append,h18,h12] at hlen
    omega
  rw [Header.sizeOf,if_neg hne,hsplit,
    readName_plain (hd.messages m hm).name.view (by decide +kernel)]
  simp only [Option.bind_eq_bind,Option.bind_some,List.append_nil,if_true]
  change (List.find? _ (p.messages.map Message.view)).map _=_
  rw [find?_view hd.names_nodup hm]
  rfl

theorem header_dispatches (ht : (p.messages.map Message.type).Nodup) (hd : p.Declarable) :
    p.header.Dispatches p where
  constants := by
    rw [Protocol.header,List.map_map]
    rfl
  size_labels := by
    simpa [Protocol.header,Function.comp_def] using ht
  name_labels := by
    simpa [Protocol.header,Function.comp_def] using ht
  messageSize c := by
    rw [Header.messageSize,Protocol.header,Switch.returns_of_messages]
    cases hf : p.messages.find? fun m => m.type=c with
    | none => exact if_pos rfl
    | some m => exact sizeOf_encodedSizeOf hd (List.mem_of_find?_eq_some hf)
  messageName c := by
    rw [Header.messageName,Protocol.header,Switch.returns_of_messages]
    cases p.messages.find? fun m => m.type=c <;> rfl

/-! ### The character literals -/

theorem characters_view (m : Message) : Cpp.characters (viewItems m)=[m.type] := by
  have hfields : Cpp.characters (m.fields.flatMap fun f =>
      Cpp.plain (text "    [[nodiscard]] ")++Cpp.plain (accessorText f))=[] := by
    rw [Cpp.characters_flatMap (g := fun _ => []) (fun f _ => by simp)]
    simp
  simp [viewItems,hfields]

/-- Pieces that hold the literal of their message and no other. -/
theorem characters_messages {f : Message → List Cpp.Item}
    (hf : ∀ m, Cpp.characters (f m)=[m.type]) (ms : List Message) :
    Cpp.characters (ms.flatMap f)=ms.map Message.type := by
  rw [List.map_eq_flatMap]
  exact Cpp.characters_flatMap fun m _ => hf m

theorem characters_cases {x : Message → List Cpp.Item} (hx : ∀ m, Cpp.characters (x m)=[])
    (ms : List Message) : Cpp.characters (ms.flatMap (caseItems x))=ms.map Message.type :=
  characters_messages (fun m => by simp [caseItems,hx]) ms

/-- The literals of a header, in order. -/
theorem characters_header (p : Protocol) : Cpp.characters (headerItems p)=
    p.messages.map Message.type++(p.messages.map Message.type++p.messages.map Message.type) := by
  have hviews := characters_messages (f := fun m => Cpp.plain (text "class ")++viewItems m)
    (fun m => by simp [characters_view]) p.messages
  have hsizes := characters_cases (x := fun m => Cpp.plain (encodedSizeOf m))
    (fun m => Cpp.characters_plain _) p.messages
  have hnames := characters_cases (x := fun m => [.string m.name]) (fun _ => rfl) p.messages
  rw [headerItems,prologueItems,sizesItems,namesItems]
  simp [hviews,hsizes,hnames,lastItems]

/-- A type that a literal cannot hold as it is spoils the header. -/
theorem read_emit_none (hp : p.Spelled) (hm : m∈p.messages) (h : ¬Cpp.isCChar crEnds m.type) :
    Cpp.read crEnds (emit p)=none := by
  have hviews : transduce (Cpp.step crEnds) .code (p.messages.flatMap emitView)=none := by
    refine transduce_flatMap_none (fun m' hm' => ?_) hm (refused_view (hp.messages m hm) h)
    by_cases hc : Cpp.isCChar crEnds m'.type
    · exact .inl ⟨_,transduce_emitView (hp.messages m' hm') hc⟩
    · exact .inr (refused_view (hp.messages m' hm') hc)
  rw [Cpp.read,emit,transduce_append_right (transduce_prologue hp) (transduce_append_left hviews _)]

theorem headerMatches_of_isCChar (hp : p.Spelled) (hd : p.Declarable)
    (h : ∀ m∈p.messages, Cpp.isCChar crEnds m.type) : HeaderMatches crEnds p where
  literals := by rw [read_emit hp h,Option.map_some,characters_header]
  dispatch := ⟨p.header,readHeader_emit hp hd h,header_dispatches hp.types_nodup hd⟩

theorem isCChar_iff {c : UInt8} (hascii : c<128) (hline : c≠newline) :
    Cpp.isCChar crEnds c ↔ c≠39 ∧ c≠92 ∧ (crEnds=true → c≠13) := by
  have hnot : ¬c=10 := hline
  cases crEnds <;>
    simp [Cpp.isCChar,Cpp.isLineEnd,Cpp.singleQuote,Cpp.backslash,hascii,hnot,and_assoc]

/-- C++ reads the header of an accepted schema with ASCII types as the schema says exactly when no
type is a quote or a backslash, nor a carriage return where that ends a line. -/
theorem headerMatches_iff {t : Bytes} (hp : parse t=.ok p) (hascii : ∀ m∈p.messages, m.type<128) :
    HeaderMatches crEnds p ↔
      ∀ m∈p.messages, m.type≠39 ∧ m.type≠92 ∧ (crEnds=true → m.type≠13) := by
  have hspelled := parse_spelled hp
  have hchar : ∀ m∈p.messages, (Cpp.isCChar crEnds m.type ↔
      m.type≠39 ∧ m.type≠92 ∧ (crEnds=true → m.type≠13)) := fun m hm =>
    isCChar_iff (hascii m hm) (hspelled.messages m hm).type
  constructor
  · intro h m hm
    rw [← hchar m hm]
    by_contra hc
    have hread := h.literals
    rw [read_emit_none hspelled hm hc] at hread
    cases hread
  · intro h
    exact headerMatches_of_isCChar hspelled (parse_declarable hp) fun m hm =>
      (hchar m hm).mpr (h m hm)

theorem headerMatches_two : ∃ p,
    parse (text ("protocol P; message Add \"A\" \x7b price : u32_be; \x7d "++
      "message Gap \"/\" \x7b \x7d"))=.ok p ∧ ∀ crEnds, HeaderMatches crEnds p ∧
    ∃ h, readHeader crEnds (emit p)=some h ∧ h.messageSize 65=some (some 5) ∧
      h.messageSize 66=some none ∧ h.messageName 47=some (text "Gap") := by
  have hp : parse (text ("protocol P; message Add \"A\" \x7b price : u32_be; \x7d "++
      "message Gap \"/\" \x7b \x7d"))=.ok ⟨text "P",[⟨text "Add",65,[⟨text "price",.u32Be,4,1⟩],5⟩,
        ⟨text "Gap",47,[],1⟩]⟩ := by decide +kernel
  refine ⟨_,hp,fun crEnds => ?_⟩
  have hmatches : HeaderMatches crEnds _ := (headerMatches_iff hp (by decide)).mpr
    (by cases crEnds <;> decide)
  obtain ⟨h,hread,hd⟩ := hmatches.dispatch
  exact ⟨hmatches,h,hread,hd.messageSize 65,hd.messageSize 66,hd.messageName 47⟩

/-- The quote as a message type: the view's literal does not end, and the labels are empty. -/
theorem header_quote : parse (text "protocol P; message M \"'\" \x7b \x7d")=
      .ok ⟨text "P",[⟨text "M",39,[],1⟩]⟩ ∧
    ∀ crEnds, Cpp.read crEnds (emit ⟨text "P",[⟨text "M",39,[],1⟩]⟩)=none ∧
      ¬HeaderMatches crEnds ⟨text "P",[⟨text "M",39,[],1⟩]⟩ := by
  have hread : ∀ crEnds, Cpp.read crEnds (emit ⟨text "P",[⟨text "M",39,[],1⟩]⟩)=none := by
    decide +kernel
  refine ⟨by decide +kernel,fun crEnds => ⟨hread crEnds,fun h => ?_⟩⟩
  have hliterals := h.literals
  rw [hread] at hliterals
  cases hliterals

end Dispatch

end MarketWire.Protocolc
