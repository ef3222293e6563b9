import MarketWire.HeaderReader

/-! An emitted header is read as the declarations that its protocol stands for. -/
namespace MarketWire.Protocolc
open Library

/-! ### View classes -/

/-- What the front end says of a message that a header can declare. -/
structure Message.Declarable (m : Message) : Prop where
  name : Named m.name
  fields : ∀ f∈m.fields, Named f.name
  names_nodup : (m.fields.map Field.name).Nodup

def Message.complaint (m : Message) : Bytes := text "invalid "++(m.name++text " message")

/-- A view class behind its keyword, as it is read. -/
def viewItems (m : Message) : List Cpp.Item :=
  Cpp.plain (m.name++text "View")++(Cpp.plain (text " \x7b\npublic:\n")++
  (Cpp.plain (text "    static constexpr char message_type = ")++([.character m.type]++
  (Cpp.plain (text ";\n")++(Cpp.plain (text "    static constexpr std::size_t encoded_size = ")++
  (Cpp.plain (toDecimal m.size.toNat)++(Cpp.plain (text ";\n")++
  (Cpp.plain (text "    explicit ")++(Cpp.plain (m.name++text "View")++
  (Cpp.plain (text "(std::span<const std::uint8_t> bytes) : bytes_(bytes) \x7b\n")++
  (Cpp.plain (text viewCheck)++([.string m.complaint]++
  (Cpp.plain (text ");\n")++(Cpp.plain (text "    \x7d\n")++
  (m.fields.flatMap (fun f => Cpp.plain (text "    [[nodiscard]] ")++Cpp.plain (accessorText f))++
  Cpp.plain (text viewEnd))))))))))))))))

/-- The class of a message. -/
def Message.view (m : Message) : ViewClass :=
  ⟨m.name++text "View",m.type,m.size.toNat,m.complaint,m.fields.map Field.accessor⟩

theorem Named.view {t : Bytes} (h : Named t) : Named (t++text "View") := by
  obtain ⟨hw,c,hc,hd⟩ := h
  refine ⟨List.forall_mem_append.mpr ⟨hw,by decide +kernel⟩,c,?_,hd⟩
  obtain ⟨t,rfl⟩ := List.head?_eq_some_iff.mp hc
  rfl

theorem readView_items {m : Message} (hm : m.Declarable) (rest : List Cpp.Item) :
    readView (viewItems m++rest)=some (m.view,rest) := by
  have hname := hm.name.view
  have haccessors : readMany (text "    [[nodiscard]] ") readAccessor
      (m.fields.flatMap (fun f => Cpp.plain (text "    [[nodiscard]] ")++
        Cpp.plain (accessorText f))++(Cpp.plain (text viewEnd)++rest)).length
      (m.fields.flatMap (fun f => Cpp.plain (text "    [[nodiscard]] ")++
        Cpp.plain (accessorText f))++(Cpp.plain (text viewEnd)++rest))=
      some (m.fields.map Field.accessor,Cpp.plain (text viewEnd)++rest) := by
    refine readMany_items (by decide +kernel) (fun f hf rest => ?_) ?_ ?_
    · exact readAccessor_plain (hm.fields f hf) rest
    · exact skip_other (i := 0) (by decide +kernel) (by decide +kernel) (by decide +kernel) rest
    · exact List.append_ne_nil_of_left_ne_nil (by decide +kernel) rest
  rw [readView,viewItems]
  simp only [List.append_assoc]
  rw [readName_plain hname (by decide +kernel)]
  simp only [skip_plain,Option.bind_eq_bind,Option.bind_some,List.singleton_append,
    Cpp.takeCharacter]
  rw [readNumber_plain m.size.toNat (by decide +kernel)]
  simp only [skip_plain,Option.bind_some,Cpp.takeString,haccessors,Option.pure_def]
  rfl

section Emitted
variable {crEnds : Bool} {m : Message}

/-- Pieces of text that are read one after the other. -/
theorem read_append {t s : Bytes} {x y : List Cpp.Item}
    (ht : transduce (Cpp.step crEnds) .code t=some (.code,x))
    (hs : transduce (Cpp.step crEnds) .code s=some (.code,y)) :
    transduce (Cpp.step crEnds) .code (t++s)=some (.code,x++y) := transduce_append_some ht hs

theorem transduce_literal {c : UInt8} (h : Cpp.isCChar crEnds c) :
    transduce (Cpp.step crEnds) .code [39,c,39]=some (.code,[.character c]) := by
  have hopen : Cpp.step crEnds .code 39=some (.opened,[]) := rfl
  rw [transduce_cons hopen,transduce_cons (Cpp.step_opened h)]
  rfl

theorem transduce_quotable {t : Bytes} (h : ∀ c∈t, Cpp.Quotable crEnds c) :
    transduce (Cpp.step crEnds) .code (34::(t++[34]))=some (.code,[.string t]) := by
  have hopen : Cpp.step crEnds .code 34=some (.string [],[]) := rfl
  rw [transduce_cons hopen,transduce_append_some (Cpp.transduce_string h [])
    (show _=some (.code,[.string ([]++t)]) from rfl)]
  rfl

theorem transduce_emitAccessors (hm : m.Spelled) :
    transduce (Cpp.step crEnds) .code (m.fields.flatMap emitAccessor)=some (.code,
      m.fields.flatMap fun f => Cpp.plain (text "    [[nodiscard]] ")++
        Cpp.plain (accessorText f)) := by
  refine transduce_flatMap fun f hf => ?_
  rw [Cpp.transduce_plain (ordinary_accessor (hm.fields f hf)),emitAccessor_eq,Cpp.plain_append]

/-- The pieces of an emitted class. -/
theorem emitView_eq (h : m.type≠39) : emitView m=text "class "++((m.name++text "View")++
    (text " \x7b\npublic:\n"++(text "    static constexpr char message_type = "++
    ([39,m.type,39]++(text ";\n"++(text "    static constexpr std::size_t encoded_size = "++
    (toDecimal m.size.toNat++(text ";\n"++(text "    explicit "++((m.name++text "View")++
    (text "(std::span<const std::uint8_t> bytes) : bytes_(bytes) \x7b\n"++(text viewCheck++
    ((34::(m.complaint++[34]))++(text ");\n"++(text "    \x7d\n"++
    (m.fields.flatMap emitAccessor++text viewEnd)))))))))))))))) := by
  have hpublic : text "View \x7b\npublic:\n"=text "View"++text " \x7b\npublic:\n" := by
    decide +kernel
  have htype : text "    static constexpr char message_type = '"=
      text "    static constexpr char message_type = "++[39] := by decide +kernel
  have hclose : text "';\n"=[39]++text ";\n" := by decide +kernel
  have hspan : text "View(std::span<const std::uint8_t> bytes) : bytes_(bytes) \x7b\n"=
      text "View"++text "(std::span<const std::uint8_t> bytes) : bytes_(bytes) \x7b\n" := by
    decide +kernel
  have hcheck : text ("        if (bytes_.size() != encoded_size || bytes_[0] != "++
      "static_cast<std::uint8_t>(message_type)) throw efe::DecodeError(\"invalid ")=
      text viewCheck++34::text "invalid " := by decide +kernel
  have hmessage : text " message\");\n"=text " message"++34::text ");\n" := by decide +kernel
  have hend : text "private:\n    std::span<const std::uint8_t> bytes_;\n\x7d;\n\n"=text viewEnd :=
    rfl
  rw [emitView,emitViewHead,emitMessageType,if_neg h,emitViewRest,hpublic,htype,hclose,hspan,hcheck,
    hmessage,hend,Message.complaint]
  simp only [List.append_assoc,List.cons_append,List.nil_append]

theorem transduce_emitView (hm : m.Spelled) (h : Cpp.isCChar crEnds m.type) :
    transduce (Cpp.step crEnds) .code (emitView m)=
      some (.code,Cpp.plain (text "class ")++viewItems m) := by
  have hview : ∀ c∈m.name++text "View", Cpp.Ordinary c :=
    List.forall_mem_append.mpr ⟨hm.name.ordinary,by decide +kernel⟩
  have hcomplaint : ∀ c∈m.complaint, Cpp.Quotable crEnds c := by
    have hends : ∀ b, ∀ t∈[text "invalid ",text " message"], ∀ c∈t, Cpp.Quotable b c := by
      decide +kernel
    exact List.forall_mem_append.mpr ⟨hends crEnds _ (by simp),
      List.forall_mem_append.mpr ⟨hm.name.quotable crEnds,hends crEnds _ (by simp)⟩⟩
  rw [emitView_eq (Cpp.ne_of_isCChar h).1]
  refine read_append (Cpp.transduce_plain (by decide +kernel)) ?_
  refine read_append (Cpp.transduce_plain hview) ?_
  refine read_append (Cpp.transduce_plain (by decide +kernel)) ?_
  refine read_append (Cpp.transduce_plain (by decide +kernel)) ?_
  refine read_append (transduce_literal h) ?_
  refine read_append (Cpp.transduce_plain (by decide +kernel)) ?_
  refine read_append (Cpp.transduce_plain (by decide +kernel)) ?_
  refine read_append (Cpp.transduce_plain (word_toDecimal _).ordinary) ?_
  refine read_append (Cpp.transduce_plain (by decide +kernel)) ?_
  refine read_append (Cpp.transduce_plain (by decide +kernel)) ?_
  refine read_append (Cpp.transduce_plain hview) ?_
  refine read_append (Cpp.transduce_plain (by decide +kernel)) ?_
  refine read_append (Cpp.transduce_plain (by decide +kernel)) ?_
  refine read_append (transduce_quotable hcomplaint) ?_
  refine read_append (Cpp.transduce_plain (by decide +kernel)) ?_
  refine read_append (Cpp.transduce_plain (by decide +kernel)) ?_
  exact read_append (transduce_emitAccessors hm) (Cpp.transduce_plain (by decide +kernel))

end Emitted

/-! ### Dispatch functions -/

section Function
variable {x : Message → List Cpp.Item} {d : List Cpp.Item} {heading : String} {ms : List Message}

theorem inSwitch_plain {t : Bytes} (h : 125∉t) : ∀ item∈Cpp.plain t, inSwitch item := by
  intro item hitem
  obtain ⟨c,hc,rfl⟩ := List.mem_map.mp hitem
  simp only [inSwitch,ne_eq,Cpp.Item.plain.injEq,decide_not,Bool.not_eq_true',decide_eq_false_iff_not]
  rintro rfl
  exact h hc

theorem readFunction_eq (hh : 125∉text heading) (hx : ∀ m∈ms, .plain 59∉x m)
    (hd : .plain 59∉d) (hxs : ∀ m∈ms, ∀ item∈x m, inSwitch item) (hds : ∀ item∈d, inSwitch item)
    (rest : List Cpp.Item) :
    readFunction heading
      (Cpp.plain (text heading)++(ms.flatMap (caseItems x)++lastItems d)++rest)=
      some (⟨ms.map fun m => (m.type,x m),d⟩,rest) := by
  let body := Cpp.plain (text heading)++(ms.flatMap (caseItems x)++
    (Cpp.plain (text "        default: return ")++(d++Cpp.plain (text ";\n    "))))
  have hends : text ";\n    \x7d\n\x7d\n\n"=text ";\n    "++switchEnd := by decide +kernel
  have hsplit : Cpp.plain (text heading)++(ms.flatMap (caseItems x)++lastItems d)=
      body++Cpp.plain switchEnd := by
    simp only [body,lastItems,hends,Cpp.plain_append,List.append_assoc]
  have hcases : ∀ item∈ms.flatMap (caseItems x), inSwitch item := by
    intro item hitem
    obtain ⟨m,hm,hitem⟩ := List.mem_flatMap.mp hitem
    simp only [caseItems,List.mem_append,List.mem_cons] at hitem
    rcases hitem with h | rfl | h | h | h
    · exact inSwitch_plain (by decide +kernel) _ h
    · rfl
    · exact inSwitch_plain (by decide +kernel) _ h
    · exact hxs m hm _ h
    · exact inSwitch_plain (by decide +kernel) _ h
  have hbody : ∀ item∈body, inSwitch item := by
    simp only [body,List.forall_mem_append]
    exact ⟨inSwitch_plain hh,hcases,inSwitch_plain (by decide +kernel),hds,
      inSwitch_plain (by decide +kernel)⟩
  have hclose : ∀ rest, Cpp.plain switchEnd++rest=
      .plain 125::(Cpp.plain (text "\n\x7d\n\n")++rest) := fun rest => by
    rw [show Cpp.plain switchEnd=.plain 125::Cpp.plain (text "\n\x7d\n\n") by decide +kernel]
    rfl
  have htake : (body++(Cpp.plain switchEnd++rest)).takeWhile inSwitch=body := by
    rw [List.takeWhile_append_of_pos hbody,hclose]
    simp [inSwitch]
  have hdrop : (body++(Cpp.plain switchEnd++rest)).dropWhile inSwitch=
      Cpp.plain switchEnd++rest := by
    rw [List.dropWhile_append_of_pos hbody,hclose]
    simp [inSwitch]
  rw [hsplit,List.append_assoc,readFunction,htake,hdrop,skip_plain,← hsplit]
  simp only [readSwitch_eq hx hd,Option.bind_eq_bind,Option.bind_some,Option.pure_def]

end Function

/-! ### Whole headers -/

/-- What the front end says of a protocol that a header can declare. -/
structure Protocol.Declarable (p : Protocol) : Prop where
  messages : ∀ m∈p.messages, m.Declarable
  names_nodup : (p.messages.map Message.name).Nodup

def namespacePath (p : Protocol) : Bytes := text "efe::generated::"++snakeNamespace p.name

/-- The header of a protocol. -/
def Protocol.header (p : Protocol) : Header where
  path := namespacePath p
  classes := p.messages.map Message.view
  sizes := ⟨p.messages.map fun m => (m.type,Cpp.plain (encodedSizeOf m)),
    Cpp.plain (text "std::nullopt")⟩
  names := ⟨p.messages.map fun m => (m.type,[.string m.name]),[.string (text "Unknown")]⟩

/-- The lines above the classes as they are read. -/
def prologueItems (p : Protocol) : List Cpp.Item :=
  Cpp.plain (text "\n")++(Cpp.plain (text "#pragma once\n\n")++(Cpp.plain (text "#include ")++
  ([.string (text "efe/byte_reader.hpp")]++(Cpp.plain (text "\n")++(Cpp.plain (text includes)++
  (Cpp.plain (text "namespace ")++(Cpp.plain (namespacePath p)++
  Cpp.plain (text " \x7b\n\n"))))))))

def sizesItems (p : Protocol) : List Cpp.Item :=
  Cpp.plain (text messageSizeHeading)++
    (p.messages.flatMap (caseItems fun m => Cpp.plain (encodedSizeOf m))++
      lastItems (Cpp.plain (text "std::nullopt")))

def namesItems (p : Protocol) : List Cpp.Item :=
  Cpp.plain (text messageNameHeading)++
    (p.messages.flatMap (caseItems fun m => [.string m.name])++
      lastItems [.string (text "Unknown")])

/-- A whole header as it is read. -/
def headerItems (p : Protocol) : List Cpp.Item :=
  prologueItems p++(p.messages.flatMap (fun m => Cpp.plain (text "class ")++viewItems m)++
    (sizesItems p++(namesItems p++Cpp.plain (text "\x7d  \n"))))

section Header
variable {crEnds : Bool} {p : Protocol}

theorem transduce_prologue (hp : p.Spelled) :
    transduce (Cpp.step crEnds) .code (emitPrologue p)=some (.code,prologueItems p) := by
  have hcomment : ∀ b, transduce (Cpp.step b) .code
      (text "// AUTO-GENERATED by efe_protocolc. Do not edit by hand.\n")=
      some (.code,Cpp.plain (text "\n")) := by decide +kernel
  have hreader : text "#include \"efe/byte_reader.hpp\"\n"=
      text "#include "++((34::(text "efe/byte_reader.hpp"++[34]))++text "\n") := by decide +kernel
  have hfile : ∀ b, ∀ c∈text "efe/byte_reader.hpp", Cpp.Quotable b c := by decide +kernel
  have hpath : text "namespace efe::generated::"=text "namespace "++text "efe::generated::" := by
    decide +kernel
  have htext : emitPrologue p=text "// AUTO-GENERATED by efe_protocolc. Do not edit by hand.\n"++
      (text "#pragma once\n\n"++(text "#include "++((34::(text "efe/byte_reader.hpp"++[34]))++
      (text "\n"++(text includes++(text "namespace "++(namespacePath p++text " \x7b\n\n"))))))) := by
    rw [emitPrologue,hreader,hpath,namespacePath]
    simp only [List.append_assoc]
    rfl
  have hordinary : ∀ c∈namespacePath p, Cpp.Ordinary c :=
    List.forall_mem_append.mpr ⟨by decide +kernel,hp.name.snakeNamespace.ordinary⟩
  rw [htext]
  refine read_append (hcomment crEnds) ?_
  refine read_append (Cpp.transduce_plain (by decide +kernel)) ?_
  refine read_append (Cpp.transduce_plain (by decide +kernel)) ?_
  refine read_append (transduce_quotable (hfile crEnds)) ?_
  refine read_append (Cpp.transduce_plain (by decide +kernel)) ?_
  refine read_append (Cpp.transduce_plain (by decide +kernel)) ?_
  refine read_append (Cpp.transduce_plain (by decide +kernel)) ?_
  exact read_append (Cpp.transduce_plain hordinary) (Cpp.transduce_plain (by decide +kernel))

theorem transduce_epilogue (hp : p.Spelled) :
    transduce (Cpp.step crEnds) .code (emitEpilogue p)=
      some (.code,Cpp.plain (text "\x7d  \n")) := by
  have hcomment : ∀ b, transduce (Cpp.step b) .code (text "\x7d  // namespace efe::generated::")=
      some (.comment,Cpp.plain (text "\x7d  ")) := by decide +kernel
  have hline : ∀ b, transduce (Cpp.step b) .comment (text "\n")=
      some (.code,Cpp.plain (text "\n")) := by decide +kernel
  have hname : ∀ c∈snakeNamespace p.name, ¬Cpp.isLineEnd crEnds c := fun c hc =>
    (hp.name.snakeNamespace.quotable crEnds c hc).2.2
  have hend : Cpp.plain (text "\x7d  \n")=Cpp.plain (text "\x7d  ")++[]++Cpp.plain (text "\n") := by
    decide +kernel
  rw [hend]
  exact transduce_append_some (transduce_append_some (hcomment crEnds)
    (Cpp.transduce_comment hname)) (hline crEnds)

/-- The text of a header, item by item. -/
theorem read_emit (hp : p.Spelled) (h : ∀ m∈p.messages, Cpp.isCChar crEnds m.type) :
    Cpp.read crEnds (emit p)=some (headerItems p) := by
  have hunknown : Word (text "Unknown") := by
    unfold Word
    decide +kernel
  refine Cpp.read_eq_some.mpr ?_
  refine read_append (transduce_prologue hp) ?_
  refine read_append (transduce_flatMap fun m hm => transduce_emitView (hp.messages m hm) (h m hm))
    ?_
  refine read_append (transduce_emitSwitch (by decide +kernel) h
    (fun m hm => transduce_encodedSizeOf (hp.messages m hm))
    (Cpp.transduce_plain (t := text "std::nullopt") (by decide +kernel))) ?_
  exact read_append (transduce_emitSwitch (x := fun m => [.string m.name]) (by decide +kernel) h
    (fun m hm => transduce_quoted (hp.messages m hm).name) (transduce_quoted hunknown))
    (transduce_epilogue hp)

/-- The declarations of a header. -/
theorem readHeader_emit (hp : p.Spelled) (hd : p.Declarable)
    (h : ∀ m∈p.messages, Cpp.isCChar crEnds m.type) : readHeader crEnds (emit p)=some p.header := by
  have hclasses (rest : List Cpp.Item) : readMany (text "class ") readView
      (p.messages.flatMap (fun m => Cpp.plain (text "class ")++viewItems m)++
        (sizesItems p++rest)).length
      (p.messages.flatMap (fun m => Cpp.plain (text "class ")++viewItems m)++
        (sizesItems p++rest))=some (p.messages.map Message.view,sizesItems p++rest) := by
    refine readMany_items (by decide +kernel)
      (fun m hm rest => readView_items (hd.messages m hm) rest) ?_ ?_
    · rw [sizesItems,List.append_assoc]
      exact skip_other (i := 0) (by decide +kernel) (by decide +kernel) (by decide +kernel) _
    · rw [sizesItems,List.append_assoc]
      exact List.append_ne_nil_of_left_ne_nil (by decide +kernel) _
  have hword {m : Message} (hm : m∈p.messages) : ∀ item∈Cpp.plain (encodedSizeOf m), inSwitch item :=
    inSwitch_plain fun hb => by
      rcases List.mem_append.mp hb with hb | hb
      · exact absurd ((hp.messages m hm).name 125 hb) (by decide)
      · revert hb
        decide +kernel
  have hsizes (rest : List Cpp.Item) :
      readFunction messageSizeHeading (sizesItems p++rest)=some (p.header.sizes,rest) :=
    readFunction_eq (by decide +kernel)
      (fun m hm => not_mem_plain (encodedSizeOf_semicolon (hp.messages m hm)))
      (not_mem_plain (by decide +kernel)) (fun m hm => hword hm) (inSwitch_plain (by decide +kernel))
      rest
  have hnames (rest : List Cpp.Item) :
      readFunction messageNameHeading (namesItems p++rest)=some (p.header.names,rest) :=
    readFunction_eq (by decide +kernel) (by simp) (by simp) (by simp [inSwitch])
      (by simp [inSwitch]) rest
  have hpath : ∀ c∈namespacePath p, isWord c || c==58 := by
    refine List.forall_mem_append.mpr ⟨by decide +kernel,fun c hc => ?_⟩
    simp [hp.name.snakeNamespace c hc]
  rw [readHeader,read_emit hp h,headerItems,prologueItems]
  simp only [List.append_assoc,List.cons_append,List.nil_append,Option.bind_eq_bind,
    Option.bind_some,skip_plain,Cpp.takeString]
  rw [readQualified_plain hpath (by decide +kernel)]
  simp only [skip_plain,Option.bind_some,hclasses,hsizes,hnames,and_self,if_true]
  rfl

end Header

end MarketWire.Protocolc
