import MarketWire.SchemaParse
import MarketWire.GeneratedViews
import MarketWire.Library.CppText

/-! The text of the emitted header, and how C++ reads the message types in it. -/
namespace MarketWire.Protocolc
open Library

/-! ### Emission -/

/-- `std::tolower` of the "C" locale. -/
def toLower (c : UInt8) : UInt8 := if 65≤c ∧ c≤90 then c+32 else c

def snakeNamespace (name : Bytes) : Bytes := name.map toLower

/-- `std::to_string`, which is also what the stream writes for a size. -/
def toDecimal (n : Nat) : Bytes :=
  if n<10 then [UInt8.ofNat (48+n)] else toDecimal (n/10)++[UInt8.ofNat (48+n%10)]

def AccessorType.spelling : AccessorType → Bytes
  | .uint8 => text "std::uint8_t"
  | .uint16 => text "std::uint16_t"
  | .uint32 => text "std::uint32_t"
  | .uint64 => text "std::uint64_t"
  | .char => text "char"
  | .stringView => text "std::string_view"

/-- A call of a reader at the offset of a field. -/
def readerCall (reader : String) (f : Field) (more : Bytes) : Bytes :=
  text "efe::"++text reader++text "(bytes_, "++toDecimal f.offset.toNat++more++text ")"

def accessorExprText (f : Field) : Bytes :=
  match f.type with
  | .u8 => readerCall "read_u8" f []
  | .u16Be => readerCall "read_u16_be" f []
  | .u32Be | .price4 => readerCall "read_u32_be" f []
  | .u48Be => readerCall "read_u48_be" f []
  | .u64Be | .price8 => readerCall "read_u64_be" f []
  | .char => readerCall "read_char" f []
  | .ascii => readerCall "read_ascii_view" f (text ", "++toDecimal f.width.toNat)

def emitAccessor (f : Field) : Bytes :=
  text "    [[nodiscard]] "++(accessorType f.type).spelling++text " "++f.name++
    text "() const \x7b return "++accessorExprText f++text "; \x7d\n"

def emitPrologue (p : Protocol) : Bytes :=
  text "// AUTO-GENERATED by efe_protocolc. Do not edit by hand.\n"++
  text "#pragma once\n\n"++
  text "#include \"efe/byte_reader.hpp\"\n"++
  text ("#include <cstddef>\n#include <cstdint>\n#include <optional>\n#include <span>\n"++
    "#include <string_view>\n\n")++
  text "namespace efe::generated::"++snakeNamespace p.name++text " \x7b\n\n"

/-- The first lines of a view class, up to the literal of its message type. -/
def emitViewHead (m : Message) : Bytes :=
  text "class "++m.name++text "View \x7b\npublic:\n"++
  text "    static constexpr char message_type = '"

/-- The literal, from behind its opening quote to the end of its line. -/
def emitMessageType (m : Message) : Bytes :=
  [if m.type=39 then 92 else m.type]++text "';\n"

/-- The rest of a view class. -/
def emitViewRest (m : Message) : Bytes :=
  text "    static constexpr std::size_t encoded_size = "++toDecimal m.size.toNat++text ";\n"++
  text "    explicit "++m.name++
  text "View(std::span<const std::uint8_t> bytes) : bytes_(bytes) \x7b\n"++
  text ("        if (bytes_.size() != encoded_size || bytes_[0] != "++
    "static_cast<std::uint8_t>(message_type)) throw efe::DecodeError(\"invalid ")++
  m.name++text " message\");\n"++
  text "    \x7d\n"++
  m.fields.flatMap emitAccessor++
  text "private:\n    std::span<const std::uint8_t> bytes_;\n\x7d;\n\n"

def emitView (m : Message) : Bytes := emitViewHead m++(emitMessageType m++emitViewRest m)

/-- A case of the two dispatch functions. -/
def emitCase (expr : Message → Bytes) (m : Message) : Bytes :=
  text "        case '"++([m.type]++text "': return "++expr m++text ";\n")

/-- A dispatch function, from its heading to the empty line behind it. -/
def emitSwitch (heading : String) (expr : Message → Bytes) (otherwise : Bytes) (p : Protocol) :
    Bytes :=
  text heading++(p.messages.flatMap (emitCase expr)++
    (text "        default: return "++otherwise++text ";\n    \x7d\n\x7d\n\n"))

def messageSizeHeading : String :=
  "inline std::optional<std::size_t> message_size(char type) noexcept \x7b\n    switch (type) \x7b\n"

def messageNameHeading : String :=
  "inline std::string_view message_name(char type) noexcept \x7b\n    switch (type) \x7b\n"

def encodedSizeOf (m : Message) : Bytes := m.name++text "View::encoded_size"

def quoted (t : Bytes) : Bytes := text "\""++t++text "\""

def emitMessageSize (p : Protocol) : Bytes :=
  emitSwitch messageSizeHeading encodedSizeOf (text "std::nullopt") p

def emitMessageName (p : Protocol) : Bytes :=
  emitSwitch messageNameHeading (fun m => quoted m.name) (quoted (text "Unknown")) p

def emitEpilogue (p : Protocol) : Bytes :=
  text "\x7d  // namespace efe::generated::"++snakeNamespace p.name++text "\n"

/-- What `emit` writes to the output file. -/
def emit (p : Protocol) : Bytes :=
  emitPrologue p++(p.messages.flatMap emitView++
    (emitMessageSize p++(emitMessageName p++emitEpilogue p)))

/-! ### What the front end lets through -/

theorem Written.valid {last : Kind} {l : List Lexeme} {t : Bytes} (h : Written last l t) :
    ∀ x∈l, x.Valid := by
  induction h with
  | done ht => simp
  | token hs hx hj ht ih => exact List.forall_mem_cons.mpr ⟨hx,ih⟩

theorem Each.mem {α : Type} {R : α → List Lexeme → Prop} {as : List α} {l : List Lexeme}
    (h : Each R as l) {a : α} (ha : a∈as) : ∃ r, R a r ∧ ∀ x∈r, x∈l := by
  induction h with
  | nil => cases ha
  | cons hb hr ih =>
    obtain rfl | ha := List.mem_cons.mp ha
    · exact ⟨_,hb,fun x hx => List.mem_append_left _ hx⟩
    · obtain ⟨r,hra,hsub⟩ := ih ha
      exact ⟨r,hra,fun x hx => List.mem_append_right _ (hsub x hx)⟩

/-- Every character continues an identifier. -/
def Word (t : Bytes) : Prop := ∀ c∈t, isWord c

theorem Lexeme.Valid.word {t : Bytes} (h : (Lexeme.ident t).Valid) : Word t := by
  cases h with
  | ident hc ht => exact List.forall_mem_cons.mpr ⟨isWord_iff.mpr (.inl hc),ht⟩

/-- A message as the front end hands it to emission. -/
structure Message.Spelled (m : Message) : Prop where
  name : Word m.name
  fields : ∀ f∈m.fields, Word f.name
  type : m.type≠newline

structure Protocol.Spelled (p : Protocol) : Prop where
  name : Word p.name
  messages : ∀ m∈p.messages, m.Spelled
  types_nodup : (p.messages.map Message.type).Nodup

theorem MessageDecl.layout_spelled {d : MessageDecl} {l : List Lexeme} (hd : d.Tokens l)
    (hl : ∀ x∈l, x.Valid) : d.layout.Spelled := by
  cases hd with
  | mk hfields =>
    refine ⟨?_,fun f hf => ?_,?_⟩
    · rw [d.layout_name]
      exact (hl _ (by simp)).word
    · have hmem := List.mem_map_of_mem (f := Field.declared) hf
      rw [d.layout_fields] at hmem
      obtain ⟨g,hg,he⟩ := List.mem_map.mp hmem
      obtain ⟨r,hr,hsub⟩ := hfields.mem hg
      cases hr with
      | mk ht =>
        rw [← (Prod.mk.inj he).1]
        refine (hl (.ident _) ?_).word
        have hin := hsub _ List.mem_cons_self
        simp [hin]
    · rw [d.layout_type]
      have hs : (Lexeme.string [d.type]).Valid := hl _ (by simp)
      cases hs with
      | string hq hn => exact fun he => hn (by simp [he])

/-- An accepted schema has words for names, and no type is a line feed. -/
theorem parse_spelled {t : Bytes} {p : Protocol} (hp : parse t=.ok p) : p.Spelled := by
  obtain ⟨s,⟨l,hs,hl⟩,rfl⟩ := parse_ok.mp hp
  have hvalid := Written.valid hl
  cases hs with
  | mk hm =>
    refine ⟨(hvalid _ (by simp) : (Lexeme.ident s.name).Valid).word,?_,?_⟩
    · rw [Schema.protocol,List.forall_mem_map]
      intro d hd
      obtain ⟨r,hr,hsub⟩ := hm.mem hd
      exact MessageDecl.layout_spelled hr fun x hx => hvalid x (by simp [hsub x hx])
    · have htypes : s.protocol.messages.map Message.type=s.messages.map MessageDecl.type := by
        rw [Schema.protocol,List.map_map]
        exact List.map_congr_left fun d _ => d.layout_type
      rw [htypes]
      exact s.types_nodup

/-! ### Reading the text back -/

theorem Word.ordinary {t : Bytes} (h : Word t) : ∀ c∈t, Cpp.Ordinary c := by
  intro c hc
  have hw := h c hc
  refine ⟨?_,?_,?_⟩ <;> rintro rfl <;> exact absurd hw (by decide)

theorem Word.quotable {t : Bytes} (h : Word t) (crEnds : Bool) : ∀ c∈t, Cpp.Quotable crEnds c := by
  intro c hc
  have hw := h c hc
  refine ⟨?_,?_,fun hend => ?_⟩
  · rintro rfl
    exact absurd hw (by decide)
  · rintro rfl
    exact absurd hw (by decide)
  · simp only [Cpp.isLineEnd,Bool.or_eq_true,Bool.and_eq_true,beq_iff_eq] at hend
    rcases hend with rfl | ⟨-,rfl⟩ <;> exact absurd hw (by decide)

theorem Word.snakeNamespace {t : Bytes} (h : Word t) : Word (snakeNamespace t) := by
  intro c hc
  obtain ⟨d,hd,rfl⟩ := List.mem_map.mp hc
  have hw := h d hd
  unfold toLower
  split_ifs with hup
  · rw [isWord_iff,isAlpha_iff]
    rw [UInt8.le_iff_toNat_le,UInt8.le_iff_toNat_le] at hup
    change 65≤d.toNat ∧ d.toNat≤90 at hup
    have hadd : (d+32).toNat=d.toNat+32 := by
      rw [UInt8.toNat_add]
      exact Nat.mod_eq_of_lt (by simp; omega)
    omega
  · exact hw

theorem toNat_digit {d : Nat} (h : d<10) : (UInt8.ofNat (48+d)).toNat=48+d :=
  UInt8.toNat_ofNat_of_lt' (by simp only [UInt8.size]; omega)

theorem toDecimal_digits (n : Nat) : ∀ c∈toDecimal n, isDigit c := by
  have hdigit (d : Nat) (hd : d<10) : isDigit (UInt8.ofNat (48+d)) := by
    rw [isDigit_iff,toNat_digit hd]
    omega
  induction n using Nat.strong_induction_on with
  | _ n ih =>
    rw [toDecimal]
    split_ifs with h
    · intro c hc
      rw [List.mem_singleton.mp hc]
      exact hdigit n h
    · refine List.forall_mem_append.mpr ⟨ih (n/10) (by omega),fun c hc => ?_⟩
      rw [List.mem_singleton.mp hc]
      exact hdigit _ (Nat.mod_lt _ (by decide))

theorem word_toDecimal (n : Nat) : Word (toDecimal n) := fun c hc =>
  isWord_iff.mpr (.inr (toDecimal_digits n c hc))

/-! The literal of a message type, at each of the places that write one. -/
section Literal
variable {crEnds : Bool} {m : Message}

theorem text_close : text "';\n"=[39,59,10] := by decide +kernel

/-- Any other type is refused: for the quote and the backslash the closing quote is escaped. -/
theorem refused_messageType (h : ¬Cpp.isCChar crEnds m.type) :
    transduce (Cpp.step crEnds) .opened (emitMessageType m)=none := by
  have hescape : transduce (Cpp.step crEnds) .opened [92,39,59,10]=none := rfl
  rw [emitMessageType,text_close]
  by_cases hq : m.type=39
  · rw [if_pos hq]
    exact hescape
  rw [if_neg hq]
  by_cases hb : m.type=92
  · rw [hb]
    exact hescape
  exact transduce_cons_none (Cpp.step_opened_none hb h)

theorem transduce_case (crEnds : Bool) : transduce (Cpp.step crEnds) .code (text "        case '")=
    some (.opened,Cpp.plain (text "        case ")) := by
  revert crEnds
  decide +kernel

theorem transduce_return (crEnds : Bool) (v : UInt8) :
    transduce (Cpp.step crEnds) (.closing v) (text "': return ")=
      some (.code,.character v::Cpp.plain (text ": return ")) := by
  have hsplit : text "': return "=39::text ": return " := by decide +kernel
  have hclose : Cpp.step crEnds (.closing v) 39=some (.code,[.character v]) := rfl
  have hplain : ∀ c∈text ": return ", Cpp.Ordinary c := by decide +kernel
  rw [hsplit,transduce_cons hclose,Cpp.transduce_plain hplain]
  rfl

theorem transduce_emitCase {expr : Message → Bytes} {x : Message → List Cpp.Item}
    (h : Cpp.isCChar crEnds m.type)
    (he : transduce (Cpp.step crEnds) .code (expr m)=some (.code,x m)) :
    transduce (Cpp.step crEnds) .code (emitCase expr m)=some (.code,
      Cpp.plain (text "        case ")++(.character m.type::
        (Cpp.plain (text ": return ")++(x m++Cpp.plain (text ";\n"))))) := by
  have hend : transduce (Cpp.step crEnds) .code (text ";\n")=
      some (.code,Cpp.plain (text ";\n")) := Cpp.transduce_plain (by decide +kernel)
  have hmiddle := transduce_append_some (transduce_append_some
    (transduce_return crEnds m.type) he) hend
  rw [emitCase,List.append_assoc,List.append_assoc]
  refine transduce_append_some (transduce_case crEnds) ?_
  rw [List.singleton_append,transduce_cons (Cpp.step_opened h),← List.append_assoc,hmiddle]
  simp

end Literal

/-! The view classes. -/
section View
variable {crEnds : Bool} {m : Message}

theorem ordinary_accessor {f : Field} (hf : Word f.name) : ∀ c∈emitAccessor f, Cpp.Ordinary c := by
  have hoff := (word_toDecimal f.offset.toNat).ordinary
  have hwidth := (word_toDecimal f.width.toNat).ordinary
  have htype : ∀ c∈(accessorType f.type).spelling, Cpp.Ordinary c := by
    cases accessorType f.type <;> decide +kernel
  have hcall (reader : String) (hr : ∀ c∈text reader, Cpp.Ordinary c) (more : Bytes)
      (hm : ∀ c∈more, Cpp.Ordinary c) : ∀ c∈readerCall reader f more, Cpp.Ordinary c := by
    simp only [readerCall,List.forall_mem_append]
    exact ⟨⟨⟨⟨⟨by decide +kernel,hr⟩,by decide +kernel⟩,hoff⟩,hm⟩,by decide +kernel⟩
  have hexpr : ∀ c∈accessorExprText f, Cpp.Ordinary c := by
    unfold accessorExprText
    cases f.type with
    | ascii =>
      exact hcall _ (by decide +kernel) _ (List.forall_mem_append.mpr ⟨by decide +kernel,hwidth⟩)
    | _ => exact hcall _ (by decide +kernel) [] (by simp)
  simp only [emitAccessor,List.forall_mem_append]
  exact ⟨⟨⟨⟨⟨⟨by decide +kernel,htype⟩,by decide +kernel⟩,hf.ordinary⟩,by decide +kernel⟩,hexpr⟩,
    by decide +kernel⟩

theorem transduce_viewHead (crEnds : Bool) (hm : m.Spelled) :
    ∃ items, transduce (Cpp.step crEnds) .code (emitViewHead m)=some (.opened,items) := by
  have hfirst : ∀ c∈text "class "++m.name++text "View \x7b\npublic:\n", Cpp.Ordinary c := by
    simp only [List.forall_mem_append]
    exact ⟨⟨by decide +kernel,hm.name.ordinary⟩,by decide +kernel⟩
  have hquote : ∀ b, transduce (Cpp.step b) .code
      (text "    static constexpr char message_type = '")=
      some (.opened,Cpp.plain (text "    static constexpr char message_type = ")) := by
    decide +kernel
  exact ⟨_,transduce_append_some (Cpp.transduce_plain hfirst) (hquote crEnds)⟩

theorem refused_view (hm : m.Spelled) (h : ¬Cpp.isCChar crEnds m.type) :
    transduce (Cpp.step crEnds) .code (emitView m)=none := by
  obtain ⟨x,hx⟩ := transduce_viewHead crEnds hm
  exact transduce_append_right hx (transduce_append_left (refused_messageType h) _)

end View

/-! ### Dispatch -/

/-- What follows a piece of plain text. -/
def skip (t : Bytes) (items : List Cpp.Item) : Option (List Cpp.Item) :=
  if (Cpp.plain t).isPrefixOf items then some (items.drop t.length) else none

/-- A switch that returns an expression in each case. -/
structure Switch where
  cases : List (UInt8×List Cpp.Item)
  otherwise : List Cpp.Item
  deriving DecidableEq, Repr

/-- What is returned for a value. -/
def Switch.returns (s : Switch) (c : UInt8) : List Cpp.Item :=
  match s.cases.find? fun x => x.1=c with
  | some x => x.2
  | none => s.otherwise

/-- The characters of an expression. -/
def inExpression (item : Cpp.Item) : Bool := item≠.plain 59

/-- The cases of a switch, up to the default and the end of the function. -/
def readCases : Nat → List Cpp.Item → Option Switch
  | 0, _ => none
  | n+1, items =>
    match skip (text "        case ") items with
    | some (.character v::rest) =>
      (skip (text ": return ") rest).bind fun rest =>
        ((skip (text ";\n") (rest.dropWhile inExpression)).bind (readCases n)).map fun s =>
          ⟨(v,rest.takeWhile inExpression)::s.cases,s.otherwise⟩
    | some _ => none
    | none =>
      (skip (text "        default: return ") items).bind fun rest =>
        if rest.dropWhile inExpression=Cpp.plain (text ";\n    \x7d\n\x7d\n\n")
          then some ⟨[],rest.takeWhile inExpression⟩ else none

/-- A function of this heading whose body is a switch. -/
def readSwitch (heading : String) (items : List Cpp.Item) : Option Switch :=
  (skip (text heading) items).bind (readCases items.length)

section Switch
variable {x : Message → List Cpp.Item} {d : List Cpp.Item}

theorem skip_plain (t : Bytes) (rest : List Cpp.Item) : skip t (Cpp.plain t++rest)=some rest := by
  unfold skip
  rw [if_pos (by simp)]
  simp [Cpp.plain]

/-- A text that differs in some place. -/
theorem skip_none {t : Bytes} {items : List Cpp.Item} {i : Nat} (hi : i<t.length)
    (h : items[i]?≠some (.plain t[i])) : skip t items=none := by
  unfold skip
  rw [if_neg fun hp => h ?_]
  obtain ⟨rest,rfl⟩ := List.isPrefixOf_iff_prefix.mp hp
  rw [Cpp.plain,List.getElem?_append_left (by simpa using hi)]
  simp [hi]

theorem takeWhile_expression (h : .plain 59∉d) (rest : List Cpp.Item) :
    (d++.plain 59::rest).takeWhile inExpression=d ∧
      (d++.plain 59::rest).dropWhile inExpression=.plain 59::rest := by
  have hall : ∀ item∈d, inExpression item := by
    intro item hitem
    simp only [inExpression,decide_eq_true_eq]
    rintro rfl
    exact h hitem
  constructor
  · rw [List.takeWhile_append_of_pos hall]
    simp [inExpression]
  · rw [List.dropWhile_append_of_pos hall]
    simp [inExpression]

/-- A case as it is read. -/
def caseItems (x : Message → List Cpp.Item) (m : Message) : List Cpp.Item :=
  Cpp.plain (text "        case ")++(.character m.type::
    (Cpp.plain (text ": return ")++(x m++Cpp.plain (text ";\n"))))

/-- The default and the end of the function as they are read. -/
def lastItems (d : List Cpp.Item) : List Cpp.Item :=
  Cpp.plain (text "        default: return ")++(d++Cpp.plain (text ";\n    \x7d\n\x7d\n\n"))

theorem readCases_last (hd : .plain 59∉d) (n : Nat) :
    readCases (n+1) (lastItems d)=some ⟨[],d⟩ := by
  have hcase : skip (text "        case ") (lastItems d)=none := by
    have hlt : 8<(Cpp.plain (text "        default: return ")).length := by decide +kernel
    refine skip_none (i := 8) (by decide +kernel) ?_
    rw [lastItems,List.getElem?_append_left hlt]
    decide +kernel
  have hsemi : Cpp.plain (text ";\n    \x7d\n\x7d\n\n")=
      .plain 59::Cpp.plain (text "\n    \x7d\n\x7d\n\n") := by decide +kernel
  rw [readCases,hcase]
  dsimp only
  obtain ⟨htake,hdrop⟩ := takeWhile_expression hd (Cpp.plain (text "\n    \x7d\n\x7d\n\n"))
  rw [lastItems,skip_plain,Option.bind_some,hsemi,hdrop,htake,if_pos rfl]

theorem readCases_eq {ms : List Message} (hx : ∀ m∈ms, .plain 59∉x m) (hd : .plain 59∉d) {n : Nat}
    (hn : ms.length<n) : readCases n (ms.flatMap (caseItems x)++lastItems d)=
      some ⟨ms.map fun m => (m.type,x m),d⟩ := by
  induction ms generalizing n with
  | nil =>
    obtain ⟨n,rfl⟩ := Nat.exists_eq_add_of_lt hn
    rw [List.flatMap_nil,List.nil_append]
    exact readCases_last hd _
  | cons m rest ih =>
    obtain ⟨hm,hrest⟩ := List.forall_mem_cons.mp hx
    obtain ⟨n,rfl⟩ : ∃ k, n=k+1 := ⟨n-1,by rw [List.length_cons] at hn; omega⟩
    have hsemi : Cpp.plain (text ";\n")=.plain 59::Cpp.plain (text "\n") := by decide +kernel
    obtain ⟨htake,hdrop⟩ := takeWhile_expression hm
      (Cpp.plain (text "\n")++(rest.flatMap (caseItems x)++lastItems d))
    rw [readCases,List.flatMap_cons,List.append_assoc,caseItems,List.append_assoc,skip_plain]
    dsimp only [List.cons_append]
    rw [List.append_assoc,skip_plain,Option.bind_some,List.append_assoc,hsemi,List.cons_append,
      hdrop,htake,← List.cons_append,← hsemi,skip_plain,Option.bind_some,
      ih hrest (by rw [List.length_cons] at hn; omega)]
    rfl

/-- A case takes at least one item. -/
theorem length_le_cases (x : Message → List Cpp.Item) (ms : List Message) :
    ms.length≤(ms.flatMap (caseItems x)).length := by
  induction ms with
  | nil => exact le_rfl
  | cons m rest ih =>
    have hpos : 1≤(caseItems x m).length := by
      simp only [caseItems,List.length_append,List.length_cons]
      omega
    rw [List.flatMap_cons,List.length_append,List.length_cons]
    omega

theorem readSwitch_eq {heading : String} {ms : List Message} (hx : ∀ m∈ms, .plain 59∉x m)
    (hd : .plain 59∉d) :
    readSwitch heading (Cpp.plain (text heading)++(ms.flatMap (caseItems x)++lastItems d))=
      some ⟨ms.map fun m => (m.type,x m),d⟩ := by
  have hlen := length_le_cases x ms
  have hlast : 1≤(lastItems d).length := by
    have hpos : 1≤(Cpp.plain (text "        default: return ")).length := by decide +kernel
    rw [lastItems,List.length_append]
    omega
  rw [readSwitch,skip_plain,Option.bind_some]
  refine readCases_eq hx hd ?_
  simp only [List.length_append]
  omega

theorem Switch.returns_of_messages (ms : List Message) (c : UInt8) :
    Switch.returns ⟨ms.map fun m => (m.type,x m),d⟩ c=(ms.find? fun m => m.type=c).elim d x := by
  simp only [Switch.returns,List.find?_map,Function.comp_def]
  cases ms.find? fun m => decide (m.type=c) with
  | none => rfl
  | some m => rfl

variable {crEnds : Bool} {p : Protocol}

theorem transduce_emitSwitch {heading : String} {expr : Message → Bytes} {otherwise : Bytes}
    (hh : ∀ c∈text heading, Cpp.Ordinary c) (ht : ∀ m∈p.messages, Cpp.isCChar crEnds m.type)
    (he : ∀ m∈p.messages, transduce (Cpp.step crEnds) .code (expr m)=some (.code,x m))
    (hd : transduce (Cpp.step crEnds) .code otherwise=some (.code,d)) :
    transduce (Cpp.step crEnds) .code (emitSwitch heading expr otherwise p)=some (.code,
      Cpp.plain (text heading)++(p.messages.flatMap (caseItems x)++lastItems d)) := by
  have hcases : transduce (Cpp.step crEnds) .code (p.messages.flatMap (emitCase expr))=
      some (.code,p.messages.flatMap (caseItems x)) :=
    transduce_flatMap fun m hm => transduce_emitCase (ht m hm) (he m hm)
  have hdefault : transduce (Cpp.step crEnds) .code (text "        default: return ")=
      some (.code,Cpp.plain (text "        default: return ")) :=
    Cpp.transduce_plain (by decide +kernel)
  have hend : transduce (Cpp.step crEnds) .code (text ";\n    \x7d\n\x7d\n\n")=
      some (.code,Cpp.plain (text ";\n    \x7d\n\x7d\n\n")) :=
    Cpp.transduce_plain (by decide +kernel)
  have hlast := transduce_append_some hdefault (transduce_append_some hd hend)
  rw [← List.append_assoc] at hlast
  exact transduce_append_some (Cpp.transduce_plain hh) (transduce_append_some hcases hlast)

end Switch

section Expressions
variable {crEnds : Bool}

theorem not_mem_plain {t : Bytes} (h : 59∉t) : .plain 59∉Cpp.plain t := by
  intro hm
  obtain ⟨c,hc,he⟩ := List.mem_map.mp hm
  cases he
  exact h hc

theorem transduce_encodedSizeOf {m : Message} (hm : m.Spelled) :
    transduce (Cpp.step crEnds) .code (encodedSizeOf m)=
      some (.code,Cpp.plain (encodedSizeOf m)) :=
  Cpp.transduce_plain (List.forall_mem_append.mpr ⟨hm.name.ordinary,by decide +kernel⟩)

theorem encodedSizeOf_semicolon {m : Message} (hm : m.Spelled) : 59∉encodedSizeOf m := by
  intro h
  rcases List.mem_append.mp h with h | h
  · exact absurd (hm.name 59 h) (by decide)
  · revert h
    decide +kernel

theorem transduce_quoted {t : Bytes} (h : Word t) :
    transduce (Cpp.step crEnds) .code (quoted t)=some (.code,[.string t]) := by
  have hopen : transduce (Cpp.step crEnds) .code (text "\"")=some (.string [],[]) := by
    revert crEnds
    decide +kernel
  have hquote : text "\""=[34] := by decide +kernel
  have hclose : transduce (Cpp.step crEnds) (.string ([]++t)) (text "\"")=
      some (.code,[.string ([]++t)]) := by
    rw [hquote]
    rfl
  exact transduce_append_some (transduce_append_some hopen
    (Cpp.transduce_string (h.quotable crEnds) [])) hclose

end Expressions

end MarketWire.Protocolc
