import MarketWire.EmittedHeader
import MarketWire.ViewLayout

/-! The declarations of an emitted header, and a reader of them that goes by the tokens of C++. -/
namespace MarketWire.Protocolc
open Library

/-! ### Declarations -/

/-- The functions of `efe/byte_reader.hpp` that accessors call. -/
inductive Reader where
  | u8
  | u16Be
  | u32Be
  | u48Be
  | u64Be
  | char
  | asciiView (width : Nat)
  deriving DecidableEq, Repr

/-- The type that a reader returns. -/
def Reader.type : Reader → AccessorType
  | .u8 => .uint8
  | .u16Be => .uint16
  | .u32Be => .uint32
  | .u48Be => .uint64
  | .u64Be => .uint64
  | .char => .char
  | .asciiView _ => .stringView

def Reader.call (r : Reader) (bytes : Bytes) (offset : Nat) : Except Thrown r.type.Value :=
  match r with
  | .u8 => readU8 bytes offset
  | .u16Be => readU16Be bytes offset
  | .u32Be => readU32Be bytes offset
  | .u48Be => readU48Be bytes offset
  | .u64Be => readU64Be bytes offset
  | .char => readChar bytes offset
  | .asciiView width => readAsciiView bytes offset width

/-- A member function that returns what a reader does at an offset of `bytes_`. -/
structure Accessor where
  name : Bytes
  reader : Reader
  offset : Nat
  deriving DecidableEq, Repr

/-- What an accessor returns, with its type. -/
def Accessor.returns (a : Accessor) (bytes : Bytes) :
    Σ type : AccessorType, Except Thrown type.Value :=
  ⟨a.reader.type,a.reader.call bytes a.offset⟩

/-- A class over `bytes_`, with its constants and the error that its constructor throws. -/
structure ViewClass where
  name : Bytes
  messageType : UInt8
  encodedSize : Nat
  complaint : Bytes
  accessors : List Accessor
  deriving DecidableEq, Repr

/-- The constructor's check. -/
def ViewClass.construct (c : ViewClass) (bytes : Bytes) : Except Thrown Unit :=
  if bytes.length=c.encodedSize ∧ bytes.head?=some c.messageType then .ok ()
  else .error (.decodeError (render c.complaint))

/-- A header: the namespace, its classes and its two functions. -/
structure Header where
  path : Bytes
  classes : List ViewClass
  sizes : Switch
  names : Switch
  deriving DecidableEq, Repr

/-! ### Reading -/

/-- A word that does not begin with a digit. -/
def readName (items : List Cpp.Item) : Option (Bytes×List Cpp.Item) :=
  match Cpp.takePlain isWord items with
  | ([],_) => none
  | (c::t,rest) => if isDigit c then none else some (c::t,rest)

/-- A decimal literal; a leading zero would make it octal. -/
def isLiteral (t : Bytes) : Bool :=
  t≠[] && t.all isDigit && (t.head?≠some 48 || t.length==1)

def readNumber (items : List Cpp.Item) : Option (Nat×List Cpp.Item) :=
  let (t,rest) := Cpp.takePlain isWord items
  if isLiteral t then some (decimal t,rest) else none

/-- A name with the namespaces it is in. -/
def readQualified (items : List Cpp.Item) : Bytes×List Cpp.Item :=
  Cpp.takePlain (fun c => isWord c || c==58) items

def AccessorType.ofSpelling (t : Bytes) : Option AccessorType :=
  [.uint8,.uint16,.uint32,.uint64,.char,.stringView].find? fun type => type.spelling=t

/-- The readers that take no width. -/
def Reader.ofSpelling (t : Bytes) : Option Reader :=
  ([("efe::read_u8",.u8),("efe::read_u16_be",.u16Be),("efe::read_u32_be",.u32Be),
    ("efe::read_u48_be",.u48Be),("efe::read_u64_be",.u64Be),("efe::read_char",.char)].find?
      fun x => text x.1=t).map Prod.snd

/-- A call of a reader, with its offset. -/
def readCall (items : List Cpp.Item) : Option ((Reader×Nat)×List Cpp.Item) := do
  let (function,items) := readQualified items
  let items ← skip (text "(bytes_, ") items
  let (offset,items) ← readNumber items
  if function=text "efe::read_ascii_view" then do
    let items ← skip (text ", ") items
    let (width,items) ← readNumber items
    return ((.asciiView width,offset),← skip (text ")") items)
  else do
    let reader ← Reader.ofSpelling function
    return ((reader,offset),← skip (text ")") items)

/-- An accessor behind its attribute; its type is its reader's. -/
def readAccessor (items : List Cpp.Item) : Option (Accessor×List Cpp.Item) := do
  let (spelling,items) := readQualified items
  let type ← AccessorType.ofSpelling spelling
  let items ← skip (text " ") items
  let (name,items) ← readName items
  let items ← skip (text "() const \x7b return ") items
  let ((reader,offset),items) ← readCall items
  let items ← skip (text "; \x7d\n") items
  if reader.type=type then some (⟨name,reader,offset⟩,items) else none

/-- Items of one kind, as long as their first words stand there. -/
def readMany {α : Type} (first : Bytes) (read : List Cpp.Item → Option (α×List Cpp.Item)) :
    Nat → List Cpp.Item → Option (List α×List Cpp.Item)
  | 0, _ => none
  | n+1, items =>
    match skip first items with
    | none => some ([],items)
    | some items => do
      let (a,items) ← read items
      let (as,items) ← readMany first read n items
      return (a::as,items)

def viewCheck : String := "        if (bytes_.size() != encoded_size || bytes_[0] != "++
  "static_cast<std::uint8_t>(message_type)) throw efe::DecodeError("

def viewEnd : String := "private:\n    std::span<const std::uint8_t> bytes_;\n\x7d;\n\n"

/-- A class behind its keyword. -/
def readView (items : List Cpp.Item) : Option (ViewClass×List Cpp.Item) := do
  let (name,items) ← readName items
  let items ← skip (text " \x7b\npublic:\n") items
  let items ← skip (text "    static constexpr char message_type = ") items
  let (type,items) ← Cpp.takeCharacter items
  let items ← skip (text ";\n") items
  let items ← skip (text "    static constexpr std::size_t encoded_size = ") items
  let (size,items) ← readNumber items
  let items ← skip (text ";\n") items
  let items ← skip (text "    explicit ") items
  let items ← skip name items
  let items ← skip (text "(std::span<const std::uint8_t> bytes) : bytes_(bytes) \x7b\n") items
  let items ← skip (text viewCheck) items
  let (complaint,items) ← Cpp.takeString items
  let items ← skip (text ");\n") items
  let items ← skip (text "    \x7d\n") items
  let (accessors,items) ← readMany (text "    [[nodiscard]] ") readAccessor items.length items
  let items ← skip (text viewEnd) items
  return (⟨name,type,size,complaint,accessors⟩,items)

/-- Inside the body of a switch. -/
def inSwitch (item : Cpp.Item) : Bool := item≠.plain 125

/-- The end of a function that is a switch. -/
def switchEnd : Bytes := text "\x7d\n\x7d\n\n"

/-- A dispatch function: its switch ends at the first closing brace. -/
def readFunction (heading : String) (items : List Cpp.Item) : Option (Switch×List Cpp.Item) := do
  let rest ← skip switchEnd (items.dropWhile inSwitch)
  let s ← readSwitch heading (items.takeWhile inSwitch++Cpp.plain switchEnd)
  return (s,rest)

/-- What the header includes besides the readers. -/
def includes : String := "#include <cstddef>\n#include <cstdint>\n"++
  "#include <optional>\n#include <span>\n"++"#include <string_view>\n\n"

/-- A whole header. -/
def readHeader (crEnds : Bool) (t : Bytes) : Option Header := do
  let items ← Cpp.read crEnds t
  -- the line end of the comment
  let items ← skip (text "\n") items
  let items ← skip (text "#pragma once\n\n") items
  let items ← skip (text "#include ") items
  let (file,items) ← Cpp.takeString items
  let items ← skip (text "\n") items
  let items ← skip (text includes) items
  let items ← skip (text "namespace ") items
  let (path,items) := readQualified items
  let items ← skip (text " \x7b\n\n") items
  let (classes,items) ← readMany (text "class ") readView items.length items
  let (sizes,items) ← readFunction messageSizeHeading items
  let (names,items) ← readFunction messageNameHeading items
  if file=text "efe/byte_reader.hpp" ∧ items=Cpp.plain (text "\x7d  \n") then
    some ⟨path,classes,sizes,names⟩ else none

/-! ### Words and numbers -/

def Named (t : Bytes) : Prop := Word t ∧ ∃ c∈t.head?, ¬isDigit c

section Words
variable {s t : Bytes} {n : Nat}

theorem readName_plain (h : Named t) (hs : Cpp.stops isWord s) (rest : List Cpp.Item) :
    readName (Cpp.plain t++(Cpp.plain s++rest))=some (t,Cpp.plain s++rest) := by
  obtain ⟨hw,c,hc,hd⟩ := h
  obtain ⟨t,rfl⟩ := List.head?_eq_some_iff.mp hc
  rw [readName,Cpp.takePlain_plain hw hs]
  dsimp only
  rw [if_neg hd]

theorem decimal_snoc (t : Bytes) (c : UInt8) : decimal (t++[c])=decimal t*10+(c.toNat-48) := by
  simp [decimal]

theorem decimal_toDecimal (n : Nat) : decimal (toDecimal n)=n := by
  induction n using Nat.strong_induction_on with
  | _ n ih =>
    rw [toDecimal]
    split_ifs with h
    · rw [← List.nil_append [_],decimal_snoc,toNat_digit h]
      change 0*10+_=_
      omega
    · rw [decimal_snoc,ih (n/10) (by omega),toNat_digit (Nat.mod_lt _ (by decide))]
      omega

theorem toDecimal_ne_nil (n : Nat) : toDecimal n≠[] := by
  rw [toDecimal]
  split_ifs <;> simp

/-- No leading zero. -/
theorem toDecimal_head {n : Nat} (h : (toDecimal n).head?=some 48) : n=0 := by
  induction n using Nat.strong_induction_on with
  | _ n ih =>
    rw [toDecimal] at h
    split_ifs at h with hn
    · have hz := congrArg UInt8.toNat (Option.some.inj h)
      rw [toNat_digit hn] at hz
      change 48+n=48 at hz
      omega
    · rw [List.head?_append_of_ne_nil _ (toDecimal_ne_nil _)] at h
      have hz := ih (n/10) (by omega) h
      omega

theorem isLiteral_toDecimal (n : Nat) : isLiteral (toDecimal n) := by
  have hzero : (toDecimal n).head?≠some 48 ∨ (toDecimal n).length=1 := by
    by_cases hz : (toDecimal n).head?=some 48
    · rw [toDecimal_head hz]
      exact .inr (by decide +kernel)
    · exact .inl hz
  simp only [isLiteral,Bool.and_eq_true,Bool.or_eq_true,decide_eq_true_eq,beq_iff_eq,
    List.all_eq_true]
  exact ⟨⟨toDecimal_ne_nil n,toDecimal_digits n⟩,hzero⟩

theorem readNumber_plain (n : Nat) (hs : Cpp.stops isWord s) (rest : List Cpp.Item) :
    readNumber (Cpp.plain (toDecimal n)++(Cpp.plain s++rest))=some (n,Cpp.plain s++rest) := by
  rw [readNumber,Cpp.takePlain_plain (word_toDecimal n) hs]
  dsimp only
  rw [if_pos (isLiteral_toDecimal n),decimal_toDecimal]

end Words

/-! ### Accessors -/

/-- The reader of a field. -/
def Field.reader (f : Field) : Reader :=
  match f.type with
  | .u8 => .u8
  | .u16Be => .u16Be
  | .u32Be | .price4 => .u32Be
  | .u48Be => .u48Be
  | .u64Be | .price8 => .u64Be
  | .char => .char
  | .ascii => .asciiView f.width.toNat

def Field.accessor (f : Field) : Accessor := ⟨f.name,f.reader,f.offset.toNat⟩

theorem Field.accessor_returns (f : Field) (bytes : Bytes) : f.accessor.returns bytes=
    ⟨accessorType f.type,accessorExpr f.type f.offset f.width bytes⟩ := by
  obtain ⟨name,type,width,offset⟩ := f
  cases type <;> rfl

def Reader.name : Reader → String
  | .u8 => "read_u8"
  | .u16Be => "read_u16_be"
  | .u32Be => "read_u32_be"
  | .u48Be => "read_u48_be"
  | .u64Be => "read_u64_be"
  | .char => "read_char"
  | .asciiView _ => "read_ascii_view"

def Reader.function (r : Reader) : Bytes := text "efe::"++text r.name

/-- What follows the offset. -/
def Reader.arguments : Reader → Bytes
  | .asciiView width => text ", "++(toDecimal width++text ")")
  | _ => text ")"

theorem accessorExprText_eq (f : Field) : accessorExprText f=
    f.reader.function++(text "(bytes_, "++(toDecimal f.offset.toNat++f.reader.arguments)) := by
  have hcall (reader : String) (more : Bytes) : readerCall reader f more=
      (text "efe::"++text reader)++(text "(bytes_, "++(toDecimal f.offset.toNat++
        (more++text ")"))) := by
    simp only [readerCall,List.append_assoc]
  unfold accessorExprText Field.reader
  cases f.type with
  | ascii =>
    refine (hcall "read_ascii_view" _).trans ?_
    simp only [Reader.function,Reader.name,Reader.arguments,List.append_assoc]
  | u8 | u16Be | u32Be | price4 | u48Be | u64Be | price8 | char => exact hcall _ []

theorem readQualified_plain {t s : Bytes} (ht : ∀ c∈t, isWord c || c==58)
    (hs : Cpp.stops (fun c => isWord c || c==58) s) (rest : List Cpp.Item) :
    readQualified (Cpp.plain t++(Cpp.plain s++rest))=(t,Cpp.plain s++rest) :=
  Cpp.takePlain_plain ht hs rest

theorem Reader.function_qualified (r : Reader) : ∀ c∈r.function, isWord c || c==58 := by
  cases r with
  | asciiView width =>
    change ∀ c∈text "efe::"++text "read_ascii_view", isWord c || c==58
    decide +kernel
  | u8 | u16Be | u32Be | u48Be | u64Be | char => decide +kernel

theorem Reader.arguments_stops (r : Reader) : Cpp.stops isWord r.arguments := by
  cases r with
  | asciiView width => exact Cpp.stops_append (by decide +kernel) _
  | u8 | u16Be | u32Be | u48Be | u64Be | char => decide +kernel

theorem readCall_plain (r : Reader) (offset : Nat) (rest : List Cpp.Item) :
    readCall (Cpp.plain r.function++(Cpp.plain (text "(bytes_, ")++
      (Cpp.plain (toDecimal offset)++(Cpp.plain r.arguments++rest))))=some ((r,offset),rest) := by
  rw [readCall,readQualified_plain r.function_qualified (by decide +kernel)]
  simp only [skip_plain,Option.bind_eq_bind,Option.bind_some]
  rw [readNumber_plain offset r.arguments_stops,Option.bind_some]
  cases r with
  | asciiView width =>
    have hview : (Reader.asciiView width).function=text "efe::read_ascii_view" := by
      change text "efe::"++text "read_ascii_view"=_
      decide +kernel
    have hnumber := readNumber_plain width (s := text ")") (by decide +kernel) rest
    simp only [hview,Reader.arguments,Cpp.plain_append,List.append_assoc,skip_plain,hnumber,
      Option.bind_some,if_true,Option.pure_def]
  | u8 | u16Be | u32Be | u48Be | u64Be | char =>
    -- none of these is the view, and each is found under its own name
    rw [if_neg (by decide +kernel)]
    simp only [Reader.arguments,skip_plain,Option.bind_some,Option.pure_def]
    rfl

theorem Field.reader_type (f : Field) : f.reader.type=accessorType f.type := by
  unfold Field.reader
  cases f.type <;> rfl

theorem Field.reader_width {f : Field} {width : Nat} (h : f.reader=.asciiView width) :
    f.width.toNat=width := by
  unfold Field.reader at h
  split at h <;> cases h
  rfl

theorem AccessorType.ofSpelling_spelling (type : AccessorType) :
    ofSpelling type.spelling=some type := by
  cases type <;> decide +kernel

theorem AccessorType.spelling_qualified (type : AccessorType) :
    ∀ c∈type.spelling, isWord c || c==58 := by
  cases type <;> decide +kernel

/-- An accessor behind its attribute. -/
def accessorText (f : Field) : Bytes :=
  (accessorType f.type).spelling++(text " "++(f.name++(text "() const \x7b return "++
    (accessorExprText f++text "; \x7d\n"))))

theorem emitAccessor_eq (f : Field) : emitAccessor f=text "    [[nodiscard]] "++accessorText f := by
  simp only [emitAccessor,accessorText,List.append_assoc]

theorem readAccessor_plain {f : Field} (hn : Named f.name) (rest : List Cpp.Item) :
    readAccessor (Cpp.plain (accessorText f)++rest)=some (f.accessor,rest) := by
  have hcall := readCall_plain f.reader f.offset.toNat (Cpp.plain (text "; \x7d\n")++rest)
  simp only [readAccessor,accessorText,accessorExprText_eq,Cpp.plain_append,List.append_assoc]
  rw [readQualified_plain (accessorType f.type).spelling_qualified (by decide +kernel)]
  simp only [AccessorType.ofSpelling_spelling,skip_plain,Option.bind_eq_bind,Option.bind_some]
  rw [readName_plain hn (by decide +kernel)]
  simp only [skip_plain,Option.bind_some,hcall]
  exact if_pos f.reader_type

/-! ### Lists -/

section Many
variable {α β : Type} {first : Bytes} {read : List Cpp.Item → Option (α×List Cpp.Item)}
  {write : β → List Cpp.Item} {value : β → α}

theorem readMany_eq {bs : List β} {last : List Cpp.Item}
    (hread : ∀ b∈bs, ∀ rest, read (write b++rest)=some (value b,rest))
    (hlast : skip first last=none) {n : Nat} (hn : bs.length<n) :
    readMany first read n (bs.flatMap (fun b => Cpp.plain first++write b)++last)=
      some (bs.map value,last) := by
  induction bs generalizing n with
  | nil =>
    obtain ⟨n,rfl⟩ := Nat.exists_eq_add_of_lt hn
    rw [List.flatMap_nil,List.nil_append,readMany,hlast]
    rfl
  | cons b bs ih =>
    obtain ⟨hb,hbs⟩ := List.forall_mem_cons.mp hread
    obtain ⟨n,rfl⟩ : ∃ k, n=k+1 := ⟨n-1,by rw [List.length_cons] at hn; omega⟩
    have hrest := ih (n := n) hbs (by rw [List.length_cons] at hn; omega)
    rw [readMany,List.flatMap_cons,List.append_assoc,List.append_assoc,skip_plain]
    simp only [hb,hrest,Option.bind_eq_bind,Option.bind_some,Option.pure_def,List.map_cons]

/-- Each item takes place. -/
theorem length_le_flatMap (hfirst : first≠[]) (bs : List β) :
    bs.length≤(bs.flatMap fun b => Cpp.plain first++write b).length := by
  have hpos : 1≤(Cpp.plain first).length := by
    rw [Cpp.plain,List.length_map]
    exact List.length_pos_iff.mpr hfirst
  induction bs with
  | nil => exact le_rfl
  | cons b bs ih =>
    rw [List.flatMap_cons,List.length_append,List.length_append,List.length_cons]
    omega

theorem readMany_items {bs : List β} {last : List Cpp.Item} (hfirst : first≠[])
    (hread : ∀ b∈bs, ∀ rest, read (write b++rest)=some (value b,rest))
    (hlast : skip first last=none) (hne : last≠[]) :
    readMany first read (bs.flatMap (fun b => Cpp.plain first++write b)++last).length
      (bs.flatMap (fun b => Cpp.plain first++write b)++last)=some (bs.map value,last) := by
  have hle : bs.length≤(bs.flatMap fun b => Cpp.plain first++write b).length :=
    length_le_flatMap hfirst bs
  have hpos := List.length_pos_iff.mpr hne
  refine readMany_eq hread hlast ?_
  rw [List.length_append]
  omega

end Many

/-- Two texts that differ in some place. -/
theorem skip_other {t s : Bytes} {i : Nat} (ht : i<t.length) (hs : i<s.length) (h : s[i]≠t[i])
    (rest : List Cpp.Item) : skip t (Cpp.plain s++rest)=none := by
  refine skip_none ht ?_
  rw [List.getElem?_append_left (by simpa [Cpp.plain] using hs),Cpp.plain,List.getElem?_map,
    List.getElem?_eq_getElem hs,Option.map_some]
  exact fun he => h (Cpp.Item.plain.inj (Option.some.inj he))

end MarketWire.Protocolc
