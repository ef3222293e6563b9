import MarketWire.Protocolc

/-! The schema language on paper: separators, tokens, the texts that spell a token sequence,
and the token sequences of a schema. Nothing here runs the lexer or the parser. -/
namespace MarketWire.Protocolc

/-! ### Separators -/

/-- White space and line comments, each comment with its line end. -/
inductive Gap : Bytes → Prop
  | nil : Gap []
  | space {c : UInt8} {s : Bytes} (hc : isSpace c) (hs : Gap s) : Gap (c::s)
  | comment {body s : Bytes} (hb : newline∉body) (hs : Gap s) :
      Gap (slash::slash::(body++newline::s))

/-- What may stand after the last token: its last comment may have no line end. -/
inductive Trailer : Bytes → Prop
  | gap {s : Bytes} (hs : Gap s) : Trailer s
  | comment {s body : Bytes} (hs : Gap s) (hb : newline∉body) : Trailer (s++slash::slash::body)

/-! ### Tokens -/

/-- A token without its place. -/
inductive Lexeme where
  | ident (t : Bytes)
  | string (t : Bytes)
  | number (t : Bytes)
  | lBrace
  | rBrace
  | lBracket
  | rBracket
  | colon
  | semicolon
  deriving DecidableEq, Repr

namespace Lexeme

def kind : Lexeme → Kind
  | ident _ => .ident
  | string _ => .string
  | number _ => .number
  | lBrace => .lBrace
  | rBrace => .rBrace
  | lBracket => .lBracket
  | rBracket => .rBracket
  | colon => .colon
  | semicolon => .semicolon

def spelling : Lexeme → Bytes
  | ident t | number t => t
  | string t => quote::(t++[quote])
  | lBrace => [123]
  | rBrace => [125]
  | lBracket => [91]
  | rBracket => [93]
  | colon => [58]
  | semicolon => [59]

/-- Words, numbers and strings of the language. -/
inductive Valid : Lexeme → Prop
  | ident {c : UInt8} {t : Bytes} (hc : isAlpha c ∨ c=95) (ht : ∀ d∈t, isWord d) :
      Valid (ident (c::t))
  | number {c : UInt8} {t : Bytes} (hc : isDigit c) (ht : ∀ d∈t, isDigit d) :
      Valid (number (c::t))
  | string {t : Bytes} (hq : quote∉t) (hn : newline∉t) : Valid (string t)
  | lBrace : Valid lBrace
  | rBrace : Valid rBrace
  | lBracket : Valid lBracket
  | rBracket : Valid rBracket
  | colon : Valid colon
  | semicolon : Valid semicolon

end Lexeme

/-- Tokens that would run together if nothing stood between them. A number may touch a word. -/
def Kind.joins : Kind → Kind → Bool
  | .ident, .ident | .ident, .number | .number, .number => true
  | _, _ => false

/-- The texts of a token sequence after a token of kind `last`. -/
inductive Written : Kind → List Lexeme → Bytes → Prop
  | done {last : Kind} {t : Bytes} (ht : Trailer t) : Written last [] t
  | token {last : Kind} {s t : Bytes} {x : Lexeme} {l : List Lexeme} (hs : Gap s) (hx : x.Valid)
      (hj : last.joins x.kind → s≠[]) (ht : Written x.kind l t) :
      Written last (x::l) (s++(x.spelling++t))

/-- The texts of a token sequence. -/
def Spells (l : List Lexeme) (t : Bytes) : Prop := Written .endToken l t

/-! ### Schemas -/

def FieldType.spelling : FieldType → Bytes
  | .u8 => text "u8"
  | .char => text "char"
  | .u16Be => text "u16_be"
  | .u32Be => text "u32_be"
  | .price4 => text "price4"
  | .u48Be => text "u48_be"
  | .u64Be => text "u64_be"
  | .price8 => text "price8"
  | .ascii => text "ascii"

/-- The number that a digit string writes. -/
def decimal (digits : Bytes) : Nat := digits.foldl (fun v c => v*10+(c.toNat-48)) 0

/-- A field's type as declared. -/
inductive TypeDecl where
  | fixed (type : FieldType) (h : type≠.ascii)
  | ascii (width : UInt64) (h : width≠0)

namespace TypeDecl

def type : TypeDecl → FieldType
  | fixed type _ => type
  | ascii _ _ => .ascii

def width : TypeDecl → UInt64
  | fixed type _ => typeWidth type
  | ascii width _ => width

/-- A width may be written with leading zeros. -/
inductive Tokens : TypeDecl → List Lexeme → Prop
  | fixed {type : FieldType} {h : type≠.ascii} : Tokens (fixed type h) [.ident type.spelling]
  | ascii {width : UInt64} {h : width≠0} {digits : Bytes} (hd : decimal digits=width.toNat) :
      Tokens (ascii width h)
        [.ident FieldType.ascii.spelling,.lBracket,.number digits,.rBracket]

end TypeDecl

structure FieldDecl where
  name : Bytes
  type : TypeDecl

inductive FieldDecl.Tokens : FieldDecl → List Lexeme → Prop
  | mk {name : Bytes} {type : TypeDecl} {l : List Lexeme} (hl : type.Tokens l) :
      Tokens ⟨name,type⟩ (.ident name::.colon::(l++[.semicolon]))

/-- The token sequences of a list, item after item. -/
inductive Each {α : Type} (R : α → List Lexeme → Prop) : List α → List Lexeme → Prop
  | nil : Each R [] []
  | cons {a : α} {as : List α} {l r : List Lexeme} (ha : R a l) (hr : Each R as r) :
      Each R (a::as) (l++r)

structure MessageDecl where
  name : Bytes
  type : UInt8
  fields : List FieldDecl
  names_nodup : (fields.map FieldDecl.name).Nodup

inductive MessageDecl.Tokens : MessageDecl → List Lexeme → Prop
  | mk {m : MessageDecl} {l : List Lexeme} (hl : Each FieldDecl.Tokens m.fields l) :
      Tokens m (.ident (MarketWire.text "message")::.ident m.name::.string [m.type]::.lBrace::
        (l++[.rBrace]))

/-- A schema that the compiler is meant for. -/
structure Schema where
  name : Bytes
  messages : List MessageDecl
  types_nodup : (messages.map MessageDecl.type).Nodup
  names_nodup : (messages.map MessageDecl.name).Nodup

inductive Schema.Tokens : Schema → List Lexeme → Prop
  | mk {s : Schema} {l : List Lexeme} (hl : Each MessageDecl.Tokens s.messages l) :
      Tokens s (.ident (MarketWire.text "protocol")::.ident s.name::.semicolon::l)

/-- The texts of a schema. -/
def Schema.Text (s : Schema) (t : Bytes) : Prop := ∃ l, s.Tokens l ∧ Spells l t

/-! ### Layout -/

/-- The next field goes at the current size. -/
def FieldDecl.push (m : Message) (f : FieldDecl) : Message := m.push f.name f.type.type f.type.width

def MessageDecl.layout (m : MessageDecl) : Message :=
  m.fields.foldl FieldDecl.push ⟨m.name,m.type,[],1⟩

def Schema.protocol (s : Schema) : Protocol := ⟨s.name,s.messages.map MessageDecl.layout⟩

/-! What a layout takes from its declaration, in source order. -/

def Field.declared (f : Field) : Bytes × FieldType × UInt64 := (f.name,f.type,f.width)

def FieldDecl.declared (f : FieldDecl) : Bytes × FieldType × UInt64 :=
  (f.name,f.type.type,f.type.width)

def Message.declared (m : Message) : Bytes × UInt8 × List (Bytes × FieldType × UInt64) :=
  (m.name,m.type,m.fields.map Field.declared)

def MessageDecl.declared (m : MessageDecl) : Bytes × UInt8 × List (Bytes × FieldType × UInt64) :=
  (m.name,m.type,m.fields.map FieldDecl.declared)

theorem foldl_push_declared (fs : List FieldDecl) (m : Message) :
    (fs.foldl FieldDecl.push m).declared=
      (m.name,m.type,m.fields.map Field.declared++fs.map FieldDecl.declared) := by
  induction fs generalizing m with
  | nil => simp [Message.declared]
  | cons f fs ih =>
    rw [List.foldl_cons,ih]
    simp [FieldDecl.push,Message.push,Field.declared,FieldDecl.declared]

theorem MessageDecl.declared_layout (m : MessageDecl) : m.layout.declared=m.declared :=
  foldl_push_declared m.fields ⟨m.name,m.type,[],1⟩

@[simp] theorem MessageDecl.layout_name (m : MessageDecl) : m.layout.name=m.name :=
  congrArg Prod.fst m.declared_layout

@[simp] theorem MessageDecl.layout_type (m : MessageDecl) : m.layout.type=m.type :=
  congrArg (fun d => d.2.1) m.declared_layout

theorem MessageDecl.layout_fields (m : MessageDecl) :
    m.layout.fields.map Field.declared=m.fields.map FieldDecl.declared :=
  congrArg (fun d => d.2.2) m.declared_layout

theorem Schema.declared_protocol (s : Schema) :
    s.protocol.messages.map Message.declared=s.messages.map MessageDecl.declared := by
  rw [protocol,List.map_map]
  exact List.map_congr_left fun m _ => m.declared_layout

end MarketWire.Protocolc
