import MarketWire.ByteReader

/-! The front end of the schema compiler: lexer, recursive-descent parser and the layout it
computes. The lexer's state is the input from `pos_` on together with the line. -/
namespace MarketWire
open Library

/-- The bytes of a source text. -/
def text (s : String) : Bytes := s.toUTF8.data.toList

/-- A byte string inside an error message. -/
def render (t : Bytes) : String := String.ofList (t.map Char.ofUInt8)

namespace Protocolc

inductive Kind where
  | ident
  | string
  | number
  | lBrace
  | rBrace
  | lBracket
  | rBracket
  | colon
  | semicolon
  | endToken
  deriving DecidableEq, Repr

structure Token where
  kind : Kind
  text : Bytes
  line : Nat
  deriving DecidableEq, Repr

structure Lexer where
  rest : Bytes
  line : Nat := 1
  deriving DecidableEq, Repr

/-! The character classes of the "C" locale. -/

def isSpace (c : UInt8) : Bool := c==32 || (9≤c && c≤13)

def isDigit (c : UInt8) : Bool := 48≤c && c≤57

def isAlpha (c : UInt8) : Bool := (65≤c && c≤90) || (97≤c && c≤122)

/-- Characters that continue an identifier. -/
def isWord (c : UInt8) : Bool := isAlpha c || isDigit c || c==95

def newline : UInt8 := 10
def slash : UInt8 := 47
def quote : UInt8 := 34

namespace Lexer

def skipWsComments : Bytes → Nat → Lexer
  | [], line => ⟨[],line⟩
  | c::rest, line =>
    if c=newline then skipWsComments rest (line+1)
    else if isSpace c then skipWsComments rest line
    else if c=slash ∧ rest.head?=some slash then
      skipWsComments (rest.tail.dropWhile (·≠newline)) line
    else ⟨c::rest,line⟩
termination_by t => t.length
decreasing_by
  · simp
  · simp
  · have hd := (List.dropWhile_sublist (fun c => decide (c≠newline)) (l := rest.tail)).length_le
    rw [List.length_tail] at hd
    rw [List.length_cons]
    omega

/-- A token that goes on while `p` holds, from its first character on. -/
def runToken (kind : Kind) (p : UInt8 → Bool) (c : UInt8) (rest : Bytes) (line : Nat) :
    Token × Lexer :=
  (⟨kind,c::rest.takeWhile p,line⟩,⟨rest.dropWhile p,line⟩)

def stringToken (out : Bytes) : Bytes → Nat → Except Thrown (Token × Lexer)
  | [], _ => .error (.runtimeError "lexer: unterminated string")
  | c::rest, line =>
    if c=quote then .ok (⟨.string,out,line⟩,⟨rest,line⟩)
    else if c=newline then .error (.runtimeError "lexer: newline in string literal")
    else stringToken (out++[c]) rest line

/-- The punctuation tokens. -/
def punctuation (c : UInt8) : Option Kind :=
  if c=123 then some .lBrace
  else if c=125 then some .rBrace
  else if c=91 then some .lBracket
  else if c=93 then some .rBracket
  else if c=58 then some .colon
  else if c=59 then some .semicolon
  else none

def next (lexer : Lexer) : Except Thrown (Token × Lexer) :=
  match skipWsComments lexer.rest lexer.line with
  | ⟨[],line⟩ => .ok (⟨.endToken,[],line⟩,⟨[],line⟩)
  | ⟨c::rest,line⟩ =>
    match punctuation c with
    | some kind => .ok (⟨kind,[c],line⟩,⟨rest,line⟩)
    | none =>
      if c=quote then stringToken [] rest line
      else if isDigit c then .ok (runToken .number isDigit c rest line)
      else if isAlpha c ∨ c=95 then .ok (runToken .ident isWord c rest line)
      else .error (.runtimeError s!"lexer: unexpected character at line {line}")

end Lexer

/-- The field types of the schema language. -/
inductive FieldType where
  | u8
  | char
  | u16Be
  | u32Be
  | price4
  | u48Be
  | u64Be
  | price8
  | ascii
  deriving DecidableEq, Repr

def FieldType.ofName (t : Bytes) : Option FieldType :=
  if t=text "u8" then some .u8
  else if t=text "char" then some .char
  else if t=text "u16_be" then some .u16Be
  else if t=text "u32_be" then some .u32Be
  else if t=text "price4" then some .price4
  else if t=text "u48_be" then some .u48Be
  else if t=text "u64_be" then some .u64Be
  else if t=text "price8" then some .price8
  else if t=text "ascii" then some .ascii
  else none

structure Field where
  name : Bytes
  type : FieldType
  width : UInt64
  offset : UInt64
  deriving DecidableEq, Repr

/-- A message; its size starts at one for the implicit type byte. -/
structure Message where
  name : Bytes
  type : UInt8
  fields : List Field := []
  size : UInt64 := 1
  deriving DecidableEq, Repr

structure Protocol where
  name : Bytes
  messages : List Message := []
  deriving DecidableEq, Repr

/-- The next field goes at the current size. -/
def Message.push (m : Message) (name : Bytes) (type : FieldType) (width : UInt64) : Message :=
  { m with fields := m.fields++[⟨name,type,width,m.size⟩], size := m.size+width }

/-- The width of a type other than `ascii`, whose width is written in the schema. -/
def typeWidth : FieldType → UInt64
  | .u8 | .char => 1
  | .u16Be => 2
  | .u32Be | .price4 => 4
  | .u48Be => 6
  | .u64Be | .price8 => 8
  | .ascii => 0

/-- `std::stoul` on a digit string. -/
def stoul (digits : Bytes) : Except Thrown UInt64 :=
  let value := digits.foldl (fun v c => v*10+(c.toNat-48)) 0
  if value<2^64 then .ok (UInt64.ofNat value) else .error .outOfRange

structure Parser where
  lexer : Lexer
  current : Token
  deriving DecidableEq, Repr

namespace Parser

def create (input : Bytes) : Except Thrown Parser := do
  let (token,lexer) ← Lexer.next ⟨input,1⟩
  return ⟨lexer,token⟩

def fail {α : Type} (p : Parser) (msg : String) : Except Thrown α :=
  .error (.runtimeError s!"parser line {p.current.line}: {msg}")

/-- `if (c) fail(msg);` -/
def failIf (p : Parser) (c : Prop) [Decidable c] (msg : String) : Except Thrown Unit :=
  if c then p.fail msg else .ok ()

def expect (p : Parser) (kind : Kind) : Except Thrown (Token × Parser) := do
  p.failIf (p.current.kind≠kind) ("unexpected token '"++render p.current.text++"'")
  let (token,lexer) ← p.lexer.next
  return (p.current,⟨lexer,token⟩)

def expectIdent (p : Parser) (word : String) : Except Thrown Parser := do
  let (token,p) ← p.expect .ident
  p.failIf (token.text≠text word) ("expected '"++word++"'")
  return p

/-- The type of a field and its width. -/
def parseType (p : Parser) (t : Bytes) : Except Thrown (FieldType × UInt64 × Parser) :=
  match FieldType.ofName t with
  | none => .error (.runtimeError ("parser: unsupported type "++render t))
  | some .ascii => do
    let (_,p) ← p.expect .lBracket
    let (number,p) ← p.expect .number
    let width ← stoul number.text
    let (_,p) ← p.expect .rBracket
    p.failIf (width=0) "ascii width must be > 0"
    return (.ascii,width,p)
  | some type => .ok (type,typeWidth type,p)

/-- One pass of the field loop; the field names seen so far are those of the fields pushed. -/
def parseField (p : Parser) (m : Message) : Except Thrown (Message × Parser) := do
  let (name,p) ← p.expect .ident
  p.failIf (name.text∈m.fields.map Field.name) ("duplicate field: "++render name.text)
  let (_,p) ← p.expect .colon
  let (type,p) ← p.expect .ident
  let (type,width,p) ← p.parseType type.text
  let (_,p) ← p.expect .semicolon
  return (m.push name.text type width,p)

/-- A message up to its opening brace; its type and name are new to the protocol. -/
def parseHeader (p : Parser) (protocol : Protocol) : Except Thrown (Message × Parser) := do
  let p ← p.expectIdent "message"
  let (name,p) ← p.expect .ident
  let (type,p) ← p.expect .string
  p.failIf (type.text.length≠1) "message type must be exactly one byte"
  let c := type.text.headD 0
  p.failIf (c∈protocol.messages.map Message.type) "duplicate message type"
  p.failIf (name.text∈protocol.messages.map Message.name) "duplicate message name"
  let (_,p) ← p.expect .lBrace
  return (⟨name.text,c,[],1⟩,p)

/-- What is left to read: the bytes after the current token, and that token. -/
def size (p : Parser) : Nat := p.lexer.rest.length+if p.current.kind=.endToken then 0 else 1

end Parser

theorem Lexer.skipWsComments_length (t : Bytes) (line : Nat) :
    (skipWsComments t line).rest.length≤t.length := by
  fun_induction skipWsComments t line with
  | case1 line => exact le_rfl
  | case2 rest line ih =>
    rw [List.length_cons]
    omega
  | case3 c rest line hn hs ih =>
    rw [List.length_cons]
    omega
  | case4 c rest line hn hs hc ih =>
    have hd := (List.dropWhile_sublist (fun c => decide (c≠newline)) (l := rest.tail)).length_le
    rw [List.length_tail] at hd
    rw [List.length_cons]
    omega
  | case5 c rest line hn hs hc => exact le_rfl

theorem Lexer.stringToken_length {out t : Bytes} {line : Nat} {token : Token} {lexer : Lexer}
    (h : stringToken out t line=.ok (token,lexer)) : lexer.rest.length≤t.length := by
  induction t generalizing out with
  | nil => simp [stringToken] at h
  | cons c rest ih =>
    rw [stringToken] at h
    split_ifs at h with hq hn
    · cases h
      simp
    · exact (ih h).trans (by simp)

/-- Every token but the last one consumes input. -/
theorem Lexer.next_length {lexer lexer' : Lexer} {token : Token}
    (h : lexer.next=.ok (token,lexer')) :
    lexer'.rest.length+(if token.kind=.endToken then 0 else 1)≤lexer.rest.length := by
  have hs := skipWsComments_length lexer.rest lexer.line
  rw [next] at h
  revert h hs
  generalize skipWsComments lexer.rest lexer.line=skipped
  intro h hs
  match skipped with
  | ⟨[],line⟩ =>
    cases h
    exact Nat.zero_le _
  | ⟨c::rest,line⟩ =>
    have hrun : ∀ p : UInt8 → Bool, (rest.dropWhile p).length≤rest.length := fun p =>
      (List.dropWhile_sublist p).length_le
    have hlt : lexer'.rest.length≤rest.length := by
      cases hp : punctuation c with
      | some kind =>
        simp only [hp] at h
        cases h
        exact le_rfl
      | none =>
        simp only [hp] at h
        split_ifs at h with hq hd ha
        · exact stringToken_length h
        · cases h
          exact hrun _
        · cases h
          exact hrun _
    rw [List.length_cons] at hs
    split_ifs <;> omega

namespace Parser

variable {p q : Parser} {token : Token} {kind : Kind} {m m' : Message} {protocol : Protocol}

theorem failIf_ok {c : Prop} [Decidable c] {msg : String} {u : Unit} :
    p.failIf c msg=.ok u ↔ ¬c := by
  unfold failIf
  split_ifs with hc <;> simp [hc,fail]

theorem expect_ok : p.expect kind=.ok (token,q) ↔
    p.current.kind=kind ∧ token=p.current ∧ p.lexer.next=.ok (q.current,q.lexer) := by
  simp only [expect,bind_eq_ok,failIf_ok,not_not,exists_and_left,exists_const]
  constructor
  · rintro ⟨hk,⟨t,lexer⟩,hn,h⟩
    cases h
    exact ⟨hk,rfl,hn⟩
  · rintro ⟨hk,rfl,hn⟩
    exact ⟨hk,_,hn,rfl⟩

/-- A successful step leaves less to read. -/
theorem expect_size (h : p.expect kind=.ok (token,q)) (hk : kind≠.endToken) : q.size<p.size := by
  obtain ⟨rfl,-,hn⟩ := expect_ok.mp h
  have hq := Lexer.next_length hn
  unfold size
  rw [if_neg (c := p.current.kind=_) hk]
  omega

theorem expectIdent_size {word : String} (h : p.expectIdent word=.ok q) : q.size<p.size := by
  simp only [expectIdent,bind_eq_ok] at h
  obtain ⟨⟨token,r⟩,he,-,-,h⟩ := h
  cases h
  exact expect_size he (by decide)

theorem parseType_size {t : Bytes} {type : FieldType} {width : UInt64}
    (h : p.parseType t=.ok (type,width,q)) : q.size≤p.size := by
  unfold parseType at h
  split at h
  · cases h
  · simp only [bind_eq_ok] at h
    obtain ⟨⟨_,p1⟩,h1,⟨_,p2⟩,h2,w,-,⟨_,p3⟩,h3,-,-,h⟩ := h
    cases h
    exact ((expect_size h3 (by decide)).trans
      ((expect_size h2 (by decide)).trans (expect_size h1 (by decide)))).le
  · cases h
    exact le_rfl

theorem parseField_size (h : p.parseField m=.ok (m',q)) : q.size<p.size := by
  simp only [parseField,bind_eq_ok] at h
  obtain ⟨⟨_,p1⟩,h1,-,-,⟨_,p2⟩,h2,⟨_,p3⟩,h3,⟨_,_,p4⟩,h4,⟨_,p5⟩,h5,h⟩ := h
  cases h
  calc p5.size
    _ < p4.size := expect_size h5 (by decide)
    _ ≤ p3.size := parseType_size h4
    _ < p2.size := expect_size h3 (by decide)
    _ < p1.size := expect_size h2 (by decide)
    _ < p.size := expect_size h1 (by decide)

theorem parseHeader_size (h : p.parseHeader protocol=.ok (m,q)) : q.size<p.size := by
  simp only [parseHeader,bind_eq_ok] at h
  obtain ⟨p1,h1,⟨_,p2⟩,h2,⟨_,p3⟩,h3,-,-,-,-,-,-,⟨_,p4⟩,h4,h⟩ := h
  cases h
  calc p4.size
    _ < p3.size := expect_size h4 (by decide)
    _ < p2.size := expect_size h3 (by decide)
    _ < p1.size := expect_size h2 (by decide)
    _ < p.size := expectIdent_size h1

/-- The field loop of a message. -/
def parseFields (p : Parser) (m : Message) : Except Thrown (Message × Parser) :=
  if p.current.kind=.rBrace then .ok (m,p)
  else
    match h : p.parseField m with
    | .error e => .error e
    | .ok (m',q) =>
      have := parseField_size h
      parseFields q m'
termination_by p.size

theorem parseFields_size (h : p.parseFields m=.ok (m',q)) : q.size≤p.size := by
  fun_induction parseFields p m with
  | case1 p m hk =>
    cases h
    exact le_rfl
  | case2 p m hk e he => cases h
  | case3 p m hk m1 q1 hf hlt ih => exact (ih h).trans hlt.le

/-- One pass of the message loop. -/
def parseMessage (p : Parser) (protocol : Protocol) : Except Thrown (Protocol × Parser) := do
  let (m,p) ← p.parseHeader protocol
  let (m,p) ← p.parseFields m
  let (_,p) ← p.expect .rBrace
  return ({ protocol with messages := protocol.messages++[m] },p)

theorem parseMessage_size {protocol' : Protocol} (h : p.parseMessage protocol=.ok (protocol',q)) :
    q.size<p.size := by
  simp only [parseMessage,bind_eq_ok] at h
  obtain ⟨⟨_,p1⟩,h1,⟨_,p2⟩,h2,⟨_,p3⟩,h3,h⟩ := h
  cases h
  calc p3.size
    _ < p2.size := expect_size h3 (by decide)
    _ ≤ p1.size := parseFields_size h2
    _ < p.size := parseHeader_size h1

/-- The message loop, to the end of the input. -/
def parseMessages (p : Parser) (protocol : Protocol) : Except Thrown Protocol :=
  if p.current.kind=.endToken then .ok protocol
  else
    match h : p.parseMessage protocol with
    | .error e => .error e
    | .ok (protocol',q) =>
      have := parseMessage_size h
      parseMessages q protocol'
termination_by p.size

end Parser

def parse (input : Bytes) : Except Thrown Protocol := do
  let p ← Parser.create input
  let p ← p.expectIdent "protocol"
  let (name,p) ← p.expect .ident
  let (_,p) ← p.expect .semicolon
  p.parseMessages ⟨name.text,[]⟩

end Protocolc

end MarketWire
