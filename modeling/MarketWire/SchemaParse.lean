import MarketWire.SchemaLexer

/-! The parser accepts exactly the schemas of the language and returns their layout. For each
parsing function, one lemma says what it has read and one that it reads what is there. -/
namespace MarketWire.Protocolc
open Library

theorem FieldType.ofName_eq_some {t : Bytes} {type : FieldType} :
    FieldType.ofName t=some type ↔ t=type.spelling := by
  constructor
  · intro h
    unfold ofName at h
    split_ifs at h with h1 h2 h3 h4 h5 h6 h7 h8 h9 <;> cases h <;> assumption
  · rintro rfl
    cases type <;> decide +kernel

theorem stoul_ok {digits : Bytes} {width : UInt64} :
    stoul digits=.ok width ↔ decimal digits=width.toNat := by
  change (if decimal digits<2^64 then Except.ok (UInt64.ofNat (decimal digits)) else _)=_ ↔ _
  constructor
  · intro h
    split_ifs at h with hlt
    cases h
    rw [UInt64.toNat_ofNat_of_lt' hlt]
  · intro h
    rw [h,if_pos width.toNat_lt,UInt64.ofNat_toNat]

theorem FieldDecl.push_names (m : Message) (f : FieldDecl) :
    (f.push m).fields.map Field.name=m.fields.map Field.name++[f.name] := by
  simp [FieldDecl.push,Message.push]

namespace Parser

variable {p q : Parser} {l : List Lexeme}

theorem expect_ahead {kind : Kind} {token : Token} {x : Lexeme}
    (h : p.expect kind=.ok (token,q)) (hx : kind.lexeme token.text=some x) (hq : q.Ahead l) :
    p.Ahead (x::l) := by
  obtain ⟨rfl,rfl,hn⟩ := expect_ok.mp h
  exact .token hx hn hq

theorem Ahead.kind {x : Lexeme} (h : p.Ahead (x::l)) : p.current.kind=x.kind := by
  cases h with
  | token hx hn hq => exact (Kind.kind_lexeme hx).symm

theorem Ahead.expect {x : Lexeme} (h : p.Ahead (x::l)) : ∃ token q,
    p.expect x.kind=.ok (token,q) ∧ x.kind.lexeme token.text=some x ∧ q.Ahead l := by
  have hk := h.kind
  cases h with
  | @token _ q _ _ hx hn hq =>
    refine ⟨p.current,q,expect_ok.mpr ⟨hk,rfl,hn⟩,?_,hq⟩
    rwa [← hk]

theorem expectIdent_ahead {word : String} (h : p.expectIdent word=.ok q) (hq : q.Ahead l) :
    p.Ahead (.ident (text word)::l) := by
  simp only [expectIdent,bind_eq_ok,failIf_ok,not_not] at h
  obtain ⟨⟨token,r⟩,he,u,hw,h⟩ := h
  cases h
  exact expect_ahead he (by rw [hw]; rfl) hq

theorem Ahead.expectIdent {word : String} (h : p.Ahead (.ident (text word)::l)) :
    ∃ q, p.expectIdent word=.ok q ∧ q.Ahead l := by
  obtain ⟨token,q,he,ht,hq⟩ := h.expect
  refine ⟨q,?_,hq⟩
  simp only [Parser.expectIdent,bind_eq_ok,failIf_ok,not_not]
  exact ⟨(token,q),he,(),Lexeme.ident.inj (Option.some.inj ht),rfl⟩

theorem parseType_ahead {t : Bytes} {type : FieldType} {width : UInt64}
    (h : p.parseType t=.ok (type,width,q)) (hq : q.Ahead l) : ∃ (d : TypeDecl) (r : List Lexeme),
      d.type=type ∧ d.width=width ∧ d.Tokens (.ident t::r) ∧ p.Ahead (r++l) := by
  unfold parseType at h
  split at h
  · cases h
  · rename_i ht
    obtain rfl := FieldType.ofName_eq_some.mp ht
    simp only [bind_eq_ok,failIf_ok] at h
    obtain ⟨⟨_,p1⟩,h1,⟨number,p2⟩,h2,w,hw,⟨_,p3⟩,h3,_,hpos,h⟩ := h
    cases h
    exact ⟨.ascii width hpos,[.lBracket,.number number.text,.rBracket],rfl,rfl,
      .ascii (stoul_ok.mp hw),
      expect_ahead h1 rfl (expect_ahead h2 rfl (expect_ahead h3 rfl hq))⟩
  · rename_i type' hne ht
    obtain rfl := FieldType.ofName_eq_some.mp ht
    cases h
    exact ⟨.fixed type hne,[],rfl,rfl,.fixed,hq⟩

theorem Ahead.parseType {t : Bytes} {d : TypeDecl} {r : List Lexeme}
    (hd : d.Tokens (.ident t::r)) (h : p.Ahead (r++l)) :
    ∃ q, p.parseType t=.ok (d.type,d.width,q) ∧ q.Ahead l := by
  cases hd with
  | @fixed type hne =>
    have ht : FieldType.ofName type.spelling=some type := FieldType.ofName_eq_some.mpr rfl
    refine ⟨p,?_,h⟩
    unfold Parser.parseType
    rw [ht]
    cases type with
    | ascii => exact absurd rfl hne
    | _ => rfl
  | @ascii width hpos digits hd =>
    obtain ⟨_,p1,h1,-,a1⟩ := Ahead.expect h
    obtain ⟨number,p2,h2,hn,a2⟩ := a1.expect
    obtain ⟨_,p3,h3,-,a3⟩ := a2.expect
    obtain rfl : number.text=digits := Lexeme.number.inj (Option.some.inj hn)
    refine ⟨p3,?_,a3⟩
    have ht : FieldType.ofName FieldType.ascii.spelling=some .ascii :=
      FieldType.ofName_eq_some.mpr rfl
    unfold Parser.parseType
    rw [ht]
    simp only [bind_eq_ok,failIf_ok]
    exact ⟨_,h1,_,h2,_,stoul_ok.mpr hd,_,h3,(),hpos,rfl⟩

/-! ### Fields -/

variable {m m' : Message}

theorem parseField_ahead (h : p.parseField m=.ok (m',q)) (hq : q.Ahead l) :
    ∃ (f : FieldDecl) (r : List Lexeme), f.Tokens r ∧ f.name∉m.fields.map Field.name ∧
      m'=f.push m ∧ p.Ahead (r++l) := by
  simp only [parseField,bind_eq_ok,failIf_ok] at h
  obtain ⟨⟨name,p1⟩,h1,_,hnew,⟨_,p2⟩,h2,⟨t,p3⟩,h3,⟨type,width,p4⟩,h4,⟨_,p5⟩,h5,h⟩ := h
  cases h
  obtain ⟨d,r,rfl,rfl,hd,ha⟩ := parseType_ahead h4 (expect_ahead h5 rfl hq)
  refine ⟨⟨name.text,d⟩,_,.mk hd,hnew,rfl,?_⟩
  have h := expect_ahead h1 rfl (expect_ahead h2 rfl (expect_ahead h3 rfl ha))
  simpa using h

theorem Ahead.parseField {f : FieldDecl} {r : List Lexeme} (hf : f.Tokens r)
    (hnew : f.name∉m.fields.map Field.name) (h : p.Ahead (r++l)) :
    ∃ q, p.parseField m=.ok (f.push m,q) ∧ q.Ahead l := by
  cases hf with
  | @mk name type r hr =>
    obtain ⟨t,r,rfl⟩ : ∃ t r', r=.ident t::r' := by
      cases hr with
      | fixed => exact ⟨_,_,rfl⟩
      | ascii hd => exact ⟨_,_,rfl⟩
    simp only [List.cons_append,List.append_assoc] at h
    obtain ⟨nameToken,p1,h1,hn,a1⟩ := h.expect
    obtain ⟨_,p2,h2,-,a2⟩ := a1.expect
    obtain ⟨typeToken,p3,h3,ht,a3⟩ := a2.expect
    obtain rfl : nameToken.text=name := Lexeme.ident.inj (Option.some.inj hn)
    obtain rfl : typeToken.text=t := Lexeme.ident.inj (Option.some.inj ht)
    obtain ⟨p4,h4,a4⟩ := a3.parseType hr
    obtain ⟨_,p5,h5,-,a5⟩ := Ahead.expect a4
    refine ⟨p5,?_,a5⟩
    simp only [Parser.parseField,bind_eq_ok,failIf_ok]
    exact ⟨_,h1,(),hnew,_,h2,_,h3,_,h4,_,h5,rfl⟩

theorem parseFields_step (hk : p.current.kind≠.rBrace) (h : p.parseField m=.ok (m',q)) :
    p.parseFields m=q.parseFields m' := by
  rw [parseFields,if_neg hk]
  split
  · rename_i he
    cases he.symm.trans h
  · rename_i he
    cases he.symm.trans h
    rfl

theorem parseFields_ahead (h : p.parseFields m=.ok (m',q)) (hq : q.Ahead l) :
    ∃ (fs : List FieldDecl) (r : List Lexeme), Each FieldDecl.Tokens fs r ∧
      ((m.fields.map Field.name).Nodup →
        (m.fields.map Field.name++fs.map FieldDecl.name).Nodup) ∧
      m'=fs.foldl FieldDecl.push m ∧ p.Ahead (r++l) := by
  fun_induction parseFields p m with
  | case1 p m hk =>
    cases h
    exact ⟨[],[],.nil,fun hm => by simpa using hm,rfl,hq⟩
  | case2 p m hk e he => cases h
  | case3 p m hk m1 q1 hf hlt ih =>
    obtain ⟨fs,r,hr,hnodup,rfl,ha⟩ := ih h
    obtain ⟨f,r',hr',hnew,rfl,ha'⟩ := parseField_ahead hf ha
    refine ⟨f::fs,r'++r,.cons hr' hr,fun hm => ?_,rfl,?_⟩
    · rw [FieldDecl.push_names] at hnodup
      have h := hnodup (List.concat_eq_append ▸ hm.concat hnew)
      simpa using h
    · rwa [List.append_assoc]

/-- The field loop stops before the closing brace. -/
theorem Ahead.parseFields {fs : List FieldDecl} {r : List Lexeme}
    (hr : Each FieldDecl.Tokens fs r)
    (hm : (m.fields.map Field.name++fs.map FieldDecl.name).Nodup)
    (h : p.Ahead (r++.rBrace::l)) : ∃ q,
      p.parseFields m=.ok (fs.foldl FieldDecl.push m,q) ∧ q.Ahead (.rBrace::l) := by
  induction hr generalizing p m with
  | nil =>
    have hk : p.current.kind=.rBrace := Ahead.kind h
    refine ⟨p,?_,h⟩
    rw [Parser.parseFields,if_pos hk]
    rfl
  | @cons f fs r rs hf hfs ih =>
    rw [List.append_assoc] at h
    have hnew : f.name∉m.fields.map Field.name := fun hmem =>
      List.disjoint_of_nodup_append hm hmem (by simp)
    obtain ⟨q,hq,ha⟩ := h.parseField hf hnew
    have hk : p.current.kind≠.rBrace := by
      cases hf with
      | mk hr =>
        rw [Ahead.kind h]
        nofun
    rw [parseFields_step hk hq]
    exact ih (by rw [FieldDecl.push_names,List.append_assoc]; exact hm) ha

/-! ### Messages -/

variable {protocol protocol' : Protocol}

/-- A message whose type and name the protocol does not have yet. -/
def Fresh (protocol : Protocol) (name : Bytes) (type : UInt8) : Prop :=
  type∉protocol.messages.map Message.type ∧ name∉protocol.messages.map Message.name

theorem parseHeader_ahead (h : p.parseHeader protocol=.ok (m,q)) (hq : q.Ahead l) :
    ∃ name c, Fresh protocol name c ∧ m=⟨name,c,[],1⟩ ∧
      p.Ahead (.ident (text "message")::.ident name::.string [c]::.lBrace::l) := by
  simp only [parseHeader,bind_eq_ok,failIf_ok,not_not] at h
  obtain ⟨p1,h1,⟨name,p2⟩,h2,⟨type,p3⟩,h3,_,hlen,_,htype,_,hname,⟨_,p4⟩,h4,h⟩ := h
  cases h
  obtain ⟨c,hc⟩ := List.length_eq_one_iff.mp hlen
  rw [hc] at htype ⊢
  exact ⟨name.text,c,⟨htype,hname⟩,rfl,expectIdent_ahead h1 (expect_ahead h2 rfl
    (expect_ahead h3 (by rw [hc]; rfl) (expect_ahead h4 rfl hq)))⟩

theorem Ahead.parseHeader {name : Bytes} {c : UInt8} (hnew : Fresh protocol name c)
    (h : p.Ahead (.ident (text "message")::.ident name::.string [c]::.lBrace::l)) :
    ∃ q, p.parseHeader protocol=.ok (⟨name,c,[],1⟩,q) ∧ q.Ahead l := by
  obtain ⟨p1,h1,a1⟩ := h.expectIdent
  obtain ⟨nameToken,p2,h2,hn,a2⟩ := a1.expect
  obtain ⟨type,p3,h3,ht,a3⟩ := a2.expect
  obtain ⟨_,p4,h4,-,a4⟩ := a3.expect
  obtain rfl : nameToken.text=name := Lexeme.ident.inj (Option.some.inj hn)
  have hc : type.text=[c] := Lexeme.string.inj (Option.some.inj ht)
  refine ⟨p4,?_,a4⟩
  simp only [Parser.parseHeader,bind_eq_ok,failIf_ok,not_not]
  refine ⟨p1,h1,_,h2,_,h3,(),by rw [hc]; rfl,(),?_,(),hnew.2,_,h4,?_⟩
  · rw [hc]
    exact hnew.1
  · rw [hc]
    rfl

/-- The protocol with one more message. -/
def addMessage (protocol : Protocol) (m : MessageDecl) : Protocol :=
  { protocol with messages := protocol.messages++[m.layout] }

theorem parseMessage_ahead (h : p.parseMessage protocol=.ok (protocol',q)) (hq : q.Ahead l) :
    ∃ (m : MessageDecl) (r : List Lexeme), m.Tokens r ∧ Fresh protocol m.name m.type ∧
      protocol'=addMessage protocol m ∧ p.Ahead (r++l) := by
  simp only [parseMessage,bind_eq_ok] at h
  obtain ⟨⟨m,p1⟩,h1,⟨m',p2⟩,h2,⟨_,p3⟩,h3,h⟩ := h
  cases h
  obtain ⟨fs,r,hr,hnodup,rfl,ha⟩ := parseFields_ahead h2 (expect_ahead h3 rfl hq)
  obtain ⟨name,c,hnew,rfl,ha'⟩ := parseHeader_ahead h1 ha
  refine ⟨⟨name,c,fs,hnodup List.nodup_nil⟩,_,.mk hr,hnew,rfl,?_⟩
  simpa using ha'

theorem Ahead.parseMessage {m : MessageDecl} {r : List Lexeme} (hm : m.Tokens r)
    (hnew : Fresh protocol m.name m.type) (h : p.Ahead (r++l)) :
    ∃ q, p.parseMessage protocol=.ok (addMessage protocol m,q) ∧ q.Ahead l := by
  cases hm with
  | mk hr =>
    simp only [List.cons_append,List.append_assoc,List.nil_append] at h
    obtain ⟨p1,h1,a1⟩ := h.parseHeader hnew
    obtain ⟨p2,h2,a2⟩ := a1.parseFields (m := ⟨m.name,m.type,[],1⟩) hr m.names_nodup
    obtain ⟨_,p3,h3,-,a3⟩ := a2.expect
    refine ⟨p3,?_,a3⟩
    simp only [Parser.parseMessage,bind_eq_ok]
    exact ⟨_,h1,_,h2,_,h3,rfl⟩

theorem parseMessages_step (hk : p.current.kind≠.endToken)
    (h : p.parseMessage protocol=.ok (protocol',q)) :
    p.parseMessages protocol=q.parseMessages protocol' := by
  rw [parseMessages,if_neg hk]
  split
  · rename_i he
    cases he.symm.trans h
  · rename_i he
    cases he.symm.trans h
    rfl

theorem parseMessages_ahead (h : p.parseMessages protocol=.ok protocol') :
    ∃ (ms : List MessageDecl) (r : List Lexeme), Each MessageDecl.Tokens ms r ∧
      ((protocol.messages.map Message.type).Nodup →
        (protocol.messages.map Message.type++ms.map MessageDecl.type).Nodup) ∧
      ((protocol.messages.map Message.name).Nodup →
        (protocol.messages.map Message.name++ms.map MessageDecl.name).Nodup) ∧
      protocol'=⟨protocol.name,protocol.messages++ms.map MessageDecl.layout⟩ ∧ p.Ahead r := by
  fun_induction parseMessages p protocol with
  | case1 p protocol hk =>
    cases h
    exact ⟨[],[],.nil,fun h => by simpa using h,fun h => by simpa using h,by simp,
      .done (Token.lexeme_eq_none.mpr hk)⟩
  | case2 p protocol hk e he => cases h
  | case3 p protocol hk protocol1 q1 hm hlt ih =>
    obtain ⟨ms,r,hr,htypes,hnames,rfl,ha⟩ := ih h
    obtain ⟨m,r',hr',hnew,rfl,ha'⟩ := parseMessage_ahead hm ha
    simp only [addMessage,List.map_append,List.map_cons,List.map_nil,MessageDecl.layout_type,
      MessageDecl.layout_name,List.append_assoc,List.cons_append,List.nil_append] at htypes hnames
    exact ⟨m::ms,r'++r,.cons hr' hr,fun h => htypes (List.concat_eq_append ▸ h.concat hnew.1),
      fun h => hnames (List.concat_eq_append ▸ h.concat hnew.2),by simp [addMessage],ha'⟩

theorem Ahead.parseMessages {ms : List MessageDecl} {r : List Lexeme}
    (hr : Each MessageDecl.Tokens ms r)
    (htypes : (protocol.messages.map Message.type++ms.map MessageDecl.type).Nodup)
    (hnames : (protocol.messages.map Message.name++ms.map MessageDecl.name).Nodup)
    (h : p.Ahead r) : p.parseMessages protocol=
      .ok ⟨protocol.name,protocol.messages++ms.map MessageDecl.layout⟩ := by
  induction hr generalizing p protocol with
  | nil =>
    cases h with
    | done hk =>
      rw [Parser.parseMessages,if_pos (Token.lexeme_eq_none.mp hk),List.map_nil,List.append_nil]
  | @cons m ms r rs hm hms ih =>
    have hnew : Fresh protocol m.name m.type :=
      ⟨fun hmem => List.disjoint_of_nodup_append htypes hmem (by simp),
        fun hmem => List.disjoint_of_nodup_append hnames hmem (by simp)⟩
    obtain ⟨q,hq,ha⟩ := h.parseMessage hm hnew
    have hk : p.current.kind≠.endToken := by
      cases hm with
      | mk hr =>
        rw [Ahead.kind h]
        nofun
    rw [parseMessages_step hk hq,ih _ _ ha]
    · simp [addMessage]
    · simpa [addMessage] using htypes
    · simpa [addMessage] using hnames

end Parser

/-- The parser returns the layout of the schema that the text writes, if it writes one. -/
theorem parse_ok {t : Bytes} {p : Protocol} :
    parse t=.ok p ↔ ∃ s : Schema, s.Text t ∧ p=s.protocol := by
  simp only [parse,Parser.create,bind_eq_ok]
  constructor
  · rintro ⟨p0,⟨⟨token,lexer⟩,hn,h⟩,p1,h1,⟨name,p2⟩,h2,⟨_,p3⟩,h3,h4⟩
    cases h
    obtain ⟨ms,r,hr,htypes,hnames,rfl,ha⟩ := Parser.parseMessages_ahead h4
    refine ⟨⟨name.text,ms,htypes List.nodup_nil,hnames List.nodup_nil⟩,⟨_,.mk hr,?_⟩,rfl⟩
    refine (written_iff_ahead 1 ?_).mpr ⟨⟨lexer,token⟩,hn,?_⟩
    · exact fun c _ => Bool.false_ne_true
    · exact Parser.expectIdent_ahead h1 (Parser.expect_ahead h2 rfl
        (Parser.expect_ahead h3 rfl ha))
  · rintro ⟨s,⟨l,hl,ht⟩,rfl⟩
    cases hl with
    | mk hl =>
      obtain ⟨p0,hn,a0⟩ := (written_iff_ahead 1 ht.ends).mp ht
      obtain ⟨p1,h1,a1⟩ := a0.expectIdent
      obtain ⟨name,p2,h2,hname,a2⟩ := a1.expect
      obtain ⟨_,p3,h3,-,a3⟩ := a2.expect
      have hname : name.text=s.name := Lexeme.ident.inj (Option.some.inj hname)
      refine ⟨p0,⟨_,hn,rfl⟩,p1,h1,_,h2,_,h3,?_⟩
      rw [hname]
      exact a3.parseMessages hl s.types_nodup s.names_nodup

/-- The front end accepts exactly its language. Every input is answered; a text that writes a
schema, with whatever separators, gives that schema's layout, and any other text is refused. -/
theorem parse_exact (t : Bytes) :
    (∀ p, parse t=.ok p ↔ ∃ s : Schema, s.Text t ∧ p=s.protocol) ∧
    ((∃ e, parse t=.error e) ↔ ¬∃ s : Schema, s.Text t) ∧
    ∀ s : Schema, s.Text t → parse t=.ok s.protocol ∧ s.protocol.name=s.name ∧
      s.protocol.messages.map Message.declared=s.messages.map MessageDecl.declared := by
  refine ⟨fun p => parse_ok,?_,fun s hs => ⟨parse_ok.mpr ⟨s,hs,rfl⟩,rfl,s.declared_protocol⟩⟩
  constructor
  · rintro ⟨e,he⟩ ⟨s,hs⟩
    cases he.symm.trans (parse_ok.mpr ⟨s,hs,rfl⟩)
  · intro hno
    cases h : parse t with
    | error e => exact ⟨e,rfl⟩
    | ok p =>
      obtain ⟨s,hs,-⟩ := parse_ok.mp h
      exact absurd ⟨s,hs⟩ hno

/-- A text with a width that has a leading zero and a comment that runs to its end. -/
theorem parse_exact_comment : ∃ s : Schema,
    s.Text (text "protocol P;message M \"/\"\x7bx:u8;\n y : ascii[08];\x7d// end") ∧
    s.protocol=⟨text "P",[⟨text "M",47,[⟨text "x",.u8,1,1⟩,⟨text "y",.ascii,8,2⟩],10⟩]⟩ := by
  have h : parse (text "protocol P;message M \"/\"\x7bx:u8;\n y : ascii[08];\x7d// end")=
      .ok ⟨text "P",[⟨text "M",47,[⟨text "x",.u8,1,1⟩,⟨text "y",.ascii,8,2⟩],10⟩]⟩ := by
    decide +kernel
  obtain ⟨s,hs,hp⟩ := ((parse_exact _).1 _).mp h
  exact ⟨s,hs,hp.symm⟩

end MarketWire.Protocolc
