import MarketWire.SchemaGrammar
import Mathlib.Data.List.TakeWhile

/-! The lexer reads exactly the tokens of a text, whatever separates them. -/
namespace MarketWire.Protocolc

/-! ### Character classes -/

theorem isSpace_iff {c : UInt8} : isSpace c ↔ c.toNat=32 ∨ 9≤c.toNat ∧ c.toNat≤13 := by
  simp [isSpace,UInt8.le_iff_toNat_le,← UInt8.toNat_inj]

theorem isDigit_iff {c : UInt8} : isDigit c ↔ 48≤c.toNat ∧ c.toNat≤57 := by
  simp [isDigit,UInt8.le_iff_toNat_le]

theorem isAlpha_iff {c : UInt8} :
    isAlpha c ↔ 65≤c.toNat ∧ c.toNat≤90 ∨ 97≤c.toNat ∧ c.toNat≤122 := by
  simp [isAlpha,UInt8.le_iff_toNat_le]

theorem isWord_iff {c : UInt8} : isWord c ↔ (isAlpha c ∨ c=95) ∨ isDigit c := by
  simp only [isWord,Bool.or_eq_true,beq_iff_eq]
  tauto

theorem not_isDigit {c : UInt8} (h : isAlpha c ∨ c=95) : ¬isDigit c := by
  intro hd
  rw [isAlpha_iff,← UInt8.toNat_inj] at h
  rw [isDigit_iff] at hd
  change _ ∨ c.toNat=95 at h
  omega

/-- Characters that start a separator. -/
def startsGap (c : UInt8) : Prop := isSpace c ∨ c=slash

instance (c : UInt8) : Decidable (startsGap c) :=
  inferInstanceAs (Decidable (isSpace c=true ∨ c=slash))

theorem isWord_not_startsGap {c : UInt8} (h : isWord c) : ¬startsGap c := by
  rintro (hs | rfl)
  · rw [isWord_iff,isAlpha_iff,isDigit_iff,← UInt8.toNat_inj] at h
    rw [isSpace_iff] at hs
    change (_ ∨ c.toNat=95) ∨ _ at h
    omega
  · exact absurd h (by decide)

/-! ### Separators -/

theorem Gap.head {c : UInt8} {s : Bytes} (h : Gap (c::s)) : startsGap c := by
  cases h with
  | space hc hs => exact .inl hc
  | comment hb hs => exact .inr rfl

theorem Trailer.head {c : UInt8} {s : Bytes} (h : Trailer (c::s)) : startsGap c := by
  generalize ht : c::s=t at h
  cases h with
  | gap hs =>
    subst ht
    exact hs.head
  | @comment gap body hs hb =>
    cases gap with
    | nil =>
      cases ht
      exact .inr rfl
    | cons d rest =>
      cases ht
      exact hs.head

theorem Trailer.space {c : UInt8} {s : Bytes} (h : Trailer s) (hc : isSpace c) :
    Trailer (c::s) := by
  cases h with
  | gap hs => exact .gap (hs.space hc)
  | comment hs hb => exact .comment (hs.space hc) hb

/-- A comment before the end of its line. -/
theorem Gap.after_comment {s body : Bytes} (h : Gap (newline::s)) (hb : newline∉body) :
    Gap (slash::slash::(body++newline::s)) := by
  cases h with
  | space hc hs => exact .comment hb hs

theorem Trailer.after_comment {s body : Bytes} (h : Trailer (newline::s)) (hb : newline∉body) :
    Trailer (slash::slash::(body++newline::s)) := by
  generalize ht : newline::s=t at h ⊢
  cases h with
  | gap hs =>
    subst ht
    exact .gap (hs.after_comment hb)
  | @comment gap last hs hl =>
    cases gap with
    | nil => cases ht
    | cons d gap =>
      obtain ⟨rfl,rfl⟩ := List.cons.inj ht
      have h := Trailer.comment (hs.after_comment hb) hl
      rwa [List.cons_append,List.cons_append,List.append_assoc] at h

theorem not_of_mem_head?_dropWhile {p : UInt8 → Bool} {t : Bytes} {c : UInt8}
    (h : c∈(t.dropWhile p).head?) : ¬p c := by
  have hn := List.head?_dropWhile_not p t
  rw [Option.mem_def.mp h] at hn
  simpa using hn

/-- The rest of a comment's line, and where the lexer goes on. -/
theorem cut_comment (r : Bytes) : ∃ body, newline∉body ∧
    (r=body ∧ r.dropWhile (fun c => decide (c≠newline))=[] ∨
      ∃ x, r=body++newline::x ∧ r.dropWhile (fun c => decide (c≠newline))=newline::x) := by
  refine ⟨r.takeWhile (fun c => decide (c≠newline)),fun h => ?_,?_⟩
  · simpa using List.mem_takeWhile_imp h
  · have hr : r.takeWhile (fun c => decide (c≠newline))++
        r.dropWhile (fun c => decide (c≠newline))=r := List.takeWhile_append_dropWhile
    have hh : ∀ c∈(r.dropWhile (fun c => decide (c≠newline))).head?, c=newline := fun c hc => by
      simpa using not_of_mem_head?_dropWhile hc
    cases hd : r.dropWhile (fun c => decide (c≠newline)) with
    | nil =>
      rw [hd,List.append_nil] at hr
      exact .inl ⟨hr.symm,rfl⟩
    | cons d x =>
      obtain rfl : d=newline := hh d (by rw [hd]; rfl)
      rw [hd] at hr
      exact .inr ⟨x,hr.symm,rfl⟩

namespace Lexer

/-- A separator is skipped. -/
theorem skipWsComments_gap {s : Bytes} (hs : Gap s) (t : Bytes) (line : Nat) :
    ∃ line', skipWsComments (s++t) line=skipWsComments t line' := by
  induction hs generalizing line with
  | nil => exact ⟨line,rfl⟩
  | @space c s hc hs ih =>
    rw [List.cons_append,skipWsComments]
    split_ifs
    · exact ih (line+1)
    · exact ih line
  | @comment body s hb hs ih =>
    have hdrop : (body++newline::(s++t)).dropWhile (fun c => decide (c≠newline))=
        newline::(s++t) := by
      rw [List.dropWhile_append_of_pos fun c hc => by
        simpa using fun he : c=newline => hb (he ▸ hc)]
      simp
    obtain ⟨line',h⟩ := ih (line+1)
    refine ⟨line',?_⟩
    rw [← h,List.cons_append,skipWsComments,if_neg (by decide),if_neg (by decide),
      if_pos ⟨rfl,rfl⟩,List.cons_append,List.tail_cons,List.append_assoc,List.cons_append,hdrop,
      skipWsComments,if_pos rfl]

/-- Nothing is skipped before a token. -/
theorem skipWsComments_start {c : UInt8} (h : ¬startsGap c) (t : Bytes) (line : Nat) :
    skipWsComments (c::t) line=⟨c::t,line⟩ := by
  have hs : ¬isSpace c := fun hs => h (.inl hs)
  have hn : c≠newline := by
    rintro rfl
    exact hs (by decide)
  rw [skipWsComments,if_neg hn,if_neg hs,if_neg fun hc => h (.inr hc.1)]

theorem skipWsComments_trailer {t : Bytes} (h : Trailer t) (line : Nat) :
    ∃ line', skipWsComments t line=⟨[],line'⟩ := by
  cases h with
  | gap hs =>
    obtain ⟨line',h⟩ := skipWsComments_gap hs [] line
    rw [List.append_nil] at h
    exact ⟨line',h.trans (by rw [skipWsComments])⟩
  | @comment s body hs hb =>
    obtain ⟨line',h⟩ := skipWsComments_gap hs (slash::slash::body) line
    have hdrop : body.dropWhile (fun c => decide (c≠newline))=[] := by
      rw [List.dropWhile_eq_nil_iff]
      intro c hc
      simpa using fun he : c=newline => hb (he ▸ hc)
    refine ⟨line',h.trans ?_⟩
    rw [skipWsComments,if_neg (by decide),if_neg (by decide),if_pos ⟨rfl,rfl⟩,List.tail_cons,
      hdrop,skipWsComments]

/-- What was skipped, and that no white space follows it. -/
theorem skipWsComments_spec (t : Bytes) (line : Nat) :
    (∃ s, t=s++(skipWsComments t line).rest ∧ Trailer s ∧
      ((skipWsComments t line).rest≠[] → Gap s)) ∧
    ∀ c∈(skipWsComments t line).rest.head?, ¬isSpace c := by
  fun_induction skipWsComments t line with
  | case1 line => exact ⟨⟨[],rfl,.gap .nil,fun _ => .nil⟩,by simp⟩
  | case2 rest line ih =>
    obtain ⟨⟨s,ht,hs,hg⟩,hc⟩ := ih
    exact ⟨⟨newline::s,by rw [List.cons_append,← ht],hs.space (by decide),
      fun h => .space (by decide) (hg h)⟩,hc⟩
  | case3 c rest line hn hsp ih =>
    obtain ⟨⟨s,ht,hs,hg⟩,hc⟩ := ih
    exact ⟨⟨c::s,by rw [List.cons_append,← ht],hs.space hsp,fun h => .space hsp (hg h)⟩,hc⟩
  | case4 c rest line hn hsp hc ih =>
    obtain ⟨rfl,hh⟩ := hc
    obtain ⟨r,rfl⟩ : ∃ r, rest=slash::r := List.head?_eq_some_iff.mp hh
    rw [List.tail_cons] at ih ⊢
    obtain ⟨body,hb,⟨rfl,hd⟩ | ⟨x,rfl,hd⟩⟩ := cut_comment r
    · refine ⟨⟨slash::slash::r,?_,.comment .nil hb,fun h => ?_⟩,ih.2⟩
      · rw [hd,skipWsComments,List.append_nil]
      · rw [hd,skipWsComments] at h
        exact absurd rfl h
    · rw [hd] at ih ⊢
      obtain ⟨⟨s,ht,hs,hg⟩,hc⟩ := ih
      -- the line end belongs to what was skipped
      cases s with
      | nil =>
        rw [List.nil_append] at ht
        rw [← ht] at hc
        exact absurd (by decide) (hc newline rfl)
      | cons d s =>
        rw [List.cons_append] at ht
        obtain ⟨rfl,hx⟩ := List.cons.inj ht
        exact ⟨⟨slash::slash::(body++newline::s),by simp [← hx],hs.after_comment hb,
          fun h => (hg h).after_comment hb⟩,hc⟩
  | case5 c rest line hn hs hc => 
    refine ⟨⟨[],rfl,.gap .nil,fun _ => .nil⟩,?_⟩
    rintro d ⟨⟩
    exact hs

/-! ### Tokens -/

theorem stringToken_ok {out t : Bytes} {line : Nat} {token : Token} {lexer : Lexer} :
    stringToken out t line=.ok (token,lexer) ↔ ∃ body, quote∉body ∧ newline∉body ∧
      token=⟨.string,out++body,line⟩ ∧ lexer.line=line ∧ t=body++quote::lexer.rest := by
  induction t generalizing out with
  | nil => simp [stringToken]
  | cons c rest ih =>
    rw [stringToken]
    constructor
    · intro h
      split_ifs at h with hq hn
      · cases h
        exact ⟨[],List.not_mem_nil,List.not_mem_nil,by rw [List.append_nil],rfl,by rw [hq]; rfl⟩
      · obtain ⟨body,hb,hb',rfl,hl,rfl⟩ := ih.mp h
        exact ⟨c::body,by simp [hb,Ne.symm hq],by simp [hb',Ne.symm hn],by simp,hl,rfl⟩
    · rintro ⟨body,hb,hb',rfl,hl,ht⟩
      cases body with
      | nil =>
        obtain ⟨rfl,rfl⟩ := List.cons.inj ht
        rw [if_pos rfl,List.append_nil,← hl]
      | cons d body =>
        obtain ⟨rfl,rfl⟩ := List.cons.inj ht
        rw [List.mem_cons,not_or] at hb hb'
        rw [if_neg (Ne.symm hb.1),if_neg (Ne.symm hb'.1)]
        exact ih.mpr ⟨body,hb.2,hb'.2,by simp,hl,rfl⟩

end Lexer

/-- Characters that a token of this kind goes on with. -/
def Kind.continues : Kind → UInt8 → Bool
  | .ident, c => isWord c
  | .number, c => isDigit c
  | _, _ => false

/-- A token of this kind ends before the text. -/
def Kind.Ends (kind : Kind) (t : Bytes) : Prop := ∀ c∈t.head?, ¬kind.continues c

/-- The lexeme of a token of this kind. -/
def Kind.lexeme (kind : Kind) (t : Bytes) : Option Lexeme :=
  match kind with
  | .ident => some (.ident t)
  | .string => some (.string t)
  | .number => some (.number t)
  | .lBrace => some .lBrace
  | .rBrace => some .rBrace
  | .lBracket => some .lBracket
  | .rBracket => some .rBracket
  | .colon => some .colon
  | .semicolon => some .semicolon
  | .endToken => none

def Token.lexeme (token : Token) : Option Lexeme := token.kind.lexeme token.text

theorem Token.lexeme_eq_none {token : Token} : token.lexeme=none ↔ token.kind=.endToken := by
  unfold lexeme
  cases token.kind <;> simp [Kind.lexeme]

theorem Kind.kind_lexeme {kind : Kind} {t : Bytes} {x : Lexeme} (h : kind.lexeme t=some x) :
    x.kind=kind := by
  cases kind <;> cases h <;> rfl

theorem Lexeme.of_punctuation {c : UInt8} {kind : Kind} (h : Lexer.punctuation c=some kind)
    (t : Bytes) : ∃ x : Lexeme, kind.lexeme t=some x ∧ x.Valid ∧ x.spelling=[c] ∧
      ∀ d, kind.continues d=false := by
  unfold Lexer.punctuation at h
  split_ifs at h with h1 h2 h3 h4 h5 h6
  · cases h
    exact ⟨lBrace,rfl,.lBrace,by rw [h1]; rfl,fun _ => rfl⟩
  · cases h
    exact ⟨rBrace,rfl,.rBrace,by rw [h2]; rfl,fun _ => rfl⟩
  · cases h
    exact ⟨lBracket,rfl,.lBracket,by rw [h3]; rfl,fun _ => rfl⟩
  · cases h
    exact ⟨rBracket,rfl,.rBracket,by rw [h4]; rfl,fun _ => rfl⟩
  · cases h
    exact ⟨colon,rfl,.colon,by rw [h5]; rfl,fun _ => rfl⟩
  · cases h
    exact ⟨semicolon,rfl,.semicolon,by rw [h6]; rfl,fun _ => rfl⟩

namespace Lexer

theorem punctuation_isWord {c : UInt8} (h : isWord c) : punctuation c=none ∧ c≠quote := by
  refine ⟨?_,?_⟩
  · unfold punctuation
    split_ifs with h1 h2 h3 h4 h5 h6
    · exact absurd h (by subst h1; decide)
    · exact absurd h (by subst h2; decide)
    · exact absurd h (by subst h3; decide)
    · exact absurd h (by subst h4; decide)
    · exact absurd h (by subst h5; decide)
    · exact absurd h (by subst h6; decide)
    · rfl
  · rintro rfl
    exact absurd h (by decide)

/-- A run of characters and what ends it. -/
theorem runToken_append {kind : Kind} {p : UInt8 → Bool} {c : UInt8} {body t : Bytes} {line : Nat}
    (hb : ∀ d∈body, p d) (ht : ∀ d∈t.head?, ¬p d) :
    runToken kind p c (body++t) line=(⟨kind,c::body,line⟩,⟨t,line⟩) := by
  have hw : (body++t).takeWhile p=body ∧ (body++t).dropWhile p=t := by
    rw [List.takeWhile_append_of_pos hb,List.dropWhile_append_of_pos hb]
    cases t with
    | nil => simp
    | cons d t =>
      have hd : ¬p d := ht d rfl
      simp [hd]
  rw [runToken,hw.1,hw.2]

end Lexer

/-- No token starts like a separator. -/
theorem Lexeme.Valid.start {x : Lexeme} (hx : x.Valid) :
    ∃ c r, x.spelling=c::r ∧ ¬startsGap c := by
  cases hx with
  | @ident c t hc ht => exact ⟨c,t,rfl,isWord_not_startsGap (isWord_iff.mpr (.inl hc))⟩
  | @number c t hc ht => exact ⟨c,t,rfl,isWord_not_startsGap (isWord_iff.mpr (.inr hc))⟩
  | @string t hq hn => exact ⟨quote,t++[quote],rfl,by decide⟩
  | lBrace => exact ⟨123,[],rfl,by decide⟩
  | rBrace => exact ⟨125,[],rfl,by decide⟩
  | lBracket => exact ⟨91,[],rfl,by decide⟩
  | rBracket => exact ⟨93,[],rfl,by decide⟩
  | colon => exact ⟨58,[],rfl,by decide⟩
  | semicolon => exact ⟨59,[],rfl,by decide⟩

namespace Lexer

section
variable {lexer : Lexer} {c : UInt8} {rest : Bytes} {line : Nat}
  (h : skipWsComments lexer.rest lexer.line=⟨c::rest,line⟩)
include h

theorem next_mark {kind : Kind} (hp : punctuation c=some kind) :
    lexer.next=.ok (⟨kind,[c],line⟩,⟨rest,line⟩) := by
  simp only [next,h,hp]

theorem next_string (hc : c=quote) : lexer.next=stringToken [] rest line := by
  subst hc
  rw [next,h]
  rfl

theorem next_number (hc : isDigit c) : lexer.next=.ok (runToken .number isDigit c rest line) := by
  obtain ⟨hp,hq⟩ := punctuation_isWord (isWord_iff.mpr (.inr hc))
  simp only [next,h,hp,if_neg hq,if_pos hc]

theorem next_ident (hc : isAlpha c ∨ c=95) :
    lexer.next=.ok (runToken .ident isWord c rest line) := by
  obtain ⟨hp,hq⟩ := punctuation_isWord (isWord_iff.mpr (.inl hc))
  simp only [next,h,hp,if_neg hq,if_neg (not_isDigit hc),if_pos hc]

end

/-- A token after a separator is read. -/
theorem next_token {s t : Bytes} {x : Lexeme} (hs : Gap s) (hx : x.Valid) (he : x.kind.Ends t)
    (line : Nat) : ∃ token line', next ⟨s++(x.spelling++t),line⟩=.ok (token,⟨t,line'⟩) ∧
      token.lexeme=some x := by
  obtain ⟨line',hskip⟩ := skipWsComments_gap hs (x.spelling++t) line
  obtain ⟨c,r,hspell,hstart⟩ := hx.start
  rw [hspell,List.cons_append,skipWsComments_start hstart,← List.cons_append,← hspell] at hskip
  cases hx with
  | @ident c body hc ht =>
    exact ⟨⟨.ident,c::body,line'⟩,line',
      (next_ident hskip hc).trans (congrArg Except.ok (runToken_append ht he)),rfl⟩
  | @number c body hc ht =>
    exact ⟨⟨.number,c::body,line'⟩,line',
      (next_number hskip hc).trans (congrArg Except.ok (runToken_append ht he)),rfl⟩
  | @string body hq hn =>
    exact ⟨⟨.string,body,line'⟩,line',(next_string hskip rfl).trans
      (stringToken_ok.mpr ⟨body,hq,hn,rfl,rfl,List.append_assoc _ _ _⟩),rfl⟩
  | lBrace => exact ⟨_,_,next_mark hskip rfl,rfl⟩
  | rBrace => exact ⟨_,_,next_mark hskip rfl,rfl⟩
  | lBracket => exact ⟨_,_,next_mark hskip rfl,rfl⟩
  | rBracket => exact ⟨_,_,next_mark hskip rfl,rfl⟩
  | colon => exact ⟨_,_,next_mark hskip rfl,rfl⟩
  | semicolon => exact ⟨_,_,next_mark hskip rfl,rfl⟩

/-- After the last token only the end of the input is left. -/
theorem next_trailer {t : Bytes} (ht : Trailer t) (line : Nat) :
    ∃ line', next ⟨t,line⟩=.ok (⟨.endToken,[],line'⟩,⟨[],line'⟩) := by
  obtain ⟨line',h⟩ := skipWsComments_trailer ht line
  exact ⟨line',by rw [next,h]⟩

/-- What a call of the lexer has read. -/
theorem next_ok {lexer lexer' : Lexer} {token : Token} (h : lexer.next=.ok (token,lexer')) :
    token.kind=.endToken ∧ Trailer lexer.rest ∨
    ∃ s x, Gap s ∧ x.Valid ∧ token.lexeme=some x ∧ lexer.rest=s++(x.spelling++lexer'.rest) ∧
      x.kind.Ends lexer'.rest := by
  obtain ⟨⟨s,ht,hs,hg⟩,-⟩ := skipWsComments_spec lexer.rest lexer.line
  cases hskip : skipWsComments lexer.rest lexer.line with
  | mk rest line =>
    rw [hskip] at ht hg
    cases rest with
    | nil =>
      rw [next,hskip] at h
      cases h
      rw [List.append_nil] at ht
      exact .inl ⟨rfl,ht ▸ hs⟩
    | cons c rest =>
      rw [ht]
      refine .inr ⟨s,?_⟩
      have hgap : Gap s := hg (List.cons_ne_nil c rest)
      cases hp : punctuation c with
      | some kind =>
        rw [next_mark hskip hp] at h
        cases h
        obtain ⟨x,hx,hv,hsp,hc⟩ := Lexeme.of_punctuation hp [c]
        exact ⟨x,hgap,hv,hx,by rw [hsp]; rfl,fun d _ => by simp [Kind.kind_lexeme hx,hc]⟩
      | none =>
        by_cases hq : c=quote
        · rw [next_string hskip hq] at h
          obtain ⟨body,hb,hb',rfl,-,rfl⟩ := stringToken_ok.mp h
          exact ⟨.string body,hgap,.string hb hb',rfl,by simp [Lexeme.spelling,hq],fun d _ => by
            simp [Lexeme.kind,Kind.continues]⟩
        by_cases hd : isDigit c
        · rw [next_number hskip hd] at h
          cases h
          exact ⟨.number (c::rest.takeWhile isDigit),hgap,
            .number hd fun d => List.mem_takeWhile_imp,rfl,by simp [Lexeme.spelling],
            fun d => not_of_mem_head?_dropWhile⟩
        by_cases ha : isAlpha c ∨ c=95
        · rw [next_ident hskip ha] at h
          cases h
          exact ⟨.ident (c::rest.takeWhile isWord),hgap,
            .ident ha fun d => List.mem_takeWhile_imp,rfl,by simp [Lexeme.spelling],
            fun d => not_of_mem_head?_dropWhile⟩
        · simp only [next,hskip,hp,if_neg hq,if_neg hd,if_neg ha] at h
          cases h

end Lexer

/-! ### Token sequences -/

theorem Kind.continues_isWord {kind : Kind} {c : UInt8} (h : kind.continues c) : isWord c := by
  cases kind with
  | ident => exact h
  | number => exact isWord_iff.mpr (.inr h)
  | _ => cases h

theorem Kind.ends_gap (kind : Kind) {c : UInt8} (h : startsGap c) (t : Bytes) :
    kind.Ends (c::t) := by
  rintro d ⟨⟩ hc
  exact isWord_not_startsGap (kind.continues_isWord hc) h

/-- Two tokens without a separator stay apart unless their kinds join. -/
theorem Kind.ends_spelling {kind : Kind} {x : Lexeme} (hx : x.Valid) (t : Bytes) :
    kind.Ends (x.spelling++t) ↔ ¬kind.joins x.kind := by
  have hhead : ∀ {c : UInt8} {r : Bytes}, kind.Ends (c::r) ↔ ¬kind.continues c := by
    simp [Kind.Ends]
  cases hx with
  | @ident c body hc ht =>
    have hw : isWord c := isWord_iff.mpr (.inl hc)
    have hd : ¬isDigit c := not_isDigit hc
    refine Iff.trans hhead ?_
    cases kind <;> simp [Kind.continues,Kind.joins,Lexeme.kind,hw,hd]
  | @number c body hc ht =>
    have hw : isWord c := isWord_iff.mpr (.inr hc)
    refine Iff.trans hhead ?_
    cases kind <;> simp [Kind.continues,Kind.joins,Lexeme.kind,hw,hc]
  | string hq hn =>
    refine Iff.trans hhead ?_
    change ¬kind.continues quote ↔ ¬kind.joins .string
    cases kind <;> decide
  | lBrace => exact hhead.trans (by cases kind <;> decide)
  | rBrace => exact hhead.trans (by cases kind <;> decide)
  | lBracket => exact hhead.trans (by cases kind <;> decide)
  | rBracket => exact hhead.trans (by cases kind <;> decide)
  | colon => exact hhead.trans (by cases kind <;> decide)
  | semicolon => exact hhead.trans (by cases kind <;> decide)

/-- The text after a token does not go on with it. -/
theorem Written.ends {last : Kind} {l : List Lexeme} {t : Bytes} (h : Written last l t) :
    last.Ends t := by
  cases h with
  | done ht =>
    cases t with
    | nil => exact nofun
    | cons c t => exact last.ends_gap ht.head t
  | @token _ s t x l hs hx hj ht =>
    cases s with
    | nil => exact (Kind.ends_spelling hx t).mpr fun h => hj h rfl
    | cons c s => exact last.ends_gap hs.head _

/-- The tokens that a parser has before it, the current one first. -/
inductive Parser.Ahead : Parser → List Lexeme → Prop
  | done {p : Parser} (hk : p.current.lexeme=none) : Ahead p []
  | token {p q : Parser} {x : Lexeme} {l : List Lexeme} (hx : p.current.lexeme=some x)
      (hn : p.lexer.next=.ok (q.current,q.lexer)) (hq : Ahead q l) : Ahead p (x::l)

/-- The lexer goes through exactly the token sequences that the text spells. -/
theorem written_iff_ahead {last : Kind} {l : List Lexeme} {t : Bytes} (line : Nat)
    (he : last.Ends t) : Written last l t ↔
      ∃ p : Parser, Lexer.next ⟨t,line⟩=.ok (p.current,p.lexer) ∧ p.Ahead l := by
  constructor
  · intro h
    clear he
    induction h generalizing line with
    | done ht =>
      obtain ⟨line',hn⟩ := Lexer.next_trailer ht line
      exact ⟨⟨_,_⟩,hn,.done rfl⟩
    | @token last s t x l hs hx hj ht ih =>
      obtain ⟨token,line',hn,hl⟩ := Lexer.next_token hs hx ht.ends line
      obtain ⟨q,hq,ha⟩ := ih line'
      exact ⟨⟨⟨t,line'⟩,token⟩,hn,.token hl hq ha⟩
  · rintro ⟨p,hn,ha⟩
    induction ha generalizing last t line with
    | @done p hk =>
      obtain ⟨-,ht⟩ | ⟨s,x,-,-,hx,-⟩ := Lexer.next_ok hn
      · exact .done ht
      · rw [hk] at hx
        cases hx
    | @token p q x l hx hn' hq ih =>
      obtain ⟨hk,-⟩ | ⟨s,y,hs,hv,hy,ht,hends⟩ := Lexer.next_ok hn
      · rw [Token.lexeme_eq_none.mpr hk] at hx
        cases hx
      · obtain rfl : x=y := Option.some.inj (hx.symm.trans hy)
        change t=_ at ht
        subst ht
        refine .token hs hv (fun hj hs => ?_) (ih p.lexer.line hends hn')
        subst hs
        exact (Kind.ends_spelling hv _).mp he hj

end MarketWire.Protocolc
