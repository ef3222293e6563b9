import MarketWire.ItchDecoder

/-! The decoder over the generated views agrees with the handwritten reference on every byte
string. The layouts come out of the compiled schema; both sides then read the same offsets. -/
namespace MarketWire
open Protocolc

/-- The message types that carry a book event. -/
def bookTypes : List Char := ['A','F','E','C','X','D','U']

/-- Both throw `DecodeError`, or both return the same event. -/
def Agree (x y : Except Thrown (Option MarketEvent)) : Prop :=
  (∃ w w', x=.error (.decodeError w) ∧ y=.error (.decodeError w')) ∨
    ∃ e, x=.ok (some e) ∧ y=.ok (some e)

/-- The type of the message is declared in the schema, and its length is the declared one. -/
def Declared (b : Bytes) : Prop :=
  ∃ m∈Itch50.protocol.messages, b.head?=some m.type ∧ b.length=m.size.toNat

/-- The side byte of an add message is neither 'B' nor 'S'. -/
def BadSide (b : Bytes) : Prop :=
  (b.head?=some 'A'.toUInt8 ∨ b.head?=some 'F'.toUInt8) ∧
    byteAt b 19 ≠ 'B'.toUInt8 ∧ byteAt b 19 ≠ 'S'.toUInt8

namespace ReferenceItchDecoder

variable {b : Bytes}

theorem m_isOk (h : 11≤b.length) : ∃ e, m b=.ok e := by
  obtain ⟨locate,h1⟩ := readU16Be_isOk b 1 (by omega)
  obtain ⟨tracking,h2⟩ := readU16Be_isOk b 3 (by omega)
  obtain ⟨ts,h3⟩ := readU48Be_isOk b 5 (by omega)
  exact ⟨⟨locate,tracking,ts⟩,by rw [m,h1,h2,h3]; rfl⟩

/-- An add message of full length decodes unless its side byte is wrong. -/
theorem addEvent_cases (h : 36≤b.length) :
    (∃ e, addEvent b=.ok e) ∧ (byteAt b 19 = 'B'.toUInt8 ∨ byteAt b 19 = 'S'.toUInt8) ∨
      (∃ w, addEvent b=.error (.decodeError w)) ∧
        byteAt b 19 ≠ 'B'.toUInt8 ∧ byteAt b 19 ≠ 'S'.toUInt8 := by
  obtain ⟨e,h0⟩ := m_isOk (b := b) (by omega)
  obtain ⟨id,h1⟩ := readU64Be_isOk b 11 (by omega)
  obtain ⟨shares,h2⟩ := readU32Be_isOk b 20 (by omega)
  obtain ⟨price,h3⟩ := readU32Be_isOk b 32 (by omega)
  have hc := readChar_eq b 19 (by omega)
  have hv := readAsciiView_eq b 24 8 (by omega)
  simp only [addEvent,h0,h1,h2,h3,hc,hv,bind,Except.bind,pure,Except.pure,sideFromChar]
  by_cases hb : byteAt b 19 = 'B'.toUInt8
  · simp [hb]
  · by_cases hs : byteAt b 19 = 'S'.toUInt8
    · rw [if_neg hb,if_pos hs]
      simp [hs]
    · rw [if_neg hb,if_neg hs]
      simp [hb,hs]

theorem executeEvent_isOk (h : 31≤b.length) : ∃ e, executeEvent b=.ok e := by
  obtain ⟨e,h0⟩ := m_isOk (b := b) (by omega)
  obtain ⟨id,h1⟩ := readU64Be_isOk b 11 (by omega)
  obtain ⟨shares,h2⟩ := readU32Be_isOk b 19 (by omega)
  obtain ⟨matchNumber,h3⟩ := readU64Be_isOk b 23 (by omega)
  exact ⟨_,by rw [executeEvent,h0,h1,h2,h3]; rfl⟩

theorem executeWithPriceEvent_isOk (h : 36≤b.length) : ∃ e, executeWithPriceEvent b=.ok e := by
  obtain ⟨e,h0⟩ := m_isOk (b := b) (by omega)
  obtain ⟨id,h1⟩ := readU64Be_isOk b 11 (by omega)
  obtain ⟨shares,h2⟩ := readU32Be_isOk b 19 (by omega)
  obtain ⟨matchNumber,h3⟩ := readU64Be_isOk b 23 (by omega)
  obtain ⟨price,h4⟩ := readU32Be_isOk b 32 (by omega)
  have hc := readChar_eq b 31 (by omega)
  exact ⟨_,by rw [executeWithPriceEvent,h0,h1,h2,h3,h4,hc]; rfl⟩

theorem cancelEvent_isOk (h : 23≤b.length) : ∃ e, cancelEvent b=.ok e := by
  obtain ⟨e,h0⟩ := m_isOk (b := b) (by omega)
  obtain ⟨id,h1⟩ := readU64Be_isOk b 11 (by omega)
  obtain ⟨shares,h2⟩ := readU32Be_isOk b 19 (by omega)
  exact ⟨_,by rw [cancelEvent,h0,h1,h2]; rfl⟩

theorem deleteEvent_isOk (h : 19≤b.length) : ∃ e, deleteEvent b=.ok e := by
  obtain ⟨e,h0⟩ := m_isOk (b := b) (by omega)
  obtain ⟨id,h1⟩ := readU64Be_isOk b 11 (by omega)
  exact ⟨_,by rw [deleteEvent,h0,h1]; rfl⟩

theorem replaceEvent_isOk (h : 35≤b.length) : ∃ e, replaceEvent b=.ok e := by
  obtain ⟨e,h0⟩ := m_isOk (b := b) (by omega)
  obtain ⟨old,h1⟩ := readU64Be_isOk b 11 (by omega)
  obtain ⟨new,h2⟩ := readU64Be_isOk b 19 (by omega)
  obtain ⟨shares,h3⟩ := readU32Be_isOk b 27 (by omega)
  obtain ⟨price,h4⟩ := readU32Be_isOk b 31 (by omega)
  exact ⟨_,by rw [replaceEvent,h0,h1,h2,h3,h4]; rfl⟩

end ReferenceItchDecoder

namespace ItchDecoder

variable {b : Bytes}

/-! Each view's accessors read at the handwritten offsets. -/

theorem decodeAddOrder_eq (v : View Itch50.addOrder) :
    decodeAddOrder v=ReferenceItchDecoder.addEvent v.bytes := by rfl

theorem decodeAddOrderWithMpid_eq (v : View Itch50.addOrderWithMpid) :
    decodeAddOrderWithMpid v=ReferenceItchDecoder.addEvent v.bytes := by rfl

theorem decodeOrderExecuted_eq (v : View Itch50.orderExecuted) :
    decodeOrderExecuted v=ReferenceItchDecoder.executeEvent v.bytes := by rfl

theorem decodeOrderExecutedWithPrice_eq (v : View Itch50.orderExecutedWithPrice) :
    decodeOrderExecutedWithPrice v=ReferenceItchDecoder.executeWithPriceEvent v.bytes := by rfl

theorem decodeOrderCancel_eq (v : View Itch50.orderCancel) :
    decodeOrderCancel v=ReferenceItchDecoder.cancelEvent v.bytes := by rfl

theorem decodeOrderDelete_eq (v : View Itch50.orderDelete) :
    decodeOrderDelete v=ReferenceItchDecoder.deleteEvent v.bytes := by rfl

theorem decodeOrderReplace_eq (v : View Itch50.orderReplace) :
    decodeOrderReplace v=ReferenceItchDecoder.replaceEvent v.bytes := by rfl

theorem types_nodup : (Itch50.protocol.messages.map Message.type).Nodup := by decide +kernel

/-- Validation accepts exactly the declared types and lengths. -/
theorem validate_cases (b : Bytes) :
    validate b=.ok () ∧ Declared b ∨ (∃ w, validate b=.error (.decodeError w)) ∧ ¬Declared b := by
  cases b with
  | nil => exact .inr ⟨⟨_,rfl⟩,by simp [Declared]⟩
  | cons t rest =>
    cases hf : Itch50.protocol.messages.find? fun m => m.type=t with
    | none =>
      have hn := List.find?_eq_none.mp hf
      refine .inr ⟨⟨_,by rw [validate,Protocol.messageSize,hf]; rfl⟩,?_⟩
      rintro ⟨m,hm,ht,-⟩
      rw [List.head?_cons,Option.some.injEq] at ht
      exact hn m hm (by simp [ht])
    | some m =>
      have hm := List.mem_of_find?_eq_some hf
      have ht : m.type=t := by simpa using List.find?_some hf
      have hd : Declared (t::rest) ↔ (t::rest).length=m.size.toNat := by
        constructor
        · rintro ⟨m',hm',ht',hl⟩
          rw [List.head?_cons,Option.some.injEq,← ht] at ht'
          rwa [List.inj_on_of_nodup_map types_nodup hm hm' ht']
        · intro hl
          exact ⟨m,hm,by rw [ht]; rfl,hl⟩
      rw [validate,Protocol.messageSize,hf,hd]
      simp only [Option.map_some]
      split_ifs with hl
      · exact .inl ⟨rfl,hl⟩
      · exact .inr ⟨⟨_,rfl⟩,hl⟩

end ItchDecoder

/-- Both decoders on a message of a book type: an event, or `DecodeError` from each. -/
def Settled (b : Bytes) : Prop :=
  (Declared b ∧ ¬BadSide b ∧ ∃ e, ItchDecoder.decodeBookEvent b=.ok (some e) ∧
      ReferenceItchDecoder.decodeBookEvent b=.ok (some e)) ∨
    ((¬Declared b ∨ BadSide b) ∧ ∃ w w', ItchDecoder.decodeBookEvent b=.error (.decodeError w) ∧
      ReferenceItchDecoder.decodeBookEvent b=.error (.decodeError w'))

section Format

variable {b : Bytes} {m : Message} {c : Char} {decode : View m → Except Thrown MarketEvent}
  {event : Bytes → Except Thrown MarketEvent}

/-- One book type: a declared message whose view decodes as the reference's offsets do. -/
theorem settled_of_format (hm : m∈Itch50.protocol.messages) (hc : m.type=c.toUInt8)
    (hchar : Char.ofUInt8 c.toUInt8=c) (hdecode : ∀ v : View m, decode v=event v.bytes)
    (hgen : ItchDecoder.decodeTyped b c=ItchDecoder.viewed m decode b)
    (href : ReferenceItchDecoder.decodeTyped b c=
      ReferenceItchDecoder.sized b m.size.toNat c (event b))
    (hb : b.head?=some c.toUInt8)
    (hevent : b.length=m.size.toNat → (∃ e, event b=.ok e) ∧ ¬BadSide b ∨
      (∃ w, event b=.error (.decodeError w)) ∧ BadSide b) : Settled b := by
  obtain ⟨rest,rfl⟩ : ∃ rest, b=c.toUInt8::rest := List.head?_eq_some_iff.mp hb
  have hgen' : ItchDecoder.decodeBookEvent (c.toUInt8::rest)=(do
      ItchDecoder.validate (c.toUInt8::rest)
      ItchDecoder.viewed m decode (c.toUInt8::rest)) := by
    rw [ItchDecoder.decodeBookEvent,List.headD_cons,hchar,hgen]
  have href' : ReferenceItchDecoder.decodeBookEvent (c.toUInt8::rest)=
      ReferenceItchDecoder.sized (c.toUInt8::rest) m.size.toNat c (event (c.toUInt8::rest)) := by
    rw [ReferenceItchDecoder.decodeBookEvent,hchar,href]
  unfold Settled
  rw [hgen',href']
  obtain ⟨hv,hd⟩|⟨⟨w,hv⟩,hd⟩ := ItchDecoder.validate_cases (c.toUInt8::rest)
  · have hl : (c.toUInt8::rest).length=m.size.toNat := by
      obtain ⟨m',hm',ht',hl⟩ := hd
      rw [List.head?_cons,Option.some.injEq,← hc] at ht'
      rwa [List.inj_on_of_nodup_map ItchDecoder.types_nodup hm hm' ht']
    have hview : ItchDecoder.viewed m decode (c.toUInt8::rest)=
        (do return some (← event (c.toUInt8::rest))) := by
      rw [ItchDecoder.viewed,View.create_ok hl (by rw [hc]; rfl)]
      simp only [bind,Except.bind,hdecode]
    have hsized : ReferenceItchDecoder.sized (c.toUInt8::rest) m.size.toNat c
        (event (c.toUInt8::rest))=(do return some (← event (c.toUInt8::rest))) := by
      rw [ReferenceItchDecoder.sized,ReferenceItchDecoder.requireExact,
        if_neg (by simpa using hl)]
      rfl
    rw [hv,hview,hsized]
    obtain ⟨⟨e,he⟩,hs⟩|⟨⟨w,he⟩,hs⟩ := hevent hl
    · exact .inl ⟨hd,hs,e,by rw [he]; exact ⟨rfl,rfl⟩⟩
    · exact .inr ⟨.inr hs,w,w,by rw [he]; exact ⟨rfl,rfl⟩⟩
  · have hl : (c.toUInt8::rest).length≠m.size.toNat := fun hl =>
      hd ⟨m,hm,by rw [hc]; rfl,hl⟩
    refine .inr ⟨.inl hd,w,"invalid ITCH message size/type",by rw [hv]; rfl,?_⟩
    rw [ReferenceItchDecoder.sized,ReferenceItchDecoder.requireExact,if_pos (.inl hl)]
    rfl

end Format

theorem not_badSide {b : Bytes} {c : Char} (hb : b.head?=some c.toUInt8)
    (hA : c.toUInt8 ≠ 'A'.toUInt8) (hF : c.toUInt8 ≠ 'F'.toUInt8) : ¬BadSide b := by
  rintro ⟨h|h,-⟩
  · exact hA (Option.some.inj (hb.symm.trans h))
  · exact hF (Option.some.inj (hb.symm.trans h))

/-- An event that always decodes, for a type other than 'A' and 'F'. -/
theorem event_plain {b : Bytes} {c : Char} {event : Bytes → Except Thrown MarketEvent}
    (he : ∃ e, event b=.ok e) (hb : b.head?=some c.toUInt8)
    (hA : c.toUInt8 ≠ 'A'.toUInt8) (hF : c.toUInt8 ≠ 'F'.toUInt8) :
    (∃ e, event b=.ok e) ∧ ¬BadSide b ∨ (∃ w, event b=.error (.decodeError w)) ∧ BadSide b :=
  .inl ⟨he,not_badSide hb hA hF⟩

/-- An add event decodes exactly with a good side byte. -/
theorem event_add {b : Bytes} (hb : b.head?=some 'A'.toUInt8 ∨ b.head?=some 'F'.toUInt8)
    (hl : 36≤b.length) :
    (∃ e, ReferenceItchDecoder.addEvent b=.ok e) ∧ ¬BadSide b ∨
      (∃ w, ReferenceItchDecoder.addEvent b=.error (.decodeError w)) ∧ BadSide b := by
  obtain ⟨he,hs⟩|⟨he,hs⟩ := ReferenceItchDecoder.addEvent_cases hl
  · refine .inl ⟨he,?_⟩
    rintro ⟨-,hB,hS⟩
    exact hs.elim hB hS
  · exact .inr ⟨he,hb,hs⟩

theorem settled {b : Bytes} {c : Char} (hc : c∈bookTypes) (hb : b.head?=some c.toUInt8) :
    Settled b := by
  simp only [bookTypes,List.mem_cons,List.not_mem_nil,or_false] at hc
  obtain rfl|rfl|rfl|rfl|rfl|rfl|rfl := hc
  · refine settled_of_format (m := Itch50.addOrder) (by decide +kernel) rfl rfl
      ItchDecoder.decodeAddOrder_eq rfl rfl hb fun hl => event_add (.inl hb) ?_
    exact hl.ge
  · refine settled_of_format (m := Itch50.addOrderWithMpid) (by decide +kernel) rfl rfl
      ItchDecoder.decodeAddOrderWithMpid_eq rfl rfl hb fun hl => event_add (.inr hb) ?_
    exact le_trans (by decide) hl.ge
  · refine settled_of_format (m := Itch50.orderExecuted) (by decide +kernel) rfl rfl
      ItchDecoder.decodeOrderExecuted_eq rfl rfl hb fun hl => event_plain ?_ hb (by decide) (by decide)
    exact ReferenceItchDecoder.executeEvent_isOk hl.ge
  · refine settled_of_format (m := Itch50.orderExecutedWithPrice) (by decide +kernel) rfl rfl
      ItchDecoder.decodeOrderExecutedWithPrice_eq rfl rfl hb fun hl =>
        event_plain ?_ hb (by decide) (by decide)
    exact ReferenceItchDecoder.executeWithPriceEvent_isOk hl.ge
  · refine settled_of_format (m := Itch50.orderCancel) (by decide +kernel) rfl rfl
      ItchDecoder.decodeOrderCancel_eq rfl rfl hb fun hl => event_plain ?_ hb (by decide) (by decide)
    exact ReferenceItchDecoder.cancelEvent_isOk hl.ge
  · refine settled_of_format (m := Itch50.orderDelete) (by decide +kernel) rfl rfl
      ItchDecoder.decodeOrderDelete_eq rfl rfl hb fun hl => event_plain ?_ hb (by decide) (by decide)
    exact ReferenceItchDecoder.deleteEvent_isOk hl.ge
  · refine settled_of_format (m := Itch50.orderReplace) (by decide +kernel) rfl rfl
      ItchDecoder.decodeOrderReplace_eq rfl rfl hb fun hl => event_plain ?_ hb (by decide) (by decide)
    exact ReferenceItchDecoder.replaceEvent_isOk hl.ge

theorem decodeTyped_other {b : Bytes} {c : Char} (hc : c∉bookTypes) :
    ItchDecoder.decodeTyped b c=.ok none ∧ ReferenceItchDecoder.decodeTyped b c=.ok none := by
  simp only [bookTypes,List.mem_cons,List.not_mem_nil,or_false,not_or] at hc
  obtain ⟨hA,hF,hE,hC,hX,hD,hU⟩ := hc
  constructor
  · unfold ItchDecoder.decodeTyped
    split <;> first | contradiction | rfl
  · unfold ReferenceItchDecoder.decodeTyped
    split <;> first | contradiction | rfl

/-- Neither decoder gives an event for another type; only the generated one looks further. -/
theorem other_type (t : UInt8) (rest : Bytes) (ht : ∀ c∈bookTypes, t≠c.toUInt8) :
    ItchDecoder.decodeBookEvent (t::rest)=(do
      ItchDecoder.validate (t::rest)
      return none) ∧ ReferenceItchDecoder.decodeBookEvent (t::rest)=.ok none := by
  have hc : Char.ofUInt8 t∉bookTypes := fun h => ht _ h (UInt8.toUInt8_toUInt32 t).symm
  obtain ⟨hgen,href⟩ := decodeTyped_other (b := t::rest) hc
  rw [ItchDecoder.decodeBookEvent,ReferenceItchDecoder.decodeBookEvent,List.headD_cons,hgen,href]
  exact ⟨rfl,rfl⟩

theorem not_declared_cases {b : Bytes} (h : ¬Declared b) :
    b=[] ∨ (∀ m∈Itch50.protocol.messages, b.head?≠some m.type) ∨
      ∃ m∈Itch50.protocol.messages, b.head?=some m.type ∧ b.length≠m.size.toNat := by
  by_cases hm : ∃ m∈Itch50.protocol.messages, b.head?=some m.type
  · obtain ⟨m,hm,ht⟩ := hm
    exact .inr (.inr ⟨m,hm,ht,fun hl => h ⟨m,hm,ht,hl⟩⟩)
  · push Not at hm
    exact .inr (.inl hm)

theorem decoders_agree (b : Bytes) :
    parse Itch50.schema=.ok Itch50.protocol ∧
    ((b=[] ∨ ∃ c∈bookTypes, b.head?=some c.toUInt8) →
      Agree (ItchDecoder.decodeBookEvent b) (ReferenceItchDecoder.decodeBookEvent b)) ∧
    ((b≠[] ∧ ∀ c∈bookTypes, b.head?≠some c.toUInt8) →
      ReferenceItchDecoder.decodeBookEvent b=.ok none ∧
      (Declared b → ItchDecoder.decodeBookEvent b=.ok none) ∧
      (¬Declared b → ∃ w, ItchDecoder.decodeBookEvent b=.error (.decodeError w))) ∧
    (∀ e, ItchDecoder.decodeBookEvent b=.error e → (∃ w, e=.decodeError w) ∧
      (b=[] ∨ (∀ m∈Itch50.protocol.messages, b.head?≠some m.type) ∨
        (∃ m∈Itch50.protocol.messages, b.head?=some m.type ∧ b.length≠m.size.toNat) ∨
        BadSide b)) := by
  refine ⟨Itch50.parse_schema,?_,?_,?_⟩
  · rintro (rfl|⟨c,hc,hb⟩)
    · exact .inl ⟨_,_,rfl,rfl⟩
    · obtain ⟨-,-,h⟩|⟨-,h⟩ := settled hc hb
      · exact .inr h
      · exact .inl h
  · rintro ⟨hne,hb⟩
    obtain ⟨t,rest,rfl⟩ := List.exists_cons_of_ne_nil hne
    obtain ⟨hgen,href⟩ := other_type t rest fun c hc ht => hb c hc (by rw [ht]; rfl)
    refine ⟨href,fun hd => ?_,fun hd => ?_⟩
    · obtain ⟨hv,-⟩|⟨-,hn⟩ := ItchDecoder.validate_cases (t::rest)
      · rw [hgen,hv]
        rfl
      · exact absurd hd hn
    · obtain ⟨-,hn⟩|⟨⟨w,hv⟩,-⟩ := ItchDecoder.validate_cases (t::rest)
      · exact absurd hn hd
      · exact ⟨w,by rw [hgen,hv]; rfl⟩
  · intro e he
    have hcause : (¬Declared b ∨ BadSide b) ∧ ∃ w, e=.decodeError w := by
      by_cases hc : ∃ c∈bookTypes, b.head?=some c.toUInt8
      · obtain ⟨c,hc,hb⟩ := hc
        obtain ⟨-,-,r,hr,-⟩|⟨hcause,w,-,hw,-⟩ := settled hc hb
        · cases hr.symm.trans he
        · exact ⟨hcause,w,Except.error.inj (he.symm.trans hw)⟩
      · obtain ⟨hv,hd⟩|⟨⟨w,hv⟩,hd⟩ := ItchDecoder.validate_cases b
        · cases b with
          | nil => obtain ⟨m,-,hm,-⟩ := hd; cases hm
          | cons t rest =>
            have hgen := (other_type t rest fun c hm ht => hc ⟨c,hm,by rw [ht]; rfl⟩).1
            rw [hgen,hv] at he
            cases he
        · rw [ItchDecoder.decodeBookEvent,hv] at he
          exact ⟨.inl hd,w,(Except.error.inj he).symm⟩
    refine ⟨hcause.2,?_⟩
    cases hcause.1 with
    | inl hd =>
      obtain h|h|h := not_declared_cases hd
      · exact .inl h
      · exact .inr (.inl h)
      · exact .inr (.inr (.inl h))
    | inr hs => exact .inr (.inr (.inr hs))

/-- A delete message, and a system event that neither decoder applies to the book. -/
theorem decoders_agree_delete :
    Agree (ItchDecoder.decodeBookEvent ('D'.toUInt8::List.replicate 18 7))
        (ReferenceItchDecoder.decodeBookEvent ('D'.toUInt8::List.replicate 18 7)) ∧
      ItchDecoder.decodeBookEvent ('S'.toUInt8::List.replicate 11 7)=.ok none := by
  have hs : 'S'.toUInt8∉bookTypes.map Char.toUInt8 := by decide
  have hne : ∀ c∈bookTypes, ('S'.toUInt8::List.replicate 11 7).head?≠some c.toUInt8 :=
    fun c hc he => hs (List.mem_map.mpr ⟨c,hc,(Option.some.inj he).symm⟩)
  exact ⟨(decoders_agree _).2.1 (.inr ⟨'D',by decide,rfl⟩),
    ((decoders_agree _).2.2.1 ⟨List.cons_ne_nil _ _,hne⟩).2.1
      ⟨Itch50.systemEvent,by decide +kernel,rfl,by decide +kernel⟩⟩

end MarketWire
