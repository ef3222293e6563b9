import MarketWire.ItchAgreement
import MarketWire.MoldPacket

/-! The message builders of the command line program, and that what they build decodes to what
was asked for. -/
namespace MarketWire
open Library Protocolc

def putU32 (b : Bytes) (off : Nat) (v : UInt32) : Bytes :=
  putBytes b off [(v>>>24).toUInt8,(v>>>16).toUInt8,(v>>>8).toUInt8,v.toUInt8]

def putU48 (b : Bytes) (off : Nat) (v : UInt64) : Bytes :=
  putBytes b off ((List.range 6).map fun j => (v>>>UInt64.ofNat ((5-j)*8)).toUInt8)

def putAscii (b : Bytes) (off n : Nat) (s : Bytes) : Bytes :=
  putBytes b off ((List.range n).map fun i => if i<s.length then byteAt s i else 0x20)

def addMsg (id : OrderId) (side : UInt8) (qty : Quantity) (symbol : Bytes) (price : Price) :
    Bytes :=
  let b := (List.replicate 36 0).set 0 'A'.toUInt8
  let b := putU48 (putU16 (putU16 b 1 1) 3 1) 5 1000000
  let b := (putU64 b 11 id).set 19 side
  putU32 (putAscii (putU32 b 20 qty) 24 8 symbol) 32 price

def cancelMsg (id : OrderId) (qty : Quantity) : Bytes :=
  let b := (List.replicate 23 0).set 0 'X'.toUInt8
  let b := putU48 (putU16 (putU16 b 1 1) 3 2) 5 1000100
  putU32 (putU64 b 11 id) 19 qty

/-- A field written after the bytes that are already in place. -/
theorem put_after {done rest : Bytes} {off : Nat} (xs : Bytes) (ho : done.length=off)
    (hr : xs.length≤rest.length) :
    putBytes (done++rest) off xs=(done++xs)++rest.drop xs.length := by
  rw [← ho,putBytes_append done rest xs hr,List.append_assoc]

/-- The layout of an add message. -/
theorem addMsg_eq (id : OrderId) (side : UInt8) (qty : Quantity) (symbol : Bytes) (price : Price) :
    addMsg id side qty symbol price=
      ['A'.toUInt8,0,1,0,1,0,0,0,15,66,64]++beEncode 8 id.toNat++[side]++beEncode 4 qty.toNat++
        (List.range 8).map (fun i => if i<symbol.length then byteAt symbol i else 0x20)++
        beEncode 4 price.toNat := by
  have hhead : putU48 (putU16 (putU16 ((List.replicate 36 0).set 0 'A'.toUInt8) 1 1) 3 1) 5 1000000=
      ['A'.toUInt8,0,1,0,1,0,0,0,15,66,64]++List.replicate 25 0 := by decide +kernel
  have hset (b : Bytes) : b.set 19 side=putBytes b 19 [side] := rfl
  unfold addMsg
  dsimp only
  rw [hhead,hset,putU64,putU32,putU32,putAscii,u64_bytes,u32_bytes,u32_bytes,
    put_after _ (by simp) (by simp),put_after _ (by simp) (by simp),put_after _ (by simp) (by simp),
    put_after _ (by simp) (by simp),put_after _ (by simp) (by simp)]
  simp

theorem length_addMsg (id : OrderId) (side : UInt8) (qty : Quantity) (symbol : Bytes)
    (price : Price) : (addMsg id side qty symbol price).length=36 := by
  rw [addMsg_eq]
  simp

/-- A message of the right length decodes to the event at the handwritten offsets. -/
theorem decodeBookEvent_addOrder {b : Bytes} (hb : b.head?=some 'A'.toUInt8) (hl : b.length=36) :
    ItchDecoder.decodeBookEvent b=(do return some (← ReferenceItchDecoder.addEvent b)) := by
  obtain ⟨rest,rfl⟩ : ∃ rest, b = 'A'.toUInt8::rest := List.head?_eq_some_iff.mp hb
  have hv : ItchDecoder.validate ('A'.toUInt8::rest)=.ok () := by
    obtain ⟨hv,-⟩|⟨-,hd⟩ := ItchDecoder.validate_cases ('A'.toUInt8::rest)
    · exact hv
    · exact absurd ⟨Itch50.addOrder,by decide +kernel,hb,hl⟩ hd
  have hview : View.create Itch50.addOrder ('A'.toUInt8::rest)=.ok ⟨_,hl,hb⟩ :=
    View.create_ok hl hb
  rw [ItchDecoder.decodeBookEvent,hv]
  change ItchDecoder.viewed Itch50.addOrder ItchDecoder.decodeAddOrder ('A'.toUInt8::rest)=_
  rw [ItchDecoder.viewed,hview]
  rfl

theorem fromPadded_padded (symbol : Bytes) :
    Symbol.fromPadded ((List.range 8).map fun i => if i<symbol.length then byteAt symbol i else 0x20)=
      Symbol.fromPadded symbol := by
  unfold Symbol.fromPadded
  congr 1
  refine Vector.ext fun i hi => ?_
  simp only [Vector.getElem_ofFn,List.getD_eq_getElem?_getD]
  rw [List.getElem?_map,List.getElem?_range hi,Option.map_some,Option.getD_some]
  by_cases hs : i<symbol.length
  · simp [hs,byteAt]
  · simp [hs]

/-- What an add message of the program decodes to. -/
theorem decode_addMsg (id : OrderId) {side : UInt8} {sd : Side} (hside : sideFromChar side=.ok sd)
    (qty : Quantity) (symbol : Bytes) (price : Price) :
    ItchDecoder.decodeBookEvent (addMsg id side qty symbol price)=
      .ok (some (.add ⟨⟨1,1,1000000⟩,⟨id,Symbol.fromPadded symbol,sd,qty,price⟩⟩)) := by
  have hl := length_addMsg id side qty symbol price
  have he := addMsg_eq id side qty symbol price
  generalize addMsg id side qty symbol price=b at hl he
  have hb : b.head?=some 'A'.toUInt8 := by rw [he]; rfl
  have hm : ReferenceItchDecoder.m b=.ok ⟨1,1,1000000⟩ := by
    have h1 : readU16Be b 1=.ok 1 := readU16Be_ok.mpr
      ⟨by omega,slice_middle ['A'.toUInt8] (he.trans rfl) rfl (by simp)⟩
    have h2 : readU16Be b 3=.ok 1 := readU16Be_ok.mpr
      ⟨by omega,slice_middle ['A'.toUInt8,0,1] (he.trans rfl) rfl (by simp)⟩
    have h3 : readBe b 5 6=.ok 1000000 := readBe_ok.mpr
      ⟨by omega,slice_middle ['A'.toUInt8,0,1,0,1] (he.trans rfl) rfl (by simp),by decide⟩
    rw [ReferenceItchDecoder.m,h1,h2,readU48Be_eq,h3]
    rfl
  set head : Bytes := ['A'.toUInt8,0,1,0,1,0,0,0,15,66,64]
  set stock : Bytes := (List.range 8).map fun i => if i<symbol.length then byteAt symbol i else 0x20
  have hid : readU64Be b 11=.ok id := readU64Be_ok.mpr ⟨by omega,
    slice_middle head (he.trans (by simp only [List.append_assoc]; rfl)) rfl (by simp)⟩
  have hside' : byteAt b 19=side := by
    have h1 : slice b 19 1=[side] := slice_middle (head++beEncode 8 id.toNat)
      (he.trans (by simp only [List.append_assoc]; rfl)) (by simp [head]) rfl
    rw [slice_one (by omega)] at h1
    exact (List.cons.inj h1).1
  have hqty : readU32Be b 20=.ok qty := readU32Be_ok.mpr ⟨by omega,
    slice_middle (head++beEncode 8 id.toNat++[side])
      (he.trans (by simp only [List.append_assoc]; rfl)) (by simp [head]) (by simp)⟩
  have hstock : slice b 24 8=stock :=
    slice_middle _ he (by simp [head]) (by simp [stock])
  have hprice : readU32Be b 32=.ok price := readU32Be_ok.mpr ⟨by omega,
    slice_middle _ (he.trans (List.append_nil _).symm) (by simp [head,stock]) (by simp)⟩
  have hchar := readChar_eq b 19 (by omega)
  have hview := readAsciiView_eq b 24 8 (by omega)
  rw [decodeBookEvent_addOrder hb hl,ReferenceItchDecoder.addEvent,hm,hid,hview,hchar,hqty,hprice,
    hside',hstock]
  simp only [bind,Except.bind,hside,stock,fromPadded_padded]
  rfl

/-- The layout of a cancel message. -/
theorem cancelMsg_eq (id : OrderId) (qty : Quantity) : cancelMsg id qty=
    ['X'.toUInt8,0,1,0,2,0,0,0,15,66,164]++beEncode 8 id.toNat++beEncode 4 qty.toNat := by
  have hhead : putU48 (putU16 (putU16 ((List.replicate 23 0).set 0 'X'.toUInt8) 1 1) 3 2) 5 1000100=
      ['X'.toUInt8,0,1,0,2,0,0,0,15,66,164]++List.replicate 12 0 := by decide +kernel
  unfold cancelMsg
  dsimp only
  rw [hhead,putU64,putU32,u64_bytes,u32_bytes,put_after _ (by simp) (by simp),
    put_after _ (by simp) (by simp)]
  simp

theorem length_cancelMsg (id : OrderId) (qty : Quantity) : (cancelMsg id qty).length=23 := by
  rw [cancelMsg_eq]
  simp

theorem decodeBookEvent_orderCancel {b : Bytes} (hb : b.head?=some 'X'.toUInt8)
    (hl : b.length=23) :
    ItchDecoder.decodeBookEvent b=(do return some (← ReferenceItchDecoder.cancelEvent b)) := by
  obtain ⟨rest,rfl⟩ : ∃ rest, b = 'X'.toUInt8::rest := List.head?_eq_some_iff.mp hb
  have hv : ItchDecoder.validate ('X'.toUInt8::rest)=.ok () := by
    obtain ⟨hv,-⟩|⟨-,hd⟩ := ItchDecoder.validate_cases ('X'.toUInt8::rest)
    · exact hv
    · exact absurd ⟨Itch50.orderCancel,by decide +kernel,hb,hl⟩ hd
  have hview : View.create Itch50.orderCancel ('X'.toUInt8::rest)=.ok ⟨_,hl,hb⟩ :=
    View.create_ok hl hb
  rw [ItchDecoder.decodeBookEvent,hv]
  change ItchDecoder.viewed Itch50.orderCancel ItchDecoder.decodeOrderCancel ('X'.toUInt8::rest)=_
  rw [ItchDecoder.viewed,hview]
  rfl

/-- What a cancel message of the program decodes to. -/
theorem decode_cancelMsg (id : OrderId) (qty : Quantity) :
    ItchDecoder.decodeBookEvent (cancelMsg id qty)=.ok (some (.cancel ⟨⟨1,2,1000100⟩,id,qty⟩)) := by
  have hl := length_cancelMsg id qty
  have he := cancelMsg_eq id qty
  generalize cancelMsg id qty=b at hl he
  have hb : b.head?=some 'X'.toUInt8 := by rw [he]; rfl
  have hm : ReferenceItchDecoder.m b=.ok ⟨1,2,1000100⟩ := by
    have h1 : readU16Be b 1=.ok 1 := readU16Be_ok.mpr
      ⟨by omega,slice_middle ['X'.toUInt8] (he.trans rfl) rfl (by simp)⟩
    have h2 : readU16Be b 3=.ok 2 := readU16Be_ok.mpr
      ⟨by omega,slice_middle ['X'.toUInt8,0,1] (he.trans rfl) rfl (by simp)⟩
    have h3 : readBe b 5 6=.ok 1000100 := readBe_ok.mpr
      ⟨by omega,slice_middle ['X'.toUInt8,0,1,0,2] (he.trans rfl) rfl (by simp),by decide⟩
    rw [ReferenceItchDecoder.m,h1,h2,readU48Be_eq,h3]
    rfl
  have hid : readU64Be b 11=.ok id := readU64Be_ok.mpr
    ⟨by omega,slice_middle _ he (by simp) (by simp)⟩
  have hqty : readU32Be b 19=.ok qty := readU32Be_ok.mpr ⟨by omega,
    slice_middle _ (he.trans (List.append_nil _).symm) (by simp) (by simp)⟩
  rw [decodeBookEvent_orderCancel hb hl,ReferenceItchDecoder.cancelEvent,hm,hid,hqty]
  rfl

end MarketWire
