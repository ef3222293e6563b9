import MarketWire.BookAdd

/-! Replacements. The order keeps its slot and moves to the tail of its level, or to the
tail of another one. -/
namespace MarketWire
open Library

namespace Rep
variable {b : OrderBook} {L : Ledger} {p : Placed} {xs ys : List Placed} {level : PriceLevel}

/-- The level map after unlinking `p`, whose level keeps `total`. -/
def detached (b : OrderBook) (p : Placed) (level : PriceLevel) (total : Quantity) :
    LevelKey → Option PriceLevel :=
  Function.update b.books.level? p.2.key
    (PriceLevel.kept { (b.slots.unlink level p.1).2 with totalQuantity := total })

/-- The slots after unlinking `p` and rewriting its order. -/
def rewritten (b : OrderBook) (p : Placed) (level : PriceLevel) (f : Order → Order) : Slots :=
  (b.slots.unlink level p.1).1.updateOrder p.1 f

theorem slotAt_rewritten (h : Rep b L) (hm : p∈L.live) (f : Order → Order) {j : SlotIndex}
    (hj : j≠p.1) :
    (rewritten b p level f).slotAt j=(b.slots.unlink level p.1).1.slotAt j := by
  have hlt : p.1.toNat<(b.slots.unlink level p.1).1.length := by
    rw [Slots.length_unlink]
    exact h.placement.live_lt hm
  rw [rewritten,Slots.slotAt_updateOrder hlt,if_neg hj]

/-- Unlinking an order, rewriting it and linking it again elsewhere. -/
theorem moved (h : Rep b L) (hsplit : L.live=xs++p::ys)
    (hl : b.books.level? p.2.key=some level) (f : Order → Order) (total : Quantity)
    (htotal : total.toNat=sumQuantity (atKey (xs++ys) p.2.key)) (lv : PriceLevel)
    (hhead : lv.head=((detached b p level total (f p.2).key).getD {}).head)
    (htail : lv.tail=((detached b p level total (f p.2).key).getD {}).tail)
    (hsum : lv.totalQuantity.toNat=
      sumQuantity (atKey (xs++ys) (f p.2).key)+(f p.2).quantity.toNat) :
    LinksRep ((rewritten b p level f).linkAtTail lv p.1).1
        (Function.update (detached b p level total) (f p.2).key
          (some ((rewritten b p level f).linkAtTail lv p.1).2))
        (xs++ys++[(p.1,f p.2)]) ∧
      ArenaRep ((rewritten b p level f).linkAtTail lv p.1).1 b.freeHead
        ⟨xs++ys++[(p.1,f p.2)],L.free⟩ := by
  have hm : p∈L.live := by simp [hsplit]
  have hlt := h.placement.live_lt hm
  have hr := h.resident
  have hlinks := h.links
  rw [hsplit] at hr hlinks
  have hlen : (rewritten b p level f).length=b.slots.length := by
    simp [rewritten,Slots.length_unlink]
  have hne {q : Placed} (hq : q∈xs++ys) : q.1≠p.1 := hr.ne_of_split hq
  have hout : p.1∉(xs++ys).map Prod.fst := by
    intro hmem
    obtain ⟨q,hq,he⟩ := List.mem_map.mp hmem
    exact hne hq he
  have hd : LinksRep (rewritten b p level f) (detached b p level total) (xs++ys) :=
    (hlinks.detach hr hl level rfl rfl total htotal).frame fun q hq =>
      h.slotAt_rewritten hm f (hne hq)
  have hr' : Resident (rewritten b p level f) (xs++ys) :=
    ⟨by rw [hlen]; exact hr.bound,hr.nodup.sublist (by simp),fun q hq => by
      rw [hlen]
      exact hr.lt q (mem_split_of_mem hq)⟩
  have hlt' : p.1.toNat<(rewritten b p level f).length := by rwa [hlen]
  have hself : (rewritten b p level f).slotAt p.1=
      { b.slots.slotAt p.1 with
        prev := kInvalidSlot, next := kInvalidSlot, order := f p.2 } := by
    rw [rewritten,Slots.slotAt_updateOrder (by rwa [Slots.length_unlink]),if_pos rfl,
      hlinks.slotAt_unlink hr (by simp) level hlt,if_pos rfl,if_pos rfl,
      show (b.slots.slotAt p.1).order=p.2 from h.links.order p hm]
  refine ⟨hd.attach hr' hout hlt' (by rw [hself]) hhead htail hsum,?_⟩
  have hunlinked := h.arena_unlink hsplit level
  refine hunlinked.congr (fun q hq => ?_) (fun s hs => ?_)
  · rcases List.mem_append.mp hq with hq | hq
    · rw [hd.slotAt_linkAtTail hr' hout hlt' hhead htail (hr'.lt q hq),
        h.slotAt_rewritten hm f (hne hq)]
      exact hunlinked.flags q hq
    · rw [List.mem_singleton.mp hq,hd.slotAt_linkAtTail hr' hout hlt' hhead htail hlt',hself]
      exact h.arena.flags p hm
  · have hsp : s≠p.1 := fun he => h.placement.live_not_free hm (he ▸ hs)
    refine Eq.trans ?_ (h.slotAt_rewritten hm f hsp)
    refine hd.link_frame hr' hout hlt' hhead htail ?_ hsp fun hmem => ?_
    · rw [hlen]
      exact h.placement.free_lt hs
    · obtain ⟨q,hq,he⟩ := List.mem_map.mp hmem
      exact h.free_not_live hs (List.mem_map.mpr ⟨q,by rw [hsplit]; exact mem_split_of_mem hq,he⟩)

theorem length_moved (f : Order → Order) (lv : PriceLevel) :
    ((rewritten b p level f).linkAtTail lv p.1).1.length=b.slots.length := by
  simp [rewritten,Slots.length_unlink,Slots.length_linkAtTail]

/-- The ends of the detached level, as a reference to it would read them. -/
theorem detached_ends (h : Rep b L) (hm : p∈L.live) (hl : b.books.level? p.2.key=some level)
    (total : Quantity) :
    ((detached b p level total p.2.key).getD {}).head=(b.slots.unlink level p.1).2.head ∧
      ((detached b p level total p.2.key).getD {}).tail=(b.slots.unlink level p.1).2.tail := by
  obtain ⟨xs,ys,hsplit,_,_⟩ := h.placement.split hm
  have hr := h.resident
  have hlinks := h.links
  rw [hsplit] at hr hlinks
  rw [detached,Function.update_self]
  exact PriceLevel.kept_ends (hlinks.unlink_dlist hr hl rfl rfl) fun s hs =>
    hr.ne_invalid (queueOf_split_subset _ hs)

/-- The index through a replacement: the new id in, then the old id out. -/
theorem replace_index (h : Rep b L) (hm : p∈L.live) {o : Order}
    (habs : L.lookup o.id=none) :
    (b.index.insert o.id p.1).2=true ∧
      IndexRep ((b.index.insert o.id p.1).1.erase p.2.id).1 b.slots.length
        (withoutId L.live p.2.id++[(p.1,o)]) := by
  obtain ⟨hok,hi⟩ := h.insert_index (s := p.1) habs
  have hne : o.id≠p.2.id := fun he => Ledger.lookup_eq_none.mp habs p hm he.symm
  have he := hi.erase p.2.id
  rw [withoutId,List.filter_append] at he
  simp only [List.filter_cons,ne_eq,hne,not_false_eq_true,decide_true,if_true,List.filter_nil] at he
  exact ⟨hok,he⟩


/-- The parts of the book after an order has moved. -/
theorem of_moved (h : Rep b L) (hm : p∈L.live) {order : Order} (habs : L.lookup order.id=none)
    {slots : Slots} {index : FlatOrderIndex splitMix64} {books : Books}
    (hlen : slots.length=b.slots.length)
    (hindex : IndexRep index b.slots.length (withoutId L.live p.2.id++[(p.1,order)]))
    (harena : ArenaRep slots b.freeHead ⟨withoutId L.live p.2.id++[(p.1,order)],L.free⟩)
    (hlinks : LinksRep slots books.level? (withoutId L.live p.2.id++[(p.1,order)]))
    (htight : books.Tight) :
    Rep ⟨slots,b.freeHead,index,books⟩ ⟨withoutId L.live p.2.id++[(p.1,order)],L.free⟩ :=
  ⟨by rw [hlen]; exact h.placement.replace hm habs,by rw [hlen]; exact h.bound,
    by rw [hlen]; exact hindex,harena,hlinks,htight⟩

/-- What is left of a level's total, in 64 bits. -/
theorem toNat_withoutOld {live : List Placed} (hsplit : live=xs++p::ys)
    (hsum : level.totalQuantity.toNat=sumQuantity (atKey live p.2.key)) (quantity : Quantity) :
    (level.totalQuantity.toUInt64-p.2.quantity.toUInt64+quantity.toUInt64).toNat=
      sumQuantity (atKey (xs++ys) p.2.key)+quantity.toNat := by
  have hs := hsum.trans (sum_split hsplit)
  have h1 := level.totalQuantity.toNat_lt
  have h2 := quantity.toNat_lt
  have hle : p.2.quantity.toUInt64≤level.totalQuantity.toUInt64 := by
    rw [UInt64.le_iff_toNat_le,UInt32.toNat_toUInt64,UInt32.toNat_toUInt64]
    omega
  rw [UInt64.toNat_add,UInt64.toNat_sub_of_le _ _ hle,UInt32.toNat_toUInt64,
    UInt32.toNat_toUInt64,UInt32.toNat_toUInt64]
  omega

/-- Replacement at an unchanged price. -/
theorem replaceSamePrice (h : Rep b L) (hm : p∈L.live) {event : ReplaceEvent}
    (hold : event.oldOrderId=p.2.id) (habs : L.lookup event.newOrderId=none)
    (hprice : p.2.price=event.newPrice) (fails : AllocPoint → Bool) :
    Simulates fails L
      (if sumQuantity (atKey (withoutId L.live p.2.id) (Ledger.replaced p.2 event).key)
          +event.newQuantity.toNat>quantityMax.toNat then (L,false)
        else ({ L with live := withoutId L.live p.2.id++[(p.1,Ledger.replaced p.2 event)] },true))
      (b.replaceSamePrice p.2 p.1 event) := by
  obtain ⟨level,hl,hsum⟩ := h.level_of_live hm
  obtain ⟨xs,ys,hsplit,_,hwo⟩ := h.placement.split hm
  obtain ⟨hok,hindex⟩ := h.replace_index (o := Ledger.replaced p.2 event) hm habs
  have hkey : (Ledger.replaced p.2 event).key=p.2.key := by
    simp [Ledger.replaced,Order.key,hprice]
  have hout := toNat_withoutOld hsplit hsum event.newQuantity
  rw [hkey,hwo]
  simp only [OrderBook.replaceSamePrice,OrderBook.replaceSamePriceChecked,hl]
  have hguard : level.totalQuantity.toUInt64-p.2.quantity.toUInt64+event.newQuantity.toUInt64>
      quantityMax.toUInt64 ↔ sumQuantity (atKey (xs++ys) p.2.key)+event.newQuantity.toNat>
        quantityMax.toNat := by
    rw [gt_iff_lt,UInt64.lt_iff_toNat_lt,hout,UInt32.toNat_toUInt64]
  by_cases hover : sumQuantity (atKey (xs++ys) p.2.key)+event.newQuantity.toNat>quantityMax.toNat
  · rw [if_pos hover,if_pos (hguard.mpr hover)]
    exact Or.inl ⟨rfl,h⟩
  rw [if_neg hover,if_neg fun hg => hover (hguard.mp hg)]
  set f : Order → Order := fun o =>
    { o with id := event.newOrderId, quantity := event.newQuantity } with hf
  have hfp : Ledger.replaced p.2 event=f p.2 := by
    simp [Ledger.replaced,f,hprice]
  have hfk : (f p.2).key=p.2.key := rfl
  rw [hfp] at hok hindex ⊢
  rcases hins : b.index.insert event.newOrderId p.1 with ⟨index,ok⟩
  have hins' : b.index.insert (f p.2).id p.1=(index,ok) := hins
  rw [hins'] at hindex hok
  obtain rfl : ok=true := hok
  set lv : PriceLevel :=
    { (b.slots.unlink level p.1).2 with
      totalQuantity := (level.totalQuantity.toUInt64-p.2.quantity.toUInt64
        +event.newQuantity.toUInt64).toUInt32 } with hlv
  have hends := h.detached_ends hm hl (level.totalQuantity-p.2.quantity)
  have hfit : lv.totalQuantity.toNat=
      sumQuantity (atKey (xs++ys) (f p.2).key)+(f p.2).quantity.toNat := by
    have hmax := toNat_quantityMax
    simp only [hlv,UInt64.toNat_toUInt32,hout]
    exact Nat.mod_eq_of_lt (by omega)
  obtain ⟨hlinks,harena⟩ := h.moved hsplit hl f _ (toNat_total_sub hsplit hsum) lv
    hends.1.symm hends.2.symm hfit
  rw [← hwo] at hlinks harena ⊢
  rw [hfk,detached,Function.update_idem] at hlinks
  rw [← Books.level?_setLevel (by rw [hl]; simp : b.books.level? p.2.key≠none)] at hlinks
  refine Or.inl ⟨rfl,?_⟩
  simp only [hold]
  exact h.of_moved hm habs (length_moved f lv) hindex harena hlinks
    (Books.tight_setLevel h.tight _)

/-- Two levels of one side rewritten, the old one dropped when it is left empty. -/
def movedLevels {side : Side} (levels : Levels side) (old new : Price)
    (oldLevel newLevel : PriceLevel) : Levels side :=
  let levels := ((levels.tryEmplace new {}).1.set old oldLevel).set new newLevel
  if oldLevel.head=kInvalidSlot then levels.erase old else levels

theorem find?_movedLevels {side : Side} (levels : Levels side) {old new : Price} (hne : old≠new)
    (oldLevel newLevel : PriceLevel) (price : Price) :
    (movedLevels levels old new oldLevel newLevel).find? price=
      if price=new then some newLevel else if price=old then oldLevel.kept
      else levels.find? price := by
  unfold movedLevels PriceLevel.kept
  dsimp only
  split_ifs with hh hp hq hp hq
  · simp [SortedMap.find?_erase,SortedMap.find?_set,hp,Ne.symm hne]
  · simp [SortedMap.find?_erase,hq]
  · simp [SortedMap.find?_erase,SortedMap.find?_set,SortedMap.find?_tryEmplace,hp,hq]
  · simp [SortedMap.find?_set,hp]
  · simp [SortedMap.find?_set,hne,hq]
  · simp [SortedMap.find?_set,SortedMap.find?_tryEmplace,hp,hq]

theorem level?_moved {books : Books} {book : SymbolBook} {k : LevelKey}
    (hb : books.find? k.symbol=some book) {price : Price} (hne : k.price≠price)
    (oldLevel newLevel : PriceLevel) :
    Books.level? (books.set k.symbol (book.withLevels k.side
        (movedLevels (book.levels k.side) k.price price oldLevel newLevel)))=
      Function.update (Function.update books.level? k oldLevel.kept)
        ⟨k.symbol,k.side,price⟩ (some newLevel) := by
  have hbook : books.bookOf k.symbol=book := by simp [Books.bookOf,hb]
  funext j
  rw [← hbook,Books.level?_set books k.symbol k.side _ _
    (find?_movedLevels ((books.bookOf k.symbol).levels k.side) hne oldLevel newLevel)]
  by_cases hj : j.symbol=k.symbol ∧ j.side=k.side
  · obtain ⟨sym,side,price'⟩ := j
    obtain ⟨rfl,rfl⟩ : sym=k.symbol ∧ side=k.side := hj
    simp only [and_self,if_true,Function.update_apply,Books.level?_eq_bookOf]
    obtain ⟨sym,side,old⟩ := k
    simp only [LevelKey.mk.injEq,true_and]
  · rw [if_neg hj,Function.update_of_ne,Function.update_of_ne]
    · rintro rfl
      exact hj ⟨rfl,rfl⟩
    · rintro rfl
      exact hj ⟨rfl,rfl⟩

/-- Replacement at another price. -/
theorem replaceNewPrice (h : Rep b L) (hm : p∈L.live) {event : ReplaceEvent}
    (hold : event.oldOrderId=p.2.id) (habs : L.lookup event.newOrderId=none)
    (hprice : p.2.price≠event.newPrice) {book : SymbolBook}
    (hb : b.books.find? p.2.symbol=some book) (fails : AllocPoint → Bool) :
    Simulates fails L
      (if sumQuantity (atKey (withoutId L.live p.2.id) (Ledger.replaced p.2 event).key)
          +event.newQuantity.toNat>quantityMax.toNat then (L,false)
        else ({ L with live := withoutId L.live p.2.id++[(p.1,Ledger.replaced p.2 event)] },true))
      (b.replaceNewPrice fails book p.2 p.1 event) := by
  obtain ⟨level,hl,hsum⟩ := h.level_of_live hm
  obtain ⟨xs,ys,hsplit,_,hwo⟩ := h.placement.split hm
  obtain ⟨hok,hindex⟩ := h.replace_index (o := Ledger.replaced p.2 event) hm habs
  have hkey : p.2.key≠(Ledger.replaced p.2 event).key := fun he =>
    hprice (congrArg LevelKey.price he)
  have hlv : b.books.level? p.2.key=(book.levels p.2.side).find? p.2.price := by
    simp [Books.level?,Order.key,hb]
  have hlv' : b.books.level? (Ledger.replaced p.2 event).key=
      (book.levels p.2.side).find? event.newPrice := by
    simp [Books.level?,Order.key,Ledger.replaced,hb]
  have hsum' : sumQuantity (atKey (withoutId L.live p.2.id) (Ledger.replaced p.2 event).key)=
      ((b.books.level? (Ledger.replaced p.2 event).key).getD {}).totalQuantity.toNat := by
    rw [(h.links.level _).dlist.2,hwo,hsplit]
    simp [atKey_cons,hkey]
  unfold OrderBook.replaceNewPrice OrderBook.replaceNewPriceChecked
  dsimp only
  by_cases hfail : ((book.levels p.2.side).find? event.newPrice).isNone ∧ fails .replaceLevel
  · rw [if_pos hfail]
    exact Or.inr ⟨rfl,⟨_,hfail.2⟩,h⟩
  rw [if_neg hfail,SortedMap.tryEmplace_undo,SymbolBook.withLevels_levels,
    SortedMap.set_self b.books hb,← hlv',hsum']
  by_cases hover : quantityMax-((b.books.level? (Ledger.replaced p.2 event).key).getD
      {}).totalQuantity<event.newQuantity
  · rw [if_pos hover,if_pos ((overflow_iff _ _).mp hover)]
    exact Or.inl ⟨rfl,h⟩
  have hfit := (not_congr (overflow_iff _ _)).mp hover
  rw [if_neg hover,if_neg hfit]
  rcases hins : b.index.insert event.newOrderId p.1 with ⟨index,ok⟩
  have hins' : b.index.insert (Ledger.replaced p.2 event).id p.1=(index,ok) := hins
  rw [hins'] at hindex hok
  obtain rfl : ok=true := hok
  have hfind : ((book.levels p.2.side).tryEmplace event.newPrice {}).1.find? p.2.price=
      some level := by
    rw [SortedMap.find?_tryEmplace,if_neg hprice,← hlv,hl]
  dsimp only
  rw [hfind]
  set newLevel : PriceLevel := (b.books.level? (Ledger.replaced p.2 event).key).getD {} with hnew
  set lv : PriceLevel :=
    { newLevel with totalQuantity := newLevel.totalQuantity+event.newQuantity } with hlvdef
  have hends : (detached b p level (level.totalQuantity-p.2.quantity)
      (Ledger.replaced p.2 event).key).getD {}=newLevel := by
    rw [detached,Function.update_of_ne (Ne.symm hkey)]
  have htotal : lv.totalQuantity.toNat=
      sumQuantity (atKey (xs++ys) (Ledger.replaced p.2 event).key)+event.newQuantity.toNat := by
    rw [← hwo,hsum']
    exact toNat_add_of_fits (Nat.not_lt.mp hfit)
  obtain ⟨hlinks,harena⟩ := h.moved hsplit hl (fun o => Ledger.replaced o event) _
    (toNat_total_sub hsplit hsum) lv (by rw [hends]) (by rw [hends]) htotal
  rw [← hwo] at hlinks harena
  have hmove := level?_moved (k := p.2.key) hb hprice
    { (b.slots.unlink level p.1).2 with totalQuantity := level.totalQuantity-p.2.quantity }
    ((rewritten b p level fun o => Ledger.replaced o event).linkAtTail lv p.1).2
  have hu : (b.slots.unlink level p.1).2.totalQuantity=level.totalQuantity := by
    rw [Slots.unlink_level]
  refine Or.inl ⟨rfl,?_⟩
  simp only [hold,hu]
  refine h.of_moved hm habs (length_moved _ lv) hindex harena ?_ ?_
  · exact hmove ▸ hlinks
  · refine h.tight.of_level (k := ⟨p.2.symbol,p.2.side,event.newPrice⟩)
      (fun sym hs => by rw [SortedMap.find?_set,if_neg hs]) ?_
    have hsome := (congrFun hmove _).trans (Function.update_self _ _ _)
    exact Option.ne_none_iff_exists'.mpr ⟨_,hsome⟩

theorem replace (h : Rep b L) (fails : AllocPoint → Bool) (event : ReplaceEvent) :
    Simulates fails L (L.replace event) (b.replace fails event) := by
  unfold OrderBook.replace OrderBook.replaceChecked Ledger.replace
  rw [h.find_isSome]
  cases hp : L.lookup event.oldOrderId with
  | none =>
    have hf : b.index.find event.oldOrderId=none := by rw [h.find_eq,hp]; rfl
    rw [hf]
    exact Or.inl ⟨rfl,h⟩
  | some p =>
    obtain ⟨hf,ho,hm,hold⟩ := h.find_of_lookup hp
    simp only [hf,ho]
    by_cases hrej : event.newOrderId=0 ∨ event.newQuantity=0 ∨
        (L.lookup event.newOrderId).isSome
    · rw [if_pos hrej,if_pos hrej]
      exact Or.inl ⟨rfl,h⟩
    rw [if_neg hrej,if_neg hrej]
    simp only [not_or,Option.not_isSome_iff_eq_none] at hrej
    obtain ⟨_,_,habs⟩ := hrej
    obtain ⟨level,hl,_⟩ := h.level_of_live hm
    cases hb : b.books.find? p.2.symbol with
    | none =>
      simp [Books.level?,Order.key,hb] at hl
    | some book =>
      dsimp only
      rw [← hold]
      by_cases hprice : p.2.price=event.newPrice
      · rw [if_pos hprice]
        exact h.replaceSamePrice hm hold.symm habs hprice fails
      · rw [if_neg hprice]
        exact h.replaceNewPrice hm hold.symm habs hprice hb fails

end Rep
end MarketWire
