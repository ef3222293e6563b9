import MarketWire.BookRun

/-! Rejected and failing events. Neither changes the represented ledger, and books with
one ledger cannot be told apart, whatever their index layouts. -/
namespace MarketWire
open Library

namespace OrderBook
variable {b : OrderBook} {fails : AllocPoint → Bool} {i j : FlatOrderIndex splitMix64}

/-- Everything a caller can read from a book. -/
structure SameView (b b' : OrderBook) : Prop where
  find : ∀ id, b.find id=b'.find id
  count : b.liveOrderCount=b'.liveOrderCount
  bestBid : ∀ symbol, b.bestBid symbol=b'.bestBid symbol
  bestAsk : ∀ symbol, b.bestAsk symbol=b'.bestAsk symbol
  bidLevels : ∀ symbol, b.bidLevels symbol=b'.bidLevels symbol
  askLevels : ∀ symbol, b.askLevels symbol=b'.askLevels symbol
  stateHash : b.stateHash=b'.stateHash

theorem addLinked_index (fails : AllocPoint → Bool) (order : Order) (slot : SlotIndex) :
    ({ b with index := i }.addLinked fails order slot).2=
      ({ b with index := j }.addLinked fails order slot).2 := by
  have haddTo (b : OrderBook) (book : SymbolBook) :
      ({ b with index := i }.addTo fails book order slot).2=
        ({ b with index := j }.addTo fails book order slot).2 := by
    unfold addTo addToChecked
    dsimp only
    split_ifs <;> rfl
  unfold addLinked addLinkedChecked
  dsimp only
  cases b.books.find? order.symbol with
  | some book => exact haddTo b book
  | none =>
    dsimp only
    split_ifs
    · rfl
    · exact haddTo { b with books := b.books.set order.symbol {} } {}

theorem allocateSlot_index : { b with index := i }.allocateSlot=
    ({ b.allocateSlot.1 with index := i },b.allocateSlot.2) := by
  unfold allocateSlot
  dsimp only
  split_ifs <;> rfl

/-- An addition sees the index through lookups and the answer of one insertion. -/
theorem add_index (hf : ∀ id, i.find id=j.find id)
    (hi : ∀ id s, i.find id=none → (i.insert id s).2=(j.insert id s).2) (event : AddEvent) :
    ({ b with index := i }.add fails event).2=({ b with index := j }.add fails event).2 := by
  unfold add addChecked
  simp only [allocateSlot_index,← hf]
  split_ifs with hrej hslot
  · rfl
  · rfl
  · have habs : i.find event.order.id=none := by
      simpa using (not_or.mp (not_or.mp hrej).2).2
    have hok := hi event.order.id b.allocateSlot.2 habs
    revert hok
    rcases i.insert event.order.id b.allocateSlot.2 with ⟨i',ok⟩
    rcases j.insert event.order.id b.allocateSlot.2 with ⟨j',ok'⟩
    intro hok
    obtain rfl : ok=ok' := hok
    cases ok with
    | false => rfl
    | true =>
      have hlink := addLinked_index (i := i') (j := j')
        (b := { b.allocateSlot.1 with
          slots := b.allocateSlot.1.slots.updateOrder b.allocateSlot.2 fun _ => event.order })
        fails event.order b.allocateSlot.2
      unfold addLinked at hlink
      dsimp only [Checked.after]
      revert hlink
      generalize addLinkedChecked fails _ event.order b.allocateSlot.2=r
      generalize addLinkedChecked fails _ event.order b.allocateSlot.2=r'
      intro hlink
      obtain ⟨⟨b1,o⟩,checks⟩ := r
      obtain ⟨⟨b2,o'⟩,checks'⟩ := r'
      obtain rfl : o=o' := hlink
      rcases o with (_ | _) | _ | _ <;> rfl

theorem replaceSamePrice_index {event : ReplaceEvent} {slot : SlotIndex}
    (hok : (i.insert event.newOrderId slot).2=(j.insert event.newOrderId slot).2) (old : Order) :
    ({ b with index := i }.replaceSamePrice old slot event).2=
      ({ b with index := j }.replaceSamePrice old slot event).2 := by
  unfold replaceSamePrice replaceSamePriceChecked
  revert hok
  dsimp only
  rcases i.insert event.newOrderId slot with ⟨i',ok⟩
  rcases j.insert event.newOrderId slot with ⟨j',ok'⟩
  intro hok
  obtain rfl : ok=ok' := hok
  cases b.books.level? old.key with
  | none => rfl
  | some level =>
    dsimp only
    split_ifs
    · rfl
    · cases ok <;> rfl

theorem replaceNewPrice_index {event : ReplaceEvent} {slot : SlotIndex}
    (hok : (i.insert event.newOrderId slot).2=(j.insert event.newOrderId slot).2)
    (book : SymbolBook) (old : Order) :
    ({ b with index := i }.replaceNewPrice fails book old slot event).2=
      ({ b with index := j }.replaceNewPrice fails book old slot event).2 := by
  unfold replaceNewPrice replaceNewPriceChecked
  revert hok
  dsimp only
  rcases i.insert event.newOrderId slot with ⟨i',ok⟩
  rcases j.insert event.newOrderId slot with ⟨j',ok'⟩
  intro hok
  obtain rfl : ok=ok' := hok
  by_cases hfail : ((book.levels old.side).find? event.newPrice).isNone ∧ fails .replaceLevel
  · rw [if_pos hfail,if_pos hfail]
  rw [if_neg hfail,if_neg hfail]
  by_cases hover : quantityMax-(((book.levels old.side).find? event.newPrice).getD
      {}).totalQuantity<event.newQuantity
  · rw [if_pos hover,if_pos hover]
  · rw [if_neg hover,if_neg hover]
    cases ok with
    | false => rfl
    | true =>
      dsimp only
      cases ((book.levels old.side).tryEmplace event.newPrice {}).1.find? old.price <;> rfl

/-- A replacement sees the index in the same way. -/
theorem replace_index (hf : ∀ id, i.find id=j.find id)
    (hi : ∀ id s, i.find id=none → (i.insert id s).2=(j.insert id s).2) (event : ReplaceEvent) :
    ({ b with index := i }.replace fails event).2=
      ({ b with index := j }.replace fails event).2 := by
  unfold replace replaceChecked
  simp only [← hf]
  cases i.find event.oldOrderId with
  | none => rfl
  | some slot =>
    dsimp only
    by_cases hrej : event.newOrderId=0 ∨ event.newQuantity=0 ∨ (i.find event.newOrderId).isSome
    · rw [if_pos hrej,if_pos hrej]
    rw [if_neg hrej,if_neg hrej]
    have habs : i.find event.newOrderId=none := by
      simpa using (not_or.mp (not_or.mp hrej).2).2
    have hok := hi event.newOrderId slot habs
    cases b.books.find? (b.slots.slotAt slot).order.symbol with
    | none => rfl
    | some book =>
      dsimp only
      split_ifs
      · exact replaceSamePrice_index hok _
      · exact replaceNewPrice_index hok book _

end OrderBook

namespace Rep
variable {b b' : OrderBook} {L : Ledger}

/-- Books of one ledger differ in their index only. -/
theorem eq_index (h : Rep b L) (h' : Rep b' L) (hlen : b.slots.length=b'.slots.length) :
    b'={ b with index := b'.index } := by
  obtain ⟨hs,hf,hb,_⟩ := h.determined h' hlen
  cases b
  cases b'
  simp_all

/-- Books of one ledger read the same. -/
theorem sameView (h : Rep b L) (h' : Rep b' L) (hlen : b.slots.length=b'.slots.length) :
    b.SameView b' := by
  have hcount : b.liveOrderCount=b'.liveOrderCount := by
    rw [h.liveOrderCount_eq,h'.liveOrderCount_eq]
  have hfind (id : OrderId) : b.find id=b'.find id := by
    obtain ⟨hs,_,_,hi⟩ := h.determined h' hlen
    simp [OrderBook.find,hi,hs]
  rw [h.eq_index h' hlen] at hcount hfind ⊢
  exact ⟨hfind,hcount,fun _ => rfl,fun _ => rfl,fun _ => rfl,fun _ => rfl,rfl⟩

/-- Books of one ledger answer alike, also under failing allocations. -/
theorem outcome_eq (h : Rep b L) (h' : Rep b' L) (hlen : b.slots.length=b'.slots.length)
    (fails : AllocPoint → Bool) (e : MarketEvent) :
    (b.applyWith fails e).2=(b'.applyWith fails e).2 := by
  obtain ⟨_,_,_,hi⟩ := h.determined h' hlen
  have hins (id : OrderId) (s : SlotIndex) (habs : b.index.find id=none) :
      (b.index.insert id s).2=(b'.index.insert id s).2 := by
    have hl := h.live_length
    have hl' := h'.live_length
    have h1 := h.index.insert h.placement.ids (by omega) (s,{ (default : Order) with id }) habs
    have h2 := h'.index.insert h'.placement.ids (by omega) (s,{ (default : Order) with id })
      ((hi id).symm.trans habs)
    exact h1.1.trans h2.1.symm
  have hb' := h.eq_index h' hlen
  cases e with
  | add e =>
    rw [hb']
    exact OrderBook.add_index hi hins e
  | execute e =>
    exact (h.reduce e.orderId e.executedShares).1.trans
      (h'.reduce e.orderId e.executedShares).1.symm
  | cancel e =>
    exact (h.reduce e.orderId e.canceledShares).1.trans
      (h'.reduce e.orderId e.canceledShares).1.symm
  | delete e => exact (h.removeOrder e.orderId).1.trans (h'.removeOrder e.orderId).1.symm
  | replace e =>
    rw [hb']
    exact OrderBook.replace_index hi hins e

/-- Books of one ledger stay indistinguishable along any further events. -/
theorem run_eq (h : Rep b L) (h' : Rep b' L) (hlen : b.slots.length=b'.slots.length)
    (later : List OrderBook.Step) :
    b.outcomes later=b'.outcomes later ∧ (b.runWith later).SameView (b'.runWith later) := by
  induction later generalizing b b' L with
  | nil => exact ⟨rfl,h.sameView h' hlen⟩
  | cons s rest ih =>
    have ho := h.outcome_eq h' hlen s.1 s.2
    have hlen' (next : Ledger) (hr : Rep (b.applyWith s.1 s.2).1 next)
        (hr' : Rep (b'.applyWith s.1 s.2).1 next) :
        (b.applyWith s.1 s.2).1.slots.length=(b'.applyWith s.1 s.2).1.slots.length := by
      rw [← hr.live_length,← hr'.live_length]
    have hnext : ∃ next, Rep (b.applyWith s.1 s.2).1 next ∧ Rep (b'.applyWith s.1 s.2).1 next := by
      rcases h.applyWith s.1 s.2 with ⟨hr,hn⟩ | ⟨hr,_,hn⟩
      · rcases h'.applyWith s.1 s.2 with ⟨_,hn'⟩ | ⟨hr',_,_⟩
        · exact ⟨_,hn,hn'⟩
        · rw [ho,hr'] at hr
          cases hr
      · rcases h'.applyWith s.1 s.2 with ⟨hr',_⟩ | ⟨_,_,hn'⟩
        · rw [ho,hr'] at hr
          cases hr
        · exact ⟨L,hn,hn'⟩
    obtain ⟨next,hn,hn'⟩ := hnext
    obtain ⟨h1,h2⟩ := ih hn hn' (hlen' next hn hn')
    exact ⟨by rw [OrderBook.outcomes,OrderBook.outcomes,ho,h1],h2⟩

/-- An event that is not accepted keeps the ledger. -/
theorem rejected (h : Rep b L) {fails : AllocPoint → Bool} {e : MarketEvent}
    (hrej : (b.applyWith fails e).2≠.returned true) : Rep (b.applyWith fails e).1 L := by
  rcases h.applyWith fails e with ⟨hr,hn⟩ | ⟨_,_,hn⟩
  · have hfalse : (L.apply e).2=false := by
      rw [hr] at hrej
      simpa using hrej
    rwa [Ledger.apply_rejected hfalse] at hn
  · exact hn

end Rep

namespace OrderBook

/-- A rejected or failing event leaves no trace: the same arena, free list, maps and index
meaning, and the same answers and snapshots ever after. -/
theorem rejected_leaves_no_trace {n : Nat} {b : OrderBook} (hb : Reachable n b)
    (fails : AllocPoint → Bool) (e : MarketEvent)
    (hrej : (b.applyWith fails e).2=.returned false ∨ ∃ x, (b.applyWith fails e).2=.threw x) :
    (b.applyWith fails e).1.slots=b.slots ∧ (b.applyWith fails e).1.freeHead=b.freeHead ∧
      (b.applyWith fails e).1.books=b.books ∧
      (∀ id, (b.applyWith fails e).1.index.find id=b.index.find id) ∧
      ∀ later, (b.applyWith fails e).1.outcomes later=b.outcomes later ∧
        ((b.applyWith fails e).1.runWith later).SameView (b.runWith later) := by
  obtain ⟨L,h,_⟩ := hb.rep
  have h' : Rep (b.applyWith fails e).1 L := by
    refine h.rejected ?_
    rcases hrej with hr | ⟨x,hr⟩ <;> simp [hr]
  have hlen : (b.applyWith fails e).1.slots.length=b.slots.length := by
    rw [← h.live_length,← h'.live_length]
  obtain ⟨hs,hf,hbk,hi⟩ := h'.determined h hlen
  exact ⟨hs,hf,hbk,hi,h'.run_eq h hlen⟩

/-- A first order whose price level cannot be allocated. -/
theorem rejected_leaves_no_trace_failed_level : ∃ b, Reachable 2 b ∧
    (b.applyWith (fun p => p=.addLevel) (.add ⟨default,⟨7,default,.buy,5,100⟩⟩)).2=
      .threw .badAlloc ∧
    (b.applyWith (fun p => p=.addLevel) (.add ⟨default,⟨7,default,.buy,5,100⟩⟩)).1.slots=
      b.slots := by
  obtain ⟨b,hb⟩ := create_isOk (n := 2) (by decide) (by decide)
  have ho : (b.applyWith (fun p => p=.addLevel)
      (.add ⟨default,⟨7,default,.buy,5,100⟩⟩)).2=.threw .badAlloc := by
    obtain ⟨_,_,rfl⟩ := create_ok hb
    decide +kernel
  exact ⟨b,.create hb,ho,(rejected_leaves_no_trace (.create hb) _ _ (Or.inr ⟨_,ho⟩)).1⟩

end OrderBook
end MarketWire
