import MarketWire.BookRun

/-! The failure points inside the book: index insertions, checked lookups and 32-bit updates. On a
reachable book no operation passes one that fails. -/
namespace MarketWire
open Library

/-- An insertion and a lookup succeed, and an update does not wrap. -/
def Check.Holds : Check → Prop
  | .inserted ok => ok=true
  | .found ok => ok=true
  | .subtracted a b => b.toNat≤a.toNat
  | .added a b => a.toNat+b.toNat<2^32
  | .narrowed v => v.toNat<2^32

/-- Every point passed is passed without failing. -/
def AllHold (checks : List Check) : Prop := ∀ c∈checks, c.Holds

@[simp] theorem allHold_nil : AllHold [] := by simp [AllHold]

@[simp] theorem allHold_cons (c : Check) (checks : List Check) :
    AllHold (c::checks) ↔ c.Holds ∧ AllHold checks := List.forall_mem_cons

@[simp] theorem allHold_append (xs ys : List Check) :
    AllHold (xs++ys) ↔ AllHold xs ∧ AllHold ys := List.forall_mem_append

@[simp] theorem allHold_after (checks : List Check) (r : Checked) :
    AllHold (r.after checks).2 ↔ AllHold checks ∧ AllHold r.2 := allHold_append checks r.2

/-- The guard before an increase keeps it in range. -/
theorem added_holds {total quantity : Quantity} (h : ¬quantityMax-total<quantity) :
    (Check.added total quantity).Holds := by
  have hmax := toNat_quantityMax
  rw [overflow_iff] at h
  show _<_
  omega

namespace OrderBook

theorem addToChecked_holds (fails : AllocPoint → Bool) (b : OrderBook) (book : SymbolBook)
    (order : Order) (slot : SlotIndex) : AllHold (b.addToChecked fails book order slot).2 := by
  unfold addToChecked
  dsimp only
  split_ifs with hfail hover
  · simp
  · simp
  · simp
  · simpa using added_holds hover

theorem addLinkedChecked_holds (fails : AllocPoint → Bool) (b : OrderBook) (order : Order)
    (slot : SlotIndex) : AllHold (b.addLinkedChecked fails order slot).2 := by
  unfold addLinkedChecked
  cases b.books.find? order.symbol with
  | some book => exact addToChecked_holds fails b book order slot
  | none =>
    dsimp only
    split_ifs
    · simp
    · exact addToChecked_holds fails _ {} order slot

end OrderBook

namespace Rep
variable {b : OrderBook} {L : Ledger}

theorem addChecked_holds (h : Rep b L) (fails : AllocPoint → Bool) (event : AddEvent) :
    AllHold (b.addChecked fails event).2 := by
  unfold OrderBook.addChecked
  dsimp only
  by_cases hrej : event.order.id=0 ∨ event.order.quantity=0 ∨ (b.index.find event.order.id).isSome
  · rw [if_pos hrej]
    simp
  rw [if_neg hrej]
  split_ifs with hslot
  · simp
  have habs : L.lookup event.order.id=none := by
    simpa [h.find_isSome] using (not_or.mp (not_or.mp hrej).2).2
  have hindex : b.allocateSlot.1.index=b.index := by
    unfold OrderBook.allocateSlot
    dsimp only
    split_ifs <;> rfl
  have hok := (h.insert_index (s := b.allocateSlot.2) habs).1
  rw [hindex]
  revert hok
  generalize b.index.insert event.order.id b.allocateSlot.2=inserted
  obtain ⟨index,ok⟩ := inserted
  intro hok
  obtain rfl : ok=true := hok
  dsimp only
  rw [allHold_after]
  refine ⟨by simp [Check.Holds],?_⟩
  have hlinked := OrderBook.addLinkedChecked_holds fails { b.allocateSlot.1 with
    slots := b.allocateSlot.1.slots.updateOrder b.allocateSlot.2 fun _ => event.order
    index } event.order b.allocateSlot.2
  revert hlinked
  generalize OrderBook.addLinkedChecked fails _ event.order b.allocateSlot.2=linked
  obtain ⟨⟨b',outcome⟩,checks⟩ := linked
  intro hlinked
  cases outcome with
  | returned ok => cases ok <;> exact hlinked
  | threw e => exact hlinked
  | endDereferenced => exact hlinked

/-- The level of a live order is found, and holds at least the order's quantity. -/
theorem level_holds (h : Rep b L) {p : Placed} (hm : p∈L.live) :
    AllHold (b.levelChecks p.2.key) ∧ ∃ level, b.books.level? p.2.key=some level ∧
      (Check.subtracted level.totalQuantity p.2.quantity).Holds := by
  obtain ⟨level,hl,hsum⟩ := h.level_of_live hm
  have hbook : (b.books.find? p.2.key.symbol).isSome := by
    rw [Books.level?,Option.bind_eq_some_iff] at hl
    obtain ⟨book,hb,-⟩ := hl
    rw [hb]
    rfl
  have hle := le_sumQuantity ((mem_atKey L.live p.2.key p).mpr ⟨hm,rfl⟩)
  refine ⟨?_,level,hl,hle.trans_eq hsum.symm⟩
  simp [OrderBook.levelChecks,Check.Holds,hbook,hl]

theorem removeOrderChecked_holds (h : Rep b L) (id : OrderId) :
    AllHold (b.removeOrderChecked id).2 := by
  unfold OrderBook.removeOrderChecked
  cases hp : L.lookup id with
  | none =>
    have hf : b.index.find id=none := by rw [h.find_eq,hp]; rfl
    rw [hf]
    simp
  | some p =>
    obtain ⟨hf,ho,hm,-⟩ := h.find_of_lookup hp
    obtain ⟨hchecks,level,hl,hsub⟩ := h.level_holds hm
    simp only [hf,ho,hl,allHold_after]
    exact ⟨hchecks,by simpa using hsub⟩

theorem reduceChecked_holds (h : Rep b L) (id : OrderId) (shares : Quantity) :
    AllHold (b.reduceChecked id shares).2 := by
  unfold OrderBook.reduceChecked
  cases hp : L.lookup id with
  | none =>
    have hf : b.index.find id=none := by rw [h.find_eq,hp]; rfl
    rw [hf]
    simp
  | some p =>
    obtain ⟨hf,ho,hm,rfl⟩ := h.find_of_lookup hp
    obtain ⟨level,hl,hsum⟩ := h.level_of_live hm
    simp only [hf,ho,hl]
    by_cases hrej : shares=0 ∨ shares>p.2.quantity
    · rw [if_pos hrej]
      simp
    rw [if_neg hrej]
    have hle : shares≤p.2.quantity := UInt32.not_lt.mp (not_or.mp hrej).2
    obtain ⟨hle',hstep⟩ := h.taken hm hl hsum hle
    simp only [allHold_after]
    refine ⟨(h.level_holds hm).1,?_,?_⟩
    · simpa [Check.Holds] using
        And.intro (UInt32.le_iff_toNat_le.mp hle') (UInt32.le_iff_toNat_le.mp hle)
    · split_ifs
      · exact hstep.removeOrderChecked_holds p.2.id
      · simp

theorem replaceSamePriceChecked_holds (h : Rep b L) {p : Placed} (hm : p∈L.live)
    {event : ReplaceEvent} (habs : L.lookup event.newOrderId=none) :
    AllHold (b.replaceSamePriceChecked p.2 p.1 event).2 := by
  have hmax := toNat_quantityMax
  obtain ⟨-,level,hl,hsub⟩ := h.level_holds hm
  have hok := (h.replace_index (o := Ledger.replaced p.2 event) hm habs).1
  unfold OrderBook.replaceSamePriceChecked
  simp only [hl]
  split_ifs with hover
  · simpa using hsub
  rw [show (Ledger.replaced p.2 event).id=event.newOrderId from rfl] at hok
  revert hok
  generalize b.index.insert event.newOrderId p.1=inserted
  obtain ⟨index,ok⟩ := inserted
  intro hok
  obtain rfl : ok=true := hok
  have hfits : (Check.narrowed (level.totalQuantity.toUInt64-p.2.quantity.toUInt64+
      event.newQuantity.toUInt64)).Holds := by
    rw [gt_iff_lt,UInt64.lt_iff_toNat_lt,UInt32.toNat_toUInt64] at hover
    show _<_
    omega
  simpa [Check.Holds] using And.intro hsub hfits

theorem replaceNewPriceChecked_holds (h : Rep b L) {p : Placed} (hm : p∈L.live)
    {event : ReplaceEvent} (habs : L.lookup event.newOrderId=none)
    (hprice : p.2.price≠event.newPrice) {book : SymbolBook}
    (hb : b.books.find? p.2.symbol=some book) (fails : AllocPoint → Bool) :
    AllHold (b.replaceNewPriceChecked fails book p.2 p.1 event).2 := by
  obtain ⟨-,level,hl,hsub⟩ := h.level_holds hm
  -- the new level does not disturb the old one
  have hold : ((book.levels p.2.side).tryEmplace event.newPrice {}).1.find? p.2.price=
      some level := by
    rw [SortedMap.find?_tryEmplace,if_neg hprice]
    simpa [Books.level?,Order.key,hb] using hl
  have hok := (h.replace_index (o := Ledger.replaced p.2 event) hm habs).1
  unfold OrderBook.replaceNewPriceChecked
  dsimp only
  by_cases hfail : ((book.levels p.2.side).find? event.newPrice).isNone ∧ fails .replaceLevel
  · rw [if_pos hfail]
    simp
  rw [if_neg hfail]
  by_cases hover : quantityMax-(((book.levels p.2.side).find? event.newPrice).getD
      {}).totalQuantity<event.newQuantity
  · rw [if_pos hover]
    simp
  rw [if_neg hover]
  rw [show (Ledger.replaced p.2 event).id=event.newOrderId from rfl] at hok
  revert hok
  generalize b.index.insert event.newOrderId p.1=inserted
  obtain ⟨index,ok⟩ := inserted
  intro hok
  obtain rfl : ok=true := hok
  dsimp only
  rw [hold,allHold_after]
  refine ⟨by simp [Check.Holds],?_⟩
  simpa using And.intro hsub (added_holds hover)

theorem replaceChecked_holds (h : Rep b L) (fails : AllocPoint → Bool) (event : ReplaceEvent) :
    AllHold (b.replaceChecked fails event).2 := by
  unfold OrderBook.replaceChecked
  rw [h.find_isSome]
  cases hp : L.lookup event.oldOrderId with
  | none =>
    have hf : b.index.find event.oldOrderId=none := by rw [h.find_eq,hp]; rfl
    rw [hf]
    simp
  | some p =>
    obtain ⟨hf,ho,hm,-⟩ := h.find_of_lookup hp
    simp only [hf,ho]
    by_cases hrej : event.newOrderId=0 ∨ event.newQuantity=0 ∨
        (L.lookup event.newOrderId).isSome
    · rw [if_pos hrej]
      simp
    rw [if_neg hrej,allHold_after]
    simp only [not_or,Option.not_isSome_iff_eq_none] at hrej
    refine ⟨(h.level_holds hm).1,?_⟩
    cases hb : b.books.find? p.2.symbol with
    | none => simp
    | some book =>
      dsimp only
      split_ifs with hprice
      · exact h.replaceSamePriceChecked_holds hm hrej.2.2
      · exact h.replaceNewPriceChecked_holds hm hrej.2.2 hprice hb fails

theorem applyChecked_holds (h : Rep b L) (fails : AllocPoint → Bool) (e : MarketEvent) :
    AllHold (b.applyChecked fails e).2 := by
  cases e with
  | add e => exact h.addChecked_holds fails e
  | execute e => exact h.reduceChecked_holds e.orderId e.executedShares
  | cancel e => exact h.reduceChecked_holds e.orderId e.canceledShares
  | delete e => exact h.removeOrderChecked_holds e.orderId
  | replace e => exact h.replaceChecked_holds fails e

end Rep

namespace OrderBook
variable {n : Nat} {b : OrderBook}

/-- No failure point of the book is ever reached: whatever happened before and whichever
allocations fail, every insertion into the index succeeds, every checked lookup finds its level,
and no update of a quantity wraps. -/
theorem applyChecked_allHold (hb : Reachable n b) (fails : AllocPoint → Bool) (e : MarketEvent) :
    (b.applyChecked fails e).1=b.applyWith fails e ∧ AllHold (b.applyChecked fails e).2 := by
  obtain ⟨L,h,-⟩ := hb.rep
  exact ⟨by cases e <;> rfl,h.applyChecked_holds fails e⟩

/-- In a full arena a replacement holds two ids at once. -/
theorem applyChecked_allHold_full : ∃ b, Reachable 1 b ∧ b.freeHead=kInvalidSlot ∧
    (b.applyChecked (fun _ => false) (.replace ⟨default,7,8,6,100⟩)).2=
      [.found true,.found true,.subtracted 5 5,.inserted true,.narrowed 6] ∧
    AllHold (b.applyChecked (fun _ => false) (.replace ⟨default,7,8,6,100⟩)).2 := by
  obtain ⟨b0,hb0⟩ := create_isOk (n := 1) (by decide) (by decide)
  set b := (b0.apply (.add ⟨default,⟨7,default,.buy,5,100⟩⟩)).1
  have hb : Reachable 1 b := .step (fun _ => false) _ (.create hb0)
  have hfacts : b.freeHead=kInvalidSlot ∧
      (b.applyChecked (fun _ => false) (.replace ⟨default,7,8,6,100⟩)).2=
        [.found true,.found true,.subtracted 5 5,.inserted true,.narrowed 6] := by
    obtain ⟨-,-,rfl⟩ := create_ok hb0
    decide +kernel
  exact ⟨b,hb,hfacts.1,hfacts.2,(applyChecked_allHold hb _ _).2⟩

end OrderBook
end MarketWire
