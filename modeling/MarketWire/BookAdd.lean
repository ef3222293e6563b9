import MarketWire.BookStep

/-! Additions. The slot and the index entry are taken before the level is known, so a
rejected or failing addition has to give both back. -/
namespace MarketWire
open Library

namespace Slots
variable {slots : Slots} {s : SlotIndex}

/-- A slot as `add` hands it to `add_to`: allocated, with the order written. -/
def prepared (slots : Slots) (s : SlotIndex) (order : Order) : Slots :=
  (slots.update s fun x => { x with nextFree := kInvalidSlot, alive := true }).updateOrder s
    fun _ => order

theorem length_prepared (order : Order) : (slots.prepared s order).length=slots.length := by
  simp [prepared]

theorem slotAt_prepared (h : s.toNat<slots.length) (order : Order) (j : SlotIndex) :
    (slots.prepared s order).slotAt j=
      if j=s then { slots.slotAt s with order, nextFree := kInvalidSlot, alive := true }
      else slots.slotAt j := by
  have hs : s.toNat<(slots.update s fun x =>
      { x with nextFree := kInvalidSlot, alive := true }).length := by simpa using h
  rw [prepared,slotAt_updateOrder hs,slotAt_update h]
  split_ifs <;> rfl

/-- Releasing a prepared blank slot undoes the preparation. -/
theorem release_prepared (h : s.toNat<slots.length) (hb : slots.length≤2^32)
    (hblank : slots.slotAt s={ nextFree := slots.nextFrees s }) (order : Order) :
    (slots.prepared s order).update s (fun _ => { nextFree := slots.nextFrees s })=slots := by
  have hs : s.toNat<(slots.prepared s order).length := by rwa [length_prepared]
  refine Slots.ext_slotAt (by simp [length_prepared]) (by simpa [length_prepared] using hb)
    fun j _ => ?_
  rw [slotAt_update hs,slotAt_prepared h]
  split_ifs with hj
  · rw [hj,← hblank]
  · rfl

end Slots

/-- Two maps that differ at most at one symbol, and nowhere in their levels. -/
structure Books.SameLevels (books books' : Books) (symbol : Symbol) : Prop where
  level : books'.level?=books.level?
  others : ∀ sym, sym≠symbol → books'.find? sym=books.find? sym

namespace OrderBook
variable {b : OrderBook} {fails : AllocPoint → Bool} {order : Order} {slot : SlotIndex}

/-- The level `add_to` links at, its total already raised. -/
def raised (b : OrderBook) (order : Order) : PriceLevel :=
  { (b.books.level? order.key).getD {} with
    totalQuantity := ((b.books.level? order.key).getD {}).totalQuantity+order.quantity }

/-- The overflow test of `add_to`. -/
abbrev overflows (b : OrderBook) (order : Order) : Prop :=
  quantityMax-((b.books.level? order.key).getD {}).totalQuantity<order.quantity

/-- What the guarded part of an addition can do. -/
inductive LinkResult (fails : AllocPoint → Bool) (b : OrderBook) (order : Order)
    (slot : SlotIndex) : OrderBook×Outcome → Prop
  | failed (p : AllocPoint) (books : Books) (hp : fails p=true)
      (hs : b.books.SameLevels books order.symbol) :
      LinkResult fails b order slot ({ b with books },.threw .badAlloc)
  | rejected (books : Books) (ho : b.overflows order)
      (hs : b.books.SameLevels books order.symbol) :
      LinkResult fails b order slot ({ b with books },.returned false)
  | linked (books : Books) (ho : ¬b.overflows order)
      (hl : books.level?=Function.update b.books.level? order.key
        (some (b.slots.linkAtTail (b.raised order) slot).2))
      (hs : ∀ sym, sym≠order.symbol → books.find? sym=b.books.find? sym) :
      LinkResult fails b order slot
        ({ b with slots := (b.slots.linkAtTail (b.raised order) slot).1, books },.returned true)

theorem addTo_result {book : SymbolBook} (hb : b.books.find? order.symbol=some book) :
    LinkResult fails b order slot (b.addTo fails book order slot) := by
  have hbook : b.books.bookOf order.symbol=book := by simp [Books.bookOf,hb]
  have hlv : b.books.level? order.key=(book.levels order.side).find? order.price := by
    simp [Books.level?,Order.key,hb]
  unfold addTo addToChecked
  dsimp only
  by_cases hfail : ((book.levels order.side).find? order.price).isNone ∧ fails .addLevel
  · rw [if_pos hfail]
    exact .failed .addLevel b.books hfail.2 ⟨rfl,fun _ _ => rfl⟩
  rw [if_neg hfail,← hlv]
  by_cases hover : b.overflows order
  · rw [if_pos hover,hlv,SortedMap.tryEmplace_undo,SymbolBook.withLevels_levels,
      SortedMap.set_self b.books hb]
    exact .rejected b.books hover ⟨rfl,fun _ _ => rfl⟩
  · rw [if_neg hover]
    refine .linked _ hover ?_ fun sym hs => ?_
    · rw [← hbook]
      exact Books.level?_put b.books order.key _ _ fun price =>
        SortedMap.find?_set_tryEmplace _ _ _ _ _
    · rw [SortedMap.find?_set,if_neg hs]

/-- The guarded part reads the maps through their levels only. -/
theorem LinkResult.of_sameLevels {books : Books} {r : OrderBook×Outcome}
    (hs : b.books.SameLevels books order.symbol)
    (h : LinkResult fails { b with books } order slot r) : LinkResult fails b order slot r := by
  have hr : { b with books }.raised order=b.raised order := by simp [raised,hs.level]
  have ho : { b with books }.overflows order ↔ b.overflows order := by simp [overflows,hs.level]
  cases h with
  | failed p books' hp hs' =>
    exact .failed p books' hp ⟨hs'.level.trans hs.level,
      fun sym hne => (hs'.others sym hne).trans (hs.others sym hne)⟩
  | rejected books' hover hs' =>
    exact .rejected books' (ho.mp hover) ⟨hs'.level.trans hs.level,
      fun sym hne => (hs'.others sym hne).trans (hs.others sym hne)⟩
  | linked books' hover hl hs' =>
    rw [hr] at hl ⊢
    refine .linked books' (fun hb => hover (ho.mpr hb)) (hl.trans ?_)
      fun sym hne => (hs' sym hne).trans (hs.others sym hne)
    rw [hs.level]

theorem addLinked_result (b : OrderBook) :
    LinkResult fails b order slot (b.addLinked fails order slot) := by
  unfold addLinked addLinkedChecked
  cases hb : b.books.find? order.symbol with
  | some book => exact addTo_result hb
  | none =>
    dsimp only
    by_cases hfail : fails .addSymbol=true
    · rw [if_pos hfail]
      exact .failed .addSymbol b.books hfail ⟨rfl,fun _ _ => rfl⟩
    · rw [if_neg hfail]
      refine LinkResult.of_sameLevels ⟨?_,fun sym hs => ?_⟩
        (addTo_result (by simp [SortedMap.find?_set]))
      · funext k
        simp only [Books.level?,SortedMap.find?_set]
        split_ifs with hk
        · rw [hk,hb]
          cases k.side <;> rfl
        · rfl
      · rw [SortedMap.find?_set,if_neg hs]

end OrderBook

/-- A step of the book against the step of its ledger: same answer and represented
states, or a failed allocation that leaves the ledger alone. -/
def Simulates (fails : AllocPoint → Bool) (L : Ledger) (next : Ledger×Bool)
    (r : OrderBook×Outcome) : Prop :=
  (r.2=.returned next.2 ∧ Rep r.1 next.1) ∨
    (r.2=.threw .badAlloc ∧ (∃ p, fails p=true) ∧ Rep r.1 L)

theorem overflow_iff (total quantity : Quantity) :
    quantityMax-total<quantity ↔ total.toNat+quantity.toNat>quantityMax.toNat := by
  have hmax := toNat_quantityMax
  have ht := total.toNat_lt
  have hle : total≤quantityMax := UInt32.le_iff_toNat_le.mpr (by omega)
  rw [UInt32.lt_iff_toNat_lt,UInt32.toNat_sub_of_le _ _ hle]
  omega

theorem toNat_add_of_fits {total quantity : Quantity}
    (h : total.toNat+quantity.toNat≤quantityMax.toNat) :
    (total+quantity).toNat=total.toNat+quantity.toNat := by
  have hmax := toNat_quantityMax
  rw [UInt32.toNat_add]
  exact Nat.mod_eq_of_lt (by omega)

namespace Rep
variable {b : OrderBook} {L : Ledger} {order : Order} {s : SlotIndex} {free : List SlotIndex}

/-- The state in which `add` calls `add_to`. -/
def staged (b : OrderBook) (s : SlotIndex) (order : Order) : OrderBook :=
  { b with
    slots := b.slots.prepared s order
    freeHead := b.slots.nextFrees s
    index := (b.index.insert order.id s).1 }

theorem head_lt (h : Rep b L) (hfree : L.free=s::free) : s.toNat<b.slots.length :=
  h.placement.free_lt (by simp [hfree])

theorem head_not_live (h : Rep b L) (hfree : L.free=s::free) : s∉L.live.map Prod.fst :=
  h.free_not_live (by simp [hfree])

theorem chain_head (h : Rep b L) (hfree : L.free=s::free) :
    b.freeHead=s ∧ s≠kInvalidSlot := by
  have hc := h.arena.chain
  rw [hfree] at hc
  exact ⟨hc.1,hc.2.1⟩

theorem insert_index (h : Rep b L) (habs : L.lookup order.id=none) :
    (b.index.insert order.id s).2=true ∧
      IndexRep (b.index.insert order.id s).1 b.slots.length (L.live++[(s,order)]) := by
  have hlen := h.live_length
  refine h.index.insert h.placement.ids (by omega) (s,order) ?_
  rw [h.find_eq,habs]
  rfl

theorem staged_slotAt (h : Rep b L) (hfree : L.free=s::free) (order : Order) {j : SlotIndex}
    (hj : j≠s) :
    (staged b s order).slots.slotAt j=b.slots.slotAt j := by
  rw [staged,Slots.slotAt_prepared (h.head_lt hfree),if_neg hj]

/-- Giving back the slot and the index entry restores the ledger. -/
theorem rollback (h : Rep b L) (hfree : L.free=s::free) (habs : L.lookup order.id=none)
    {books : Books} (hs : b.books.SameLevels books order.symbol) :
    Rep { ({ staged b s order with books }.eraseIndex order.id).releaseSlot s with
      books := books.eraseIfEmpty order.symbol } L := by
  have hmem : s∈L.free := by simp [hfree]
  have hwo : withoutId (L.live++[(s,order)]) order.id=L.live := by
    rw [withoutId,List.filter_append,List.filter_eq_self.mpr]
    · simp
    · exact fun p hp => by simpa using Ledger.lookup_eq_none.mp habs p hp
  refine h.transfer ?_ (h.chain_head hfree).1.symm ?_ ?_ ?_
  · exact Slots.release_prepared (h.head_lt hfree) (h.bound.le.trans (by decide))
      (h.arena.blank s hmem) order
  · have hi := (h.insert_index (s := s) habs).2.erase order.id
    rwa [hwo] at hi
  · exact (Books.level?_eraseIfEmpty books order.symbol).trans hs.level
  · refine Books.tight_eraseIfEmpty order.symbol fun sym book hne hb => ?_
    rw [hs.others sym hne] at hb
    exact h.tight sym book hb

/-- A successful addition. -/
theorem linked (h : Rep b L) (hfree : L.free=s::free) (habs : L.lookup order.id=none)
    (hover : ¬(staged b s order).overflows order) {books : Books}
    (hl : books.level?=Function.update b.books.level? order.key
      (some ((staged b s order).slots.linkAtTail (b.raised order) s).2))
    (hs : ∀ sym, sym≠order.symbol → books.find? sym=b.books.find? sym) :
    Rep { staged b s order with
        slots := ((staged b s order).slots.linkAtTail (b.raised order) s).1, books }
      ⟨L.live++[(s,order)],free⟩ := by
  have hlt := h.head_lt hfree
  have hout := h.head_not_live hfree
  have hlen : (staged b s order).slots.length=b.slots.length := Slots.length_prepared order
  have hne {p : Placed} (hp : p∈L.live) : p.1≠s := fun he => hout (he ▸ List.mem_map_of_mem hp)
  have hlinks : LinksRep (staged b s order).slots b.books.level? L.live :=
    h.links.frame fun p hp => h.staged_slotAt hfree order (hne hp)
  have hr : Resident (staged b s order).slots L.live :=
    ⟨by rw [hlen]; exact h.resident.bound,h.resident.nodup,by rw [hlen]; exact h.resident.lt⟩
  have hat : (staged b s order).slots.slotAt s=
      { b.slots.slotAt s with order, nextFree := kInvalidSlot, alive := true } := by
    rw [staged,Slots.slotAt_prepared hlt,if_pos rfl]
  have hh : (b.raised order).head=((b.books.level? order.key).getD {}).head := rfl
  have ht : (b.raised order).tail=((b.books.level? order.key).getD {}).tail := rfl
  have hflag (j : SlotIndex) (hj : j.toNat<b.slots.length) :=
    hlinks.slotAt_linkAtTail hr hout (by rwa [hlen]) hh ht (j := j) (by rwa [hlen])
  have hlenl : ((staged b s order).slots.linkAtTail (b.raised order) s).1.length=
      b.slots.length := by rw [Slots.length_linkAtTail,hlen]
  have hfits : (b.raised order).totalQuantity.toNat=
      sumQuantity (atKey L.live order.key)+order.quantity.toNat := by
    have hle := (not_congr (overflow_iff _ _)).mp hover
    rw [← (h.links.level order.key).dlist.2]
    exact toNat_add_of_fits (Nat.not_lt.mp hle)
  have harena := h.arena
  obtain ⟨live,free'⟩ := L
  obtain rfl : free'=s::free := hfree
  refine ⟨by rw [hlenl]; exact h.placement.add rfl habs,by rw [hlenl]; exact h.bound,
    by rw [hlenl]; exact (h.insert_index habs).2,?_,?_,?_⟩
  · refine harena.below.congr (fun p hp => ?_) (fun j hj => ?_)
    · rcases List.mem_append.mp hp with hp | hp
      · rw [hflag p.1 (h.placement.live_lt hp),h.staged_slotAt rfl order (hne hp)]
        exact h.arena.flags p hp
      · rw [List.mem_singleton.mp hp,hflag s hlt,hat]
        exact ⟨rfl,rfl⟩
    · have hjm : j∈s::free := List.mem_cons_of_mem s hj
      have hjs : j≠s := by
        rintro rfl
        exact (List.nodup_cons.mp (List.nodup_append.mp h.placement.nodup).2.1).1 hj
      refine Eq.trans ?_ (h.staged_slotAt rfl order hjs)
      exact hlinks.link_frame hr hout (by rwa [hlen]) hh ht
        (by rw [hlen]; exact h.placement.free_lt hjm) hjs (h.free_not_live hjm)
  · rw [hl]
    exact hlinks.attach hr hout (by rwa [hlen]) (by rw [hat]) hh ht hfits
  · refine h.tight.of_level hs (k := order.key) ?_
    rw [hl,Function.update_self]
    simp

/-- Additions simulate the ledger. -/
theorem add (h : Rep b L) (fails : AllocPoint → Bool) (event : AddEvent) :
    Simulates fails L (L.add event.order) (b.add fails event) := by
  unfold OrderBook.add OrderBook.addChecked Ledger.add
  dsimp only
  rw [h.find_isSome]
  by_cases hrej : event.order.id=0 ∨ event.order.quantity=0 ∨
      (L.lookup event.order.id).isSome
  · rw [if_pos hrej,if_pos hrej]
    exact Or.inl ⟨rfl,h⟩
  rw [if_neg hrej,if_neg hrej]
  simp only [not_or,Option.not_isSome_iff_eq_none] at hrej
  obtain ⟨_,_,habs⟩ := hrej
  cases hfree : L.free with
  | nil =>
    have hc := h.arena.chain
    rw [hfree] at hc
    have hinv : b.freeHead=kInvalidSlot := hc
    simp only [OrderBook.allocateSlot,hinv,if_true]
    exact Or.inl ⟨rfl,h⟩
  | cons s free =>
    obtain ⟨hhead,hinv⟩ := h.chain_head hfree
    obtain ⟨hok,_⟩ := h.insert_index (s := s) habs
    simp only [OrderBook.allocateSlot,hhead,if_neg hinv]
    rcases hins : b.index.insert event.order.id s with ⟨index,ok⟩
    rw [hins] at hok
    obtain rfl : ok=true := hok
    have hst : { b with
        slots := (b.slots.update s fun x =>
          { x with nextFree := kInvalidSlot, alive := true }).updateOrder s fun _ => event.order
        freeHead := (b.slots.slotAt s).nextFree
        index }=staged b s event.order := by simp [staged,hins,Slots.prepared,Slots.nextFrees]
    dsimp only
    rw [hst]
    have hres : OrderBook.LinkResult fails (staged b s event.order) event.order s
        ((staged b s event.order).addLinkedChecked fails event.order s).1 :=
      OrderBook.addLinked_result (staged b s event.order)
    have htotal : L.total event.order.key=
        (((staged b s event.order).books.level? event.order.key).getD {}).totalQuantity.toNat :=
      (h.links.level event.order.key).dlist.2.symm
    generalize (staged b s event.order).addLinkedChecked fails event.order s=r at hres ⊢
    obtain ⟨r,checks⟩ := r
    dsimp only [Checked.after] at hres ⊢
    rw [htotal]
    cases hres with
    | failed p books hp hs => exact Or.inr ⟨rfl,⟨p,hp⟩,h.rollback hfree habs hs⟩
    | rejected books hover hs =>
      rw [if_pos ((overflow_iff _ _).mp hover)]
      exact Or.inl ⟨rfl,h.rollback hfree habs hs⟩
    | linked books hover hl hs =>
      rw [if_neg ((not_congr (overflow_iff _ _)).mp hover)]
      exact Or.inl ⟨rfl,h.linked hfree habs hover hl hs⟩

end Rep
end MarketWire
