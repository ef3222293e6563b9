import MarketWire.StateHash

/-! Two arenas of different size. They hold the same orders in the same slots as long as the
smaller one never runs out of slots, and then nothing visible tells them apart. -/
namespace MarketWire
open Library

/-- The larger arena has the same live orders, and the smaller one's free slots on top. -/
structure Wider (L L' : Ledger) : Prop where
  live : L.live=L'.live
  free : ∃ extra, L.free=L'.free++extra

/-- An addition that only a full arena can refuse. -/
def Ledger.Addable (L : Ledger) (o : Order) : Prop :=
  o.id≠0 ∧ o.quantity≠0 ∧ L.lookup o.id=none ∧
    L.total o.key+o.quantity.toNat≤quantityMax.toNat

/-- An arena with a free slot takes such an addition. -/
theorem Ledger.Addable.add {L : Ledger} {o : Order} {slot : SlotIndex} {free : List SlotIndex}
    (h : L.Addable o) (hf : L.free=slot::free) :
    L.add o=({ live := L.live++[(slot,o)], free },true) := by
  obtain ⟨hid,hq,hl,ht⟩ := h
  rw [Ledger.add,if_neg (by simp [hid,hq,hl]),hf]
  exact if_neg (Nat.not_lt.mpr ht)

namespace Wider
variable {L L' : Ledger}

theorem fresh {n n' : Nat} (h : n'≤n) : Wider (Ledger.fresh n) (Ledger.fresh n') := by
  obtain ⟨d,rfl⟩ := Nat.exists_eq_add_of_le h
  refine ⟨rfl,((List.range d).map (n'+·)).map UInt32.ofNat,?_⟩
  simp only [Ledger.fresh]
  rw [List.range_add,List.map_append]

theorem lookup_eq (h : Wider L L') (id : OrderId) : L.lookup id=L'.lookup id := by
  rw [Ledger.lookup,Ledger.lookup,h.live]

theorem total_eq (h : Wider L L') (k : LevelKey) : L.total k=L'.total k := by
  rw [Ledger.total,Ledger.total,h.live]

theorem add (h : Wider L L') {o : Order} (ho : L.Addable o → L'.free≠[]) :
    Wider (L.add o).1 (L'.add o).1 := by
  obtain ⟨extra,hf⟩ := h.free
  unfold Ledger.add
  rw [h.lookup_eq,h.total_eq]
  split_ifs with hrej hover
  · exact h
  · rw [hf]
    cases L'.free with
    | nil => cases extra <;> exact h
    | cons slot free => exact h
  · push Not at hrej
    rw [hf]
    cases hfree : L'.free with
    | nil =>
      refine absurd hfree (ho ⟨hrej.1,hrej.2.1,?_,?_⟩)
      · rw [h.lookup_eq]
        simpa using hrej.2.2
      · rw [h.total_eq]
        exact Nat.not_lt.mp hover
    | cons slot free => exact ⟨congrArg (·++[(slot,o)]) h.live,extra,rfl⟩

theorem remove (h : Wider L L') (id : OrderId) : Wider (L.remove id).1 (L'.remove id).1 := by
  obtain ⟨extra,hf⟩ := h.free
  unfold Ledger.remove
  rw [h.lookup_eq]
  cases L'.lookup id with
  | none => exact h
  | some p => exact ⟨by simp only [h.live],extra,by simp only [hf,List.cons_append]⟩

theorem reduce (h : Wider L L') (id : OrderId) (shares : Quantity) :
    Wider (L.reduce id shares).1 (L'.reduce id shares).1 := by
  unfold Ledger.reduce
  rw [h.lookup_eq]
  cases L'.lookup id with
  | none => exact h
  | some p =>
    dsimp only
    split_ifs
    · exact h
    · exact h.remove id
    · exact ⟨by simp only [Ledger.setQuantity,h.live],h.free⟩

theorem replace (h : Wider L L') (e : ReplaceEvent) :
    Wider (L.replace e).1 (L'.replace e).1 := by
  unfold Ledger.replace
  rw [h.lookup_eq,h.lookup_eq,h.live]
  cases L'.lookup e.oldOrderId with
  | none => exact h
  | some p =>
    dsimp only
    split_ifs
    · exact h
    · exact h
    · exact ⟨rfl,h.free⟩

theorem apply (h : Wider L L') {e : MarketEvent}
    (he : ∀ a, e=.add a → L.Addable a.order → L'.free≠[]) :
    Wider (L.apply e).1 (L'.apply e).1 := by
  cases e with
  | add a => exact h.add (he a rfl)
  | execute x => exact h.reduce _ _
  | cancel x => exact h.reduce _ _
  | delete x => exact h.remove _
  | replace x => exact h.replace x

end Wider

namespace OrderBook

/-- The total quantity of a level; an absent level has none. -/
def levelTotal (b : OrderBook) (k : LevelKey) : Nat :=
  ((b.books.level? k).map fun level => level.totalQuantity.toNat).getD 0

/-- An addition that only a full arena can refuse. -/
def Addable (b : OrderBook) (o : Order) : Prop :=
  o.id≠0 ∧ o.quantity≠0 ∧ b.find o.id=none ∧
    b.levelTotal o.key+o.quantity.toNat≤quantityMax.toNat

/-- No addition meets a book with `n` live orders that could take it. -/
def WithinCapacity (n : Nat) (b : OrderBook) (events : List MarketEvent) : Prop :=
  ∀ earlier a later, events=earlier++.add a::later →
    (b.run earlier).Addable a.order → (b.run earlier).liveOrderCount<n

end OrderBook

namespace Rep
variable {b b' : OrderBook} {L L' : Ledger} {n : Nat}

theorem levelTotal_eq (h : Rep b L) (k : LevelKey) : b.levelTotal k=L.total k := by
  have hrep := h.links.level k
  unfold OrderBook.levelTotal Ledger.total
  cases hl : b.books.level? k with
  | none =>
    rw [hl] at hrep
    rw [show atKey L.live k=[] from hrep]
    rfl
  | some level =>
    rw [hl] at hrep
    exact hrep.2.2

theorem addable_iff (h : Rep b L) (o : Order) : b.Addable o ↔ L.Addable o := by
  unfold OrderBook.Addable Ledger.Addable
  rw [h.levelTotal_eq,h.find_order,Option.map_eq_none_iff]

/-- Books with the same live orders print the same count and hash. -/
theorem same_hash (h : Rep b L) (h' : Rep b' L') (hlive : L.live=L'.live) :
    b.liveOrderCount=b'.liveOrderCount ∧ b.stateHash=b'.stateHash := by
  have hbooks := h.books_eq h' hlive
  have hview : bookViews b L=bookViews b' L' := by
    simp only [bookViews,sideView,OrderBook.prices,Ledger.viewAt,Ledger.total,hbooks,hlive]
  refine ⟨by rw [h.liveOrderCount_eq,h'.liveOrderCount_eq,hlive],?_⟩
  rw [OrderBook.stateHash,OrderBook.stateHash,h.feed_eq,h'.feed_eq,hview]

/-- Within the smaller capacity both arenas go through the same orders. -/
theorem run_wider (h : Rep b L) (hw : Wider L L') (hp : L'.WF n) (hn : n≤2^32)
    {events : List MarketEvent} (hc : b.WithinCapacity n events) :
    Wider (L.run events) (L'.run events) := by
  induction events generalizing b L L' with
  | nil => exact hw
  | cons e rest ih =>
    have hfree : ∀ a, e=.add a → L.Addable a.order → L'.free≠[] := by
      rintro a rfl ha hnil
      have hcount : b.liveOrderCount<n := hc [] a rest rfl ((h.addable_iff _).mpr ha)
      have hlen := hp.toPlacement.length hn
      rw [h.liveOrderCount_eq,hw.live] at hcount
      rw [hnil,List.length_nil] at hlen
      omega
    refine ih (h.apply e).2 (hw.apply hfree) (hp.apply e) fun earlier a later he => ?_
    exact hc (e::earlier) a later (by rw [he]; rfl)

/-- A smaller arena that keeps up all the way was never full when an addition came. -/
theorem within_of_same {n' : Nat} (h : Rep b L) (h' : Rep b' L') (hp : L.WF n) (hp' : L'.WF n')
    (hlt : n'<n) (hn : n≤2^32) {events : List MarketEvent}
    (hs : ∀ earlier, earlier<+:events →
      (b.run earlier).liveOrderCount=(b'.run earlier).liveOrderCount) :
    b.WithinCapacity n' events := by
  intro earlier a later he ha
  have hcount (es : List MarketEvent) (hes : es<+:events) :
      (L.run es).live.length=(L'.run es).live.length := by
    rw [← (h.run es).liveOrderCount_eq,hs es hes,(h'.run es).liveOrderCount_eq]
  have hbound (es : List MarketEvent) := (hp'.run es).toPlacement.length (hlt.le.trans hn)
  have hnow := hcount earlier ⟨_,he.symm⟩
  have hnext := hcount (earlier++[.add a]) ⟨later,by rw [he]; simp⟩
  have hfree : (L.run earlier).free≠[] := by
    intro hnil
    have hlen := (hp.run earlier).toPlacement.length hn
    have hle := hbound earlier
    rw [hnil,List.length_nil] at hlen
    omega
  have hstep : L.run (earlier++[.add a])=((L.run earlier).add a.order).1 := by
    rw [Ledger.run,List.foldl_append]
    rfl
  obtain ⟨slot,free,hcons⟩ := List.exists_cons_of_ne_nil hfree
  have hle := hbound (earlier++[.add a])
  rw [(h.run earlier).liveOrderCount_eq]
  rw [hstep,(((h.run earlier).addable_iff _).mp ha).add hcons,List.length_append,
    List.length_singleton] at hnext
  omega

end Rep

namespace OrderBook
variable {n n' : Nat} {b b' : OrderBook} {events : List MarketEvent}

theorem WithinCapacity.earlier {es : List MarketEvent} (hc : b.WithinCapacity n events)
    (he : es<+:events) : b.WithinCapacity n es := by
  obtain ⟨rest,rfl⟩ := he
  intro earlier a later hes
  exact hc earlier a (later++rest) (by rw [hes]; simp)

/-- A smaller book that is never full at such an addition ends with the same orders. -/
theorem WithinCapacity.same_hash (hb : create n=.ok b) (hb' : create n'=.ok b') (hlt : n'<n)
    (hc : b.WithinCapacity n' events) :
    (b'.run events).liveOrderCount=(b.run events).liveOrderCount ∧
      (b'.run events).stateHash=(b.run events).stateHash := by
  have hn : n≤2^32 := (create_ok hb).2.1.le.trans (by decide)
  have hn' : n'≤2^32 := hlt.le.trans hn
  have hw := (create_rep hb).run_wider (Wider.fresh hlt.le) (Ledger.fresh_wf hn') hn' hc
  exact ((create_rep hb').run events).same_hash ((create_rep hb).run events) hw.live.symm

/-- Two fresh books of different size keep the same count all the way exactly when the smaller
one is never full at an addition that could be taken. -/
theorem withinCapacity_iff (hb : create n=.ok b) (hb' : create n'=.ok b') (hlt : n'<n) :
    b.WithinCapacity n' events ↔ ∀ earlier, earlier<+:events →
      (b'.run earlier).liveOrderCount=(b.run earlier).liveOrderCount := by
  have hn : n≤2^32 := (create_ok hb).2.1.le.trans (by decide)
  constructor
  · intro hc earlier he
    exact (WithinCapacity.same_hash hb hb' hlt (hc.earlier he)).1
  · intro hs
    exact (create_rep hb).within_of_same (create_rep hb') (Ledger.fresh_wf hn)
      (Ledger.fresh_wf (hlt.le.trans hn)) hlt hn fun earlier he => (hs earlier he).symm

end OrderBook

end MarketWire
